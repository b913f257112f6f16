/-
# Reading the projection

The view types the graph's queries return and the queries the write path and the
maintenance passes rely on. Live reads leave out deleted memories, superseded
entries and withdrawn attestations; history reads keep the last two.
-/

import Zuihitsu.Graph.Apply

namespace Zuihitsu.Graph

open Zuihitsu.Core Zuihitsu.Library

/-! ### Views -/

/-- A live memory as projected. -/
structure MemoryView where
  id : MemoryId
  name : MemoryName
  description : String
  volatility : Volatility
  createdAt : Timestamp
  tags : List TagName
  deriving DecidableEq, Repr

/-- One teller's endorsement of an entry's fact. -/
structure AttestationView where
  teller : Teller
  toldIn : Option ConversationRef
  assertedAt : Timestamp
  posture : Visibility
  phrasing : Option String
  sourceEntry : Option EntryId
  retractedReason : Option String
  deriving DecidableEq

/-- The endorsement an entry carries by construction. -/
def AttestationView.founding (teller : Teller) (toldIn : Option ConversationRef)
    (assertedAt : Timestamp) (posture : Visibility) : AttestationView :=
  ⟨teller, toldIn, assertedAt, posture, none, none, none⟩

/-- Where a content entry came from. -/
inductive EntryOrigin where
  | recorded
  | platformConnector (platform : String)
  deriving DecidableEq, Repr

/-- Whether the entry is maintained by a platform connector. -/
def EntryOrigin.isConnector : EntryOrigin → Bool
  | platformConnector _ => true
  | recorded => false

/-- A content entry as projected, with the attestations the read carries. -/
structure EntryView where
  entryId : EntryId
  assertedAt : Timestamp
  occurredSort : Option Timestamp
  occurredAt : Option TemporalRef
  occurredAuthored : Bool
  text : String
  toldBy : Teller
  toldIn : Option ConversationRef
  visibility : Visibility
  supersededBy : Option EntryId
  retractedReason : Option String
  origin : EntryOrigin
  attestations : List AttestationView
  deriving DecidableEq

/-- Which attestations an entry read carries. -/
inductive AttestationScope where
  | live
  | withWithdrawn
  deriving DecidableEq, Repr

/-- Decode an attestation row. -/
def attestationFromRow (row : AttestationRow) : AttestationView :=
  ⟨row.teller, row.toldIn, row.assertedAt, row.posture, row.phrasing, row.sourceEntry,
    row.retractedReason⟩

/-- Whether a row is in a read's scope. -/
def AttestationScope.covers : AttestationScope → AttestationRow → Bool
  | live, row => row.retractedReason.isNone
  | withWithdrawn, _ => true

/-- The attestation rows of an entry in a read's scope, in commit order. -/
def attestationRowsFor (graph : Graph) (entry : EntryId) (scope : AttestationScope) :
    List AttestationRow :=
  (graph.attestations.rows.filter fun row => row.entryId = entry && scope.covers row).insertionSort
    fun first second => first.seq ≤ second.seq

/-- The attestations of an entry in a read's scope, in commit order. -/
def attestationsFor (graph : Graph) (entry : EntryId) (scope : AttestationScope) :
    List AttestationView :=
  (attestationRowsFor graph entry scope).map attestationFromRow

/-- Decode an entry row and attach its attestations. -/
def entryFromRow (graph : Graph) (scope : AttestationScope) (row : EntryRow) : EntryView where
  entryId := row.entryId
  assertedAt := row.assertedAt
  occurredSort := row.occurrence.bounds.sort
  occurredAt := row.occurrence.occurredAt
  occurredAuthored := row.occurredAuthored
  text := row.text
  toldBy := row.toldBy
  toldIn := row.toldIn
  visibility := row.visibility
  supersededBy := row.supersededBy
  retractedReason := row.retractedReason
  origin :=
    match row.originPlatform with
    | some platform => .platformConnector platform
    | none => .recorded
  attestations := attestationsFor graph row.entryId scope

theorem mem_attestationRowsFor {graph : Graph} {entry : EntryId} {scope : AttestationScope}
    {row : AttestationRow} :
    row ∈ attestationRowsFor graph entry scope ↔
      row ∈ graph.attestations ∧ row.entryId = entry ∧ scope.covers row = true := by
  simp [attestationRowsFor, List.mem_insertionSort, Table.mem_def]

theorem mem_attestationsFor {graph : Graph} {entry : EntryId} {scope : AttestationScope}
    {view : AttestationView} :
    view ∈ attestationsFor graph entry scope ↔
      ∃ row ∈ graph.attestations, row.entryId = entry ∧ scope.covers row = true ∧
        view = attestationFromRow row := by
  simp only [attestationsFor, List.mem_map, mem_attestationRowsFor]
  constructor
  · rintro ⟨row, ⟨member, owner, covered⟩, rfl⟩
    exact ⟨row, member, owner, covered, rfl⟩
  · rintro ⟨row, member, owner, covered, rfl⟩
    exact ⟨row, ⟨member, owner, covered⟩, rfl⟩

/-! ### Memories and identity classes -/

/-- The row of a memory that is not deleted. -/
def liveRow (graph : Graph) (id : MemoryId) : Option MemoryRow :=
  (graph.memoryRow id).filter fun row => !row.deleted

/-- The tags of a memory. -/
def tagsOf (graph : Graph) (id : MemoryId) : List TagName :=
  ((graph.memoryTags.rows.filter (·.memoryId = id)).map (·.tag)).insertionSort
    fun first second => first.text ≤ second.text

/-- Assemble a memory view from its row. -/
def assembleMemory (graph : Graph) (row : MemoryRow) : MemoryView :=
  ⟨row.id, row.name, row.description, row.volatility, row.createdAt, tagsOf graph row.id⟩

/-- A live memory by its internal id. -/
def memoryById (graph : Graph) (id : MemoryId) : Option MemoryView :=
  (graph.liveRow id).map (assembleMemory graph)

/-- A live memory by its agent-facing name. -/
def memoryByName (graph : Graph) (name : MemoryName) : Option MemoryView :=
  (graph.memories.rows.find? fun row => row.name = name && !row.deleted).map (assembleMemory graph)

/-- The live memory that used to go by a name. -/
def memoryIdForFormerName (graph : Graph) (name : MemoryName) : Option MemoryId :=
  (graph.aliases.find name).bind fun former =>
    (graph.liveRow former.memoryId).map (·.id)

/-- The identity class of a live memory. -/
def classId (graph : Graph) (id : MemoryId) : Option MemoryId :=
  (graph.liveRow id).map (·.classId)

/-- The resolver the predicates are given: the class of a live memory, and the
memory itself otherwise. -/
def classOf (graph : Graph) (id : MemoryId) : MemoryId := (graph.classId id).getD id

/-- Whether a memory is a live member of the class of `id`. -/
def inClass (graph : Graph) (id memory : MemoryId) : Bool :=
  match graph.classId id with
  | some primary => (graph.liveRow memory).any (·.classId = primary)
  | none => false

/-- The live members of the class of a live memory, by id. -/
def classMembers (graph : Graph) (id : MemoryId) : List MemoryId :=
  ((graph.memories.rows.filter fun row => graph.inClass id row.id).map (·.id)).insertionSort (· ≤ ·)

section Membership

variable {graph before after : Graph} {id memory : MemoryId}

theorem inClass_iff :
    graph.inClass id memory = true ↔
      ∃ primary, graph.classId id = some primary ∧ graph.classId memory = some primary := by
  unfold inClass
  cases graph.classId id with
  | none => simp
  | some => simp [classId, Option.any_eq_true]

theorem inClass_self (live : (graph.liveRow id).isSome = true) : graph.inClass id id = true := by
  obtain ⟨row, found⟩ := Option.isSome_iff_exists.mp live
  exact inClass_iff.mpr ⟨row.classId, by simp [classId, found]⟩

theorem live_of_inClass (member : graph.inClass id memory = true) :
    (graph.liveRow memory).isSome = true := by
  obtain ⟨primary, _, found⟩ := inClass_iff.mp member
  obtain ⟨row, found, _⟩ := Option.map_eq_some_iff.mp found
  exact Option.isSome_iff_exists.mpr ⟨row, found⟩

theorem inClass_congr (same : ∀ other, after.classId other = before.classId other)
    (memory : MemoryId) : after.inClass id memory = before.inClass id memory := by
  rw [Bool.eq_iff_iff, inClass_iff, inClass_iff, same id, same memory]

theorem mem_classMembers : memory ∈ graph.classMembers id ↔ graph.inClass id memory = true := by
  simp only [classMembers, List.mem_insertionSort, List.mem_map, List.mem_filter]
  constructor
  · rintro ⟨row, ⟨_, member⟩, rfl⟩
    exact member
  · intro member
    obtain ⟨row, found⟩ := Option.isSome_iff_exists.mp (live_of_inClass member)
    obtain ⟨stored, owner⟩ := Table.find_eq_some_iff.mp (Option.filter_eq_some_iff.mp found).1
    exact ⟨row, ⟨stored, owner ▸ member⟩, owner⟩

end Membership

/-! ### Entries -/

/-- The entry rows that match, in commit order. -/
def entryRowsWhere (graph : Graph) (matching : EntryRow → Bool) : List EntryRow :=
  (graph.entries.rows.filter matching).insertionSort fun first second => first.seq ≤ second.seq

/-- The live entries of the whole identity class of `id`, in commit order. -/
def classEntries (graph : Graph) (id : MemoryId) : List EntryView :=
  (graph.entryRowsWhere fun row => graph.inClass id row.memoryId && row.supersededBy.isNone).map
    (entryFromRow graph .live)

/-- As `classEntries`, with superseded entries and withdrawn attestations. -/
def classHistory (graph : Graph) (id : MemoryId) : List EntryView :=
  (graph.entryRowsWhere fun row => graph.inClass id row.memoryId).map
    (entryFromRow graph .withWithdrawn)

/-- The live entries of a memory under an unresolved arbitration, when at least two are. -/
def disputedEntries (graph : Graph) (id : MemoryId) : List EntryId :=
  let live := (graph.disputes.rows.filter fun row =>
    row.memoryId = id && (graph.entryRow row.entryId).any (·.supersededBy.isNone)).map (·.entryId)
  if 2 ≤ live.length then live else []

/-- A single entry by id, with its live owning memory. -/
def entryById (graph : Graph) (entry : EntryId) : Option (MemoryView × EntryView) :=
  (graph.entryRow entry).bind fun row =>
    (graph.memoryById row.memoryId).map fun memory => (memory, entryFromRow graph .live row)

theorem mem_entryRowsWhere {graph : Graph} {matching : EntryRow → Bool} {row : EntryRow} :
    row ∈ graph.entryRowsWhere matching ↔ row ∈ graph.entries ∧ matching row = true := by
  simp [entryRowsWhere, List.mem_insertionSort, Table.mem_def]

theorem nodup_entryRowsWhere (graph : Graph) (matching : EntryRow → Bool) :
    ((graph.entryRowsWhere matching).map (·.entryId)).Nodup := by
  have sorted := List.perm_insertionSort (fun first second : EntryRow => first.seq ≤ second.seq)
    (graph.entries.rows.filter matching)
  refine (sorted.map EntryRow.entryId).nodup_iff.mpr ?_
  exact graph.entries.nodup.sublist (List.filter_sublist.map EntryRow.entryId)

/-! ### The describer's reads -/

/-- The live memories whose content is newer than the pass that last considered them. -/
def staleMemories (graph : Graph) : List MemoryId :=
  ((graph.memories.rows.filter fun row => !row.deleted && row.stale).insertionSort
    fun first second => first.lastContentSeq < second.lastContentSeq ||
      (first.lastContentSeq = second.lastContentSeq && first.id ≤ second.id)).map (·.id)

/-- The content and described watermarks of a live memory. -/
def describedState (graph : Graph) (id : MemoryId) : Option (Nat × Nat) :=
  (graph.liveRow id).map fun row => (row.lastContentSeq, row.lastDescribedSeq)

/-- The untimed entries of a memory that a temporal extraction may resolve. -/
def untimedEntriesSince (graph : Graph) (id : MemoryId) (after : Nat) : List EntryId :=
  (graph.entryRowsWhere fun row =>
    row.memoryId = id && row.occurrence.occurredAt.isNone && row.supersededBy.isNone &&
      !row.descriptionMirror && after < row.seq).map (·.entryId)

/-- The timed entries of a memory that a temporal extraction may withdraw. -/
def timedEntriesSince (graph : Graph) (id : MemoryId) (after : Nat) : List EntryId :=
  (graph.entryRowsWhere fun row =>
    row.memoryId = id && row.occurrence.occurredAt.isSome && row.supersededBy.isNone &&
      !row.descriptionMirror && after < row.seq).map (·.entryId)

/-! ### Vocabulary and links -/

/-- A registered relation by either of its labels. -/
def relation (graph : Graph) (label : RelationName) : Option RelationRow :=
  graph.relations.rows.find? fun row => row.name = label || row.inverse = label

/-- The overwritable columns of a stored link. -/
def postureFromRow (row : LinkRow) : LinkPosture :=
  ⟨row.source, row.toldBy, row.toldIn, row.visibility⟩

/-- Whether two memories, deleted or not, have one stored class. -/
def sharesClass (graph : Graph) (first second : MemoryId) : Bool :=
  match graph.memoryRow first, graph.memoryRow second with
  | some firstRow, some secondRow => firstRow.classId = secondRow.classId
  | _, _ => false

/-- Whether a stored link runs from one identity class to another. -/
def joinsClasses (graph : Graph) (fromId toId : MemoryId) (row : LinkRow) : Bool :=
  graph.sharesClass fromId row.fromId && graph.sharesClass toId row.toId

/-- The stored posture of the edge a link assertion would collide with: the edge
between the very endpoints, or else one between members of their classes. -/
def linkBetween (graph : Graph) (fromId toId : MemoryId) (label : RelationName) :
    Option LinkPosture :=
  let edge := canonicalEdge graph fromId toId label
  match graph.links.find edge with
  | some row => some (postureFromRow row)
  | none =>
    let symmetric := (graph.relation edge.2.2).any (·.symmetric)
    let equivalent := graph.links.rows.filter fun row => row.relation = edge.2.2 &&
      (joinsClasses graph edge.1 edge.2.1 row ||
        symmetric && joinsClasses graph edge.2.1 edge.1 row)
    (equivalent.insertionSort fun first second => first.fromId < second.fromId ||
      (first.fromId = second.fromId && first.toId ≤ second.toId)).head?.map postureFromRow

end Zuihitsu.Graph
