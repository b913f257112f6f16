/-
# The links a block reads

The edges that leave an identity class, turned towards it: which way each runs, the
identity at its far end, who asserted it, and the date of the freshest dated fact of
that identity the audience may see. Parallel edges to one identity are collapsed
after the audience's filter. The readers see committed state only.
-/

import Zuihitsu.Library.Ranking
import Zuihitsu.Visibility.Markers

namespace Zuihitsu

open Zuihitsu.Core Zuihitsu.Graph Zuihitsu.Library

/-- Which way a link runs, as the class it was read from sees it. -/
inductive LinkDirection where
  | outgoing
  | incoming
  deriving DecidableEq, Repr

/-- A link as a reader hands it back. -/
structure LinkRef where
  relation : RelationName
  other : MemoryId
  otherName : MemoryName
  direction : LinkDirection
  source : LinkSource
  toldBy : Option String
  occurredAt : Option TemporalRef
  deriving DecidableEq

namespace Graph

/-- The links with an end in the class of a memory, by relation and target. -/
def classLinks (graph : Graph) (id : MemoryId) : List LinkRow :=
  (graph.links.rows.filter fun row =>
    (graph.liveRow row.fromId).isSome && (graph.liveRow row.toId).isSome &&
      (graph.inClass id row.fromId || graph.inClass id row.toId)).insertionSort
    fun first second => first.relation.text < second.relation.text ||
      (first.relation = second.relation && first.toId ≤ second.toId)

theorem mem_classLinks {graph : Graph} {id : MemoryId} {row : LinkRow} :
    row ∈ graph.classLinks id ↔ row ∈ graph.links ∧ (graph.liveRow row.fromId).isSome = true ∧
      (graph.liveRow row.toId).isSome = true ∧
        (graph.inClass id row.fromId = true ∨ graph.inClass id row.toId = true) := by
  simp [classLinks, List.mem_insertionSort, Table.mem_def, and_assoc]

end Graph

namespace MemoryBlock

/-! ### The date of a far memory -/

/-- Whether an entry is read for the audience: with no one present all are. -/
def datesFor (graph : Graph) (presentSet : List MemoryId) (memory : MemoryView)
    (entry : EntryView) : Bool :=
  presentSet.isEmpty || entryShown graph presentSet memory entry

/-- The occurrence of an entry that is read, preferred when it was stated. -/
def datedReading {α : Type} (shown : EntryView → Bool) (carries : EntryView → TemporalRef → α)
    (entry : EntryView) : Option (Bool × α) :=
  match entry.occurredAt with
  | none => none
  | some occurredAt =>
    if shown entry then some (entry.occurredAuthored, carries entry occurredAt) else none

/-- The freshest occurrence among the entries that are read, a stated one first. -/
def freshestOccurrence {α : Type} (shown : EntryView → Bool)
    (carries : EntryView → TemporalRef → α) (entries : List EntryView) : Option α :=
  latestPreferred (datedReading shown carries) entries

/-- The occurrence a link carries for its far memory. -/
def latestDatedOccurrence (graph : Graph) (memory : MemoryView) (presentSet : List MemoryId) :
    Option TemporalRef :=
  freshestOccurrence (datesFor graph presentSet memory) (fun _ occurredAt => occurredAt)
    (graph.classEntries memory.id)

section Dates

variable {α : Type} {shown : EntryView → Bool} {carries : EntryView → TemporalRef → α}
variable {entries : List EntryView} {entry : EntryView}

theorem datedReading_eq_some {authored : Bool} {value : α} :
    datedReading shown carries entry = some (authored, value) ↔
      ∃ occurredAt, entry.occurredAt = some occurredAt ∧ shown entry = true ∧
        entry.occurredAuthored = authored ∧ carries entry occurredAt = value := by
  unfold datedReading
  cases dated : entry.occurredAt with
  | none => simp
  | some => cases shown entry <;> simp

theorem freshestOccurrence_authored {value : α}
    (found : freshestOccurrence shown carries entries = some value)
    (stated : ∃ entry ∈ entries, shown entry = true ∧ entry.occurredAuthored = true ∧
      entry.occurredAt.isSome = true) :
    ∃ entry ∈ entries, shown entry = true ∧ entry.occurredAuthored = true ∧
      ∃ occurredAt, entry.occurredAt = some occurredAt ∧ carries entry occurredAt = value := by
  have reads : ∃ entry ∈ entries, ∃ other, datedReading shown carries entry = some (true, other) := by
    obtain ⟨entry, member, seen, authored, dated⟩ := stated
    obtain ⟨occurredAt, dated⟩ := Option.isSome_iff_exists.mp dated
    exact ⟨entry, member, _, datedReading_eq_some.mpr ⟨occurredAt, dated, seen, authored, rfl⟩⟩
  obtain ⟨entry, member, reads⟩ := latestPreferred_preferred found reads
  obtain ⟨occurredAt, dated, seen, authored, carried⟩ := datedReading_eq_some.mp reads
  exact ⟨entry, member, seen, authored, occurredAt, dated, carried⟩

end Dates

/-! ### The readers -/

/-- An edge that leaves a class: which way it runs, and the identity at its far end. -/
structure OutwardEdge where
  edge : LinkRow
  direction : LinkDirection
  far : MemoryId
  deriving DecidableEq

/-- The far end of an edge, as a class sees it. -/
def farEnd (graph : Graph) (id : MemoryId) (edge : LinkRow) : Option (LinkDirection × MemoryId) :=
  match graph.inClass id edge.fromId, graph.inClass id edge.toId with
  | true, false => some (.outgoing, edge.toId)
  | false, true => some (.incoming, edge.fromId)
  -- within the identity, or unrelated
  | _, _ => none

/-- An edge as it leaves a class, where it does and the audience may see it. -/
def outwardEdge (graph : Graph) (presentSet : List MemoryId) (id : MemoryId) (edge : LinkRow) :
    Option OutwardEdge :=
  (farEnd graph id edge).bind fun (direction, other) =>
    let far := graph.classOf other
    -- plumbing of the identity, reached by another of its stubs
    if graph.inClass id far then none
    else if !presentSet.isEmpty && !linkShown graph presentSet edge.relation edge.linkVis then none
    else some ⟨edge, direction, far⟩

/-- What parallel edges are collapsed by. -/
def OutwardEdge.key (outward : OutwardEdge) : RelationName × Bool × MemoryId :=
  (outward.edge.relation, outward.direction = .incoming, outward.far)

/-- The label of who asserted a link. -/
def linkTeller (graph : Graph) : Option Teller → Option String
  | none => none
  | some .agent => some "you"
  | some .bootstrap => some "genesis"
  | some (.participant teller) =>
    some (((graph.memoryById (graph.classOf teller)).map (·.name.text)).getD "someone")

/-- The link handed back for an edge, where its far identity is a live memory. -/
def linkRef (graph : Graph) (presentSet : List MemoryId) (outward : OutwardEdge) : Option LinkRef :=
  (graph.memoryById outward.far).map fun other =>
    { relation := outward.edge.relation
      other := other.id
      otherName := other.name
      direction := outward.direction
      source := outward.edge.source
      toldBy := linkTeller graph outward.edge.toldBy
      occurredAt := latestDatedOccurrence graph other presentSet }

/-- Every link from the class of a memory to another identity. -/
def classLinkRefs (graph : Graph) (presentSet : List MemoryId) (id : MemoryId) : List LinkRef :=
  (firsts OutwardEdge.key ((graph.classLinks id).filterMap (outwardEdge graph presentSet id))).filterMap
    (linkRef graph presentSet)

/-- Every link of a memory's class. -/
def links (graph : Graph) (block : MemoryBlock) (id : MemoryId) : List LinkRef :=
  classLinkRefs graph block.presentSet id

/-- The links of a class under a relation that run one way, or either way when the relation
is symmetric. -/
def directedLinks (graph : Graph) (block : MemoryBlock) (id : MemoryId) (relation : RelationName)
    (want : LinkDirection) : Except MemoryError (List LinkRef) :=
  match graph.relation relation with
  | none => .error (.unknownRelation relation)
  | some view =>
    .ok ((classLinkRefs graph block.presentSet id).filter fun link =>
      link.relation = view.name && (view.symmetric || link.direction = want))

/-- The links out of a memory's class under a relation. -/
def outgoing (graph : Graph) (block : MemoryBlock) (id : MemoryId) (relation : RelationName) :
    Except MemoryError (List LinkRef) :=
  directedLinks graph block id relation .outgoing

/-- The links into a memory's class under a relation. -/
def incoming (graph : Graph) (block : MemoryBlock) (id : MemoryId) (relation : RelationName) :
    Except MemoryError (List LinkRef) :=
  directedLinks graph block id relation .incoming

end MemoryBlock

end Zuihitsu
