/-
# The materializer

Folding committed events into the projection in log order. Each event is a
script of statements with the head written last; no transaction encloses them.
The reads a script makes between its statements are the materializer's own: the
anchor of a before-or-after occurrence, the canonical direction of a link, the
live attestations left on an entry, and the union-find over the identity links.
-/

import Zuihitsu.Graph.Statements
import Zuihitsu.Library.UnionFind

namespace Zuihitsu.Graph

open Zuihitsu.Core Zuihitsu.Library

/-! ### Occurrences -/

/-- The earlier of two timed bounds, the first on a tie. -/
def earlier (first second : OccurrenceBounds) : OccurrenceBounds :=
  match first.sort, second.sort with
  | some firstSort, some secondSort =>
    if secondSort.millis < firstSort.millis then second else first
  | _, _ => first

/-- The earliest bounds of a list, the first on a tie. -/
def earliest : List OccurrenceBounds → Option OccurrenceBounds
  | [] => none
  | first :: rest => some (rest.foldl earlier first)

/-- Whether an entry belongs to the memory of a name, deleted or not. -/
def ownerNamed (graph : Graph) (name : MemoryName) (row : EntryRow) : Bool :=
  (graph.memoryRow row.memoryId).any (·.name = name)

/-- The bounds of a before-or-after anchor: its memory's earliest timed entry. -/
def anchorBounds (graph : Graph) (anchor : MemoryName) : Option OccurrenceBounds :=
  earliest ((graph.entries.rows.filter fun row =>
    ownerNamed graph anchor row && row.occurrence.bounds.sort.isSome).map (·.occurrence.bounds))

/-- The occurrence columns of a reference, resolved against the projection so far. -/
def occurrenceColumns (graph : Graph) (occurredAt : Option TemporalRef) : OccurrenceColumns where
  occurredAt := occurredAt
  bounds :=
    match occurredAt with
    | some reference =>
      reference.bounds (reference.anchorName.bind (anchorBounds graph)) beforeAfterEpsilonMillis
    | none => OccurrenceBounds.unbounded

/-! ### Links and identity classes -/

/-- The canonical direction of a link asserted under either label. A label that
is registered nowhere is kept as given. -/
def canonicalEdge (graph : Graph) (fromId toId : MemoryId) (relation : RelationName) :
    MemoryId × MemoryId × RelationName :=
  match graph.relations.rows.find? fun row => row.name = relation || row.inverse = relation with
  | none => (fromId, toId, relation)
  | some row =>
    if row.symmetric then
      if fromId ≤ toId then (fromId, toId, row.name) else (toId, fromId, row.name)
    else if relation = row.name then (fromId, toId, row.name)
    else (toId, fromId, row.name)

/-- Every memory, deleted or not, with whether it is designated a primary. -/
def recomputeMembers (graph : Graph) : List (MemoryId × Bool) :=
  graph.memories.rows.map fun row => (row.id, row.designatedPrimary)

/-- The stored identity links. -/
def sameAsEdges (graph : Graph) : List (MemoryId × MemoryId) :=
  (graph.links.rows.filter (·.relation = .sameAs)).map fun row => (row.fromId, row.toId)

/-- The root of a memory in the union-find forest of the identity links. -/
def classRoot (edges : List (MemoryId × MemoryId)) : MemoryId → MemoryId :=
  UnionFind.find (UnionFind.forest edges.length edges) edges.length

/-- Whether a member comes before another in the choice of a primary: designated
members first, then the earlier id. -/
def outranks (candidate best : MemoryId × Bool) : Bool :=
  if candidate.2 = best.2 then candidate.1 < best.1 else candidate.2

/-- The primary of a memory's component: the best-ranked member. -/
def primaryOf (members : List (MemoryId × Bool)) (root : MemoryId → MemoryId)
    (id : MemoryId) : MemoryId :=
  match members.filter fun member => root member.1 = root id with
  | [] => id
  | first :: rest =>
    (rest.foldl (fun best candidate => if outranks candidate best then candidate else best) first).1

/-- Recompute every memory's class id from the identity links. -/
def recomputeClasses : Script Graph Violation :=
  .read fun graph =>
    let members := recomputeMembers graph
    let root := classRoot (sameAsEdges graph)
    .forEach members fun member => setClassId member.1 (primaryOf members root member.1)

/-- Recompute the classes after a write to a canonical edge of the identity relation. -/
def recomputeIfSameAs (relation : RelationName) : Script Graph Violation :=
  if relation = .sameAs then recomputeClasses else .done

/-! ### The arms -/

/-- The platform a connector's append records. -/
def originOf : EventSource → Option String
  | .platformConnector platform => some platform
  | _ => none

/-- The row a content append inserts. -/
def appendedEntry (event : Event) (graph : Graph) (id : MemoryId) (entryId : EntryId)
    (assertedAt : Timestamp) (occurredAt : Option TemporalRef) (text : String) (toldBy : Teller)
    (toldIn : Option ConversationRef) (visibility : Visibility) : EntryRow where
  entryId := entryId
  memoryId := id
  assertedAt := assertedAt
  occurrence := occurrenceColumns graph occurredAt
  occurredAuthored := occurredAt.isSome
  text := text
  toldBy := toldBy
  toldIn := toldIn
  visibility := visibility
  originPlatform := originOf event.source
  seq := event.seq

/-- Whether an attestation row is a live endorsement of an entry. -/
def liveAttestationOf (entry : EntryId) (row : AttestationRow) : Bool :=
  row.entryId = entry && row.retractedReason.isNone

/-- The statements that project an event, the head excepted. -/
def project (event : Event) : Script Graph Violation :=
  match event.payload with
  | .promptTemplateRegistered | .configSet | .luaExecuted | .conversationTurn
  | .modelCalled | .modelCallAborted | .ambientRecallSurfaced | .maintenancePassCompleted
  | .turnSuperseded | .embeddingModelChanged
  | .entryTemporalResolveFailed .. | .mergeProposed .. | .linksInferred .. => .done
  -- what genesis seeded counts as described
  | .genesisCompleted =>
    .statement (updateMemories (fun _ => true)
      fun row => { row with lastDescribedSeq := row.lastContentSeq })
  | .describePassCompleted memories =>
    .forEach memories fun memory =>
      updateMemories (·.id = memory) fun row => { row with lastDescribedSeq := event.seq }
  | .beliefArbitrated memory competingEntries resolution _ =>
    .exec (deleteDisputes memory) <|
      -- a verdict credits one side; without one the rivals stay disputed
      if resolution.credited.isEmpty then
        .forEach competingEntries fun entry =>
          replaceDispute ⟨entry, memory, resolution.statement⟩
      else .done
  | .memoryCreated id name =>
    .exec (insertMemory
      { id, name, createdAt := event.recordedAt, classId := id, lastContentSeq := event.seq }) <|
    .statement (insertFts ⟨id, name, "", ""⟩)
  | .memoryRenamed id oldName newName =>
    .exec (renameMemory id newName event.seq) <|
    .exec (updateFts id fun row => { row with name := newName }) <|
    .exec (replaceAlias ⟨oldName, id⟩) <|
    -- the old name stays searchable
    .statement (updateFts id (FtsRow.addContent oldName.text))
  -- a tombstone: the row stays, and keeps its name
  | .memoryDeleted id =>
    .exec (updateMemories (·.id = id) fun row => { row with deleted := true }) <|
    .exec (deleteContextParticipants id) <|
    .exec (deleteContextSessions id) <|
    .statement (deleteContextConversations id)
  | .memoryContentAppended id entryId assertedAt occurredAt text toldBy toldIn visibility =>
    .read fun graph =>
      .exec (insertEntry
        (appendedEntry event graph id entryId assertedAt occurredAt text toldBy toldIn
          visibility)) <|
      .exec (insertAttestation
        { entryId, teller := toldBy, toldIn, assertedAt, posture := visibility,
          seq := event.seq }) <|
      .exec (updateMemories (·.id = id) fun row => { row with lastContentSeq := event.seq }) <|
      -- only public content is indexed
      if visibility = .public then .statement (updateFts id (FtsRow.addContent text)) else .done
  | .memorySuperseded _ entry supersededBy =>
    .statement (supersedeEntry entry supersededBy)
  | .entriesConsolidated _ sources replacement _ =>
    .forEach sources fun source => supersedeEntry source replacement
  | .entryRetracted _ entry reason _ =>
    .exec (tombstoneEntry entry reason) <|
    -- withdrawing the entry withdraws every account of it
    .statement (retractAttestations (liveAttestationOf entry) reason)
  | .entryAttested _ entry teller toldIn assertedAt posture phrasing sourceEntry _ =>
    .statement (upsertAttestation
      { entryId := entry, teller, toldIn, assertedAt, posture, phrasing, sourceEntry,
        seq := event.seq })
  | .attestationRetracted _ entry teller reason _ =>
    .exec (retractAttestations (·.key = (entry, teller)) reason) <|
    -- an entry no teller stands behind any more is tombstoned
    .read fun graph =>
      if graph.attestations.rows.any (liveAttestationOf entry) then .done
      else .statement (tombstoneEntry entry reason)
  | .entryDescriptionMirrored _ entryId =>
    .statement (updateEntry entryId fun row => { row with descriptionMirror := true })
  | .entryTemporalResolved _ entryId occurredAt _ =>
    .read fun graph =>
      .exec (updateEntry entryId fun row =>
        { row with
          occurrence := occurrenceColumns graph occurredAt
          occurredAuthored := false }) <|
      -- a withdrawn occurrence also disarms the wake-ups armed off it
      if occurredAt.isNone then
        .statement (updateEntry entryId fun row =>
          { row with firedAt := none, surfacedAt := none })
      else .done
  | .scheduledJobFired entryId _ firedAt =>
    .statement (updateEntry entryId fun row =>
      { row with firedAt := some firedAt, surfacedAt := none })
  | .scheduledItemSurfaced entryId _ _ surfacedAt =>
    .statement (updateEntry entryId fun row => { row with surfacedAt := some surfacedAt })
  | .memoryDescriptionRegenerated id newText _ =>
    .exec (updateMemories (·.id = id) fun row => { row with description := newText }) <|
    .statement (updateFts id fun row => { row with description := newText })
  | .memoryVolatilitySet id volatility =>
    .statement (updateMemories (·.id = id) fun row => { row with volatility := volatility })
  | .classPrimaryDesignated memory designated =>
    .exec (updateMemories (·.id = memory)
      fun row => { row with designatedPrimary := designated }) <|
    recomputeClasses
  | .tagCreated name description => .statement (insertTag ⟨name, description⟩)
  | .tagDescriptionChanged name newDescription => .statement (updateTag name newDescription)
  | .tagAppliedToMemory memory tag => .statement (insertMemoryTag ⟨memory, tag⟩)
  | .tagRemovedFromMemory memory tag => .statement (deleteMemoryTag ⟨memory, tag⟩)
  | .linkTypeRegistered name inverse fromCard toCard symmetric reflexive description =>
    .statement (upsertRelation
      { name, inverse, fromCard, toCard, symmetric, reflexive, description })
  | .linkCreated fromId toId relation source toldBy toldIn visibility =>
    .read fun graph =>
      let edge := canonicalEdge graph fromId toId relation
      .exec (upsertLink
        { fromId := edge.1, toId := edge.2.1, relation := edge.2.2, source, toldBy, toldIn,
          visibility, assertedAt := event.recordedAt }) <|
      recomputeIfSameAs edge.2.2
  | .linkRemoved fromId toId relation =>
    .read fun graph =>
      let edge := canonicalEdge graph fromId toId relation
      .exec (deleteLink edge) <|
      recomputeIfSameAs edge.2.2
  | .conversationStarted id locator contextMemory =>
    .statement (insertConversation { id, locator, contextMemory })
  | .conversationEnded id => .statement (endConversation id)
  | .sessionStarted conversation id participants startedAt seededFromTurn brief =>
    .exec (insertSession
      { id, conversation, startedAt, seededFromTurn, brief, seq := event.seq }) <|
    .forEach participants fun participant => insertSessionParticipant ⟨id, participant, none⟩
  | .sessionEnded _ id cause => .statement (endSession id cause)
  | .participantJoined _ session participant atTurn =>
    .statement (insertSessionParticipant ⟨session, participant, some atTurn⟩)
  | .participantIdentified memory platform platformUserId =>
    .statement (insertParticipantIdentity ⟨platform, platformUserId, memory⟩)

/-- Fold one event: project it, then advance the head. -/
def apply (event : Event) (graph : Graph) : Except Violation Graph :=
  ((project event).andThen (.statement (setHead event.seq))).run graph

/-- Replay every event of the log beyond the head. -/
def materializeFrom (log : List Event) (graph : Graph) : Except Violation Graph :=
  foldLog apply (log.filter fun event => graph.head < event.seq) graph

theorem apply_eq (event : Event) (graph : Graph) :
    apply event graph =
      ((project event).run graph).map fun after => { after with head := event.seq } := by
  rw [apply, Script.run_andThen]
  cases (project event).run graph <;> rfl

theorem apply_ok {event : Event} {graph after : Graph} :
    apply event graph = .ok after ↔
      ∃ projected, (project event).run graph = .ok projected ∧
        after = { projected with head := event.seq } := by
  rw [apply_eq]
  cases (project event).run graph with
  | ok => simp [Except.map, eq_comm]
  | error => simp [Except.map]

end Zuihitsu.Graph
