/-
# The statements the materializer issues

One definition for each SQL statement of the fold, with the constraints SQLite
enforces when it runs: primary keys and unique columns on the rows as they
stand, deleted memories included, and foreign keys at the end of the statement.
A conflict clause covers keys and unique columns and never a foreign key.
-/

import Zuihitsu.Graph.Tables
import Zuihitsu.Library.Script

namespace Zuihitsu.Graph

open Zuihitsu.Core Zuihitsu.Library

/-! ### Memories and the lexical index -/

/-- `INSERT INTO memories`. The name is unique over deleted memories too. -/
def insertMemory (row : MemoryRow) : Statement := fun graph => do
  let memories ← inserted (graph.memories.insert row) .memories
  if graph.memories.rows.any (·.name = row.name) then throw (.unique .memories)
  requires (memories.contains row.classId) .memories
  return { graph with memories := memories }

/-- `UPDATE memories` of columns that carry no constraint. -/
def updateMemories (matching : MemoryRow → Bool) (change : MemoryRow → MemoryRow)
    (keeps : ∀ row, (change row).id = row.id := by intro _; rfl) : Statement := fun graph =>
  .ok { graph with memories := graph.memories.update matching change keeps }

/-- `UPDATE memories SET name, last_content_seq` of one memory. -/
def renameMemory (id : MemoryId) (name : MemoryName) (seq : Nat) : Statement := fun graph => do
  if graph.memories.contains id &&
      graph.memories.rows.any (fun row => row.id ≠ id && row.name = name) then
    throw (.unique .memories)
  return { graph with
    memories := graph.memories.update (·.id = id)
      fun row => { row with name := name, lastContentSeq := seq } }

/-- `UPDATE memories SET class_id` of one memory. -/
def setClassId (id classId : MemoryId) : Statement := fun graph => do
  requires (!graph.memories.contains id || graph.memories.contains classId) .memories
  return { graph with
    memories := graph.memories.update (·.id = id) fun row => { row with classId := classId } }

/-- `INSERT INTO memories_fts`. -/
def insertFts (row : FtsRow) : Statement := fun graph =>
  .ok { graph with fts := graph.fts ++ [row] }

/-- `UPDATE memories_fts` of one memory. -/
def updateFts (id : MemoryId) (change : FtsRow → FtsRow) : Statement := fun graph =>
  .ok { graph with fts := graph.fts.map fun row => if row.memoryId = id then change row else row }

/-- `content || ' ' || text`. -/
def FtsRow.addContent (text : String) (row : FtsRow) : FtsRow :=
  { row with content := row.content ++ " " ++ text }

/-- `INSERT OR REPLACE INTO memory_aliases`. -/
def replaceAlias (row : AliasRow) : Statement := fun graph => do
  requires (graph.memories.contains row.memoryId) .aliases
  return { graph with aliases := graph.aliases.insertOrReplace row }

/-! ### Entries, attestations and disputes -/

/-- `INSERT INTO content_entries`. -/
def insertEntry (row : EntryRow) : Statement := fun graph => do
  let entries ← inserted (graph.entries.insert row) .entries
  requires (graph.memories.contains row.memoryId) .entries
  return { graph with entries := entries }

/-- `UPDATE content_entries` of one entry, in columns that carry no constraint. -/
def updateEntry (entry : EntryId) (change : EntryRow → EntryRow)
    (keeps : ∀ row, (change row).entryId = row.entryId := by intro _; rfl) :
    Statement := fun graph =>
  .ok { graph with entries := graph.entries.update (·.entryId = entry) change keeps }

/-- `UPDATE content_entries SET superseded_by` of one entry. -/
def supersedeEntry (entry successor : EntryId) : Statement := fun graph => do
  requires (!graph.entries.contains entry || graph.entries.contains successor) .entries
  return { graph with
    entries := graph.entries.update (·.entryId = entry)
      fun row => { row with supersededBy := some successor } }

/-- `UPDATE content_entries SET superseded_by, retracted_reason`, the entry as its
own successor. -/
def tombstoneEntry (entry : EntryId) (reason : String) : Statement :=
  updateEntry entry fun row =>
    { row with supersededBy := some entry, retractedReason := some reason }

/-- The parents an attestation row refers to. -/
def attestationParents (graph : Graph) (row : AttestationRow) : Bool :=
  graph.entries.contains row.entryId && row.sourceEntry.all graph.entries.contains

/-- `INSERT INTO entry_attestations`. -/
def insertAttestation (row : AttestationRow) : Statement := fun graph => do
  let attestations ← inserted (graph.attestations.insert row) .attestations
  requires (attestationParents graph row) .attestations
  return { graph with attestations := attestations }

/-- What a later attestation by the same teller changes: everything but the key
and the original position, and it revives a withdrawn row. -/
def AttestationRow.mergeFrom (new old : AttestationRow) : AttestationRow :=
  { new with entryId := old.entryId, teller := old.teller, retractedReason := none, seq := old.seq }

@[simp] theorem AttestationRow.key_mergeFrom (new old : AttestationRow) :
    (new.mergeFrom old).key = old.key := rfl

/-- `INSERT INTO entry_attestations … ON CONFLICT(entry_id, teller) DO UPDATE`. -/
def upsertAttestation (row : AttestationRow) : Statement := fun graph => do
  requires (attestationParents graph row) .attestations
  return { graph with
    attestations := graph.attestations.upsert row row.mergeFrom row.key_mergeFrom }

/-- `UPDATE entry_attestations SET retracted_reason`. -/
def retractAttestations (matching : AttestationRow → Bool) (reason : String) :
    Statement := fun graph =>
  .ok { graph with
    attestations := graph.attestations.update matching
      fun row => { row with retractedReason := some reason } }

/-- `DELETE FROM entry_disputes` of one memory. -/
def deleteDisputes (memory : MemoryId) : Statement := fun graph =>
  .ok { graph with disputes := graph.disputes.delete (·.memoryId = memory) }

/-- `INSERT OR REPLACE INTO entry_disputes`. -/
def replaceDispute (row : DisputeRow) : Statement := fun graph => do
  requires (graph.memories.contains row.memoryId && graph.entries.contains row.entryId) .disputes
  return { graph with disputes := graph.disputes.insertOrReplace row }

/-! ### Vocabulary and links -/

/-- `INSERT INTO tags`. -/
def insertTag (row : TagRow) : Statement := fun graph => do
  let tags ← inserted (graph.tags.insert row) .tags
  return { graph with tags := tags }

/-- `UPDATE tags SET description` of one tag. -/
def updateTag (name : TagName) (description : String) : Statement := fun graph =>
  .ok { graph with
    tags := graph.tags.update (·.name = name) fun row => { row with description := description } }

/-- `INSERT OR IGNORE INTO memory_tags`. -/
def insertMemoryTag (row : MemoryTagRow) : Statement := fun graph => do
  requires (graph.memoryTags.contains row ||
    (graph.memories.contains row.memoryId && graph.tags.contains row.tag)) .memoryTags
  return { graph with memoryTags := graph.memoryTags.insertOrIgnore row }

/-- `DELETE FROM memory_tags` of one application. -/
def deleteMemoryTag (row : MemoryTagRow) : Statement := fun graph =>
  .ok { graph with memoryTags := graph.memoryTags.delete (· = row) }

/-- `INSERT INTO relations … ON CONFLICT(name) DO UPDATE`. -/
def upsertRelation (row : RelationRow) : Statement := fun graph =>
  .ok { graph with relations := graph.relations.upsert row fun old => { row with name := old.name } }

/-- `INSERT INTO links … ON CONFLICT DO UPDATE`: a re-assertion overwrites the
posture and keeps the original instant. -/
def upsertLink (row : LinkRow) : Statement := fun graph => do
  requires (graph.links.contains row.key ||
    (graph.memories.contains row.fromId && graph.memories.contains row.toId &&
      graph.relations.contains row.relation)) .links
  return { graph with
    links := graph.links.upsert row fun old =>
      { old with
        source := row.source
        toldBy := row.toldBy
        toldIn := row.toldIn
        visibility := row.visibility } }

/-- `DELETE FROM links` of one edge. -/
def deleteLink (key : MemoryId × MemoryId × RelationName) : Statement := fun graph =>
  .ok { graph with links := graph.links.delete (·.key = key) }

/-! ### Conversations and sessions -/

/-- `INSERT OR IGNORE INTO conversations`, unique in its id and in its locator. -/
def insertConversation (row : ConversationRow) : Statement := fun graph => do
  let taken := graph.conversations.contains row.id ||
    graph.conversations.rows.any (·.locator = row.locator)
  if taken then return graph
  requires (graph.memories.contains row.contextMemory) .conversations
  return { graph with conversations := graph.conversations.insertOrIgnore row }

/-- `UPDATE conversations SET ended`. -/
def endConversation (id : ConversationId) : Statement := fun graph =>
  .ok { graph with
    conversations := graph.conversations.update (·.id = id) fun row => { row with ended := true } }

/-- `INSERT INTO sessions`. -/
def insertSession (row : SessionRow) : Statement := fun graph => do
  let sessions ← inserted (graph.sessions.insert row) .sessions
  requires (graph.conversations.contains row.conversation) .sessions
  return { graph with sessions := sessions }

/-- `UPDATE sessions SET ended, end_cause`. -/
def endSession (id : SessionId) (cause : Option SessionEndCause) : Statement := fun graph =>
  .ok { graph with
    sessions := graph.sessions.update (·.id = id)
      fun row => { row with ended := true, endCause := cause } }

/-- `INSERT OR IGNORE INTO session_participants`. -/
def insertSessionParticipant (row : SessionParticipantRow) : Statement := fun graph => do
  requires (graph.sessionParticipants.contains row.key ||
    (graph.sessions.contains row.session && graph.memories.contains row.memory))
    .sessionParticipants
  return { graph with sessionParticipants := graph.sessionParticipants.insertOrIgnore row }

/-- `INSERT OR IGNORE INTO participant_identities`. -/
def insertParticipantIdentity (row : ParticipantIdentityRow) : Statement := fun graph => do
  requires (graph.participantIdentities.contains row.key || graph.memories.contains row.memory)
    .participantIdentities
  return { graph with participantIdentities := graph.participantIdentities.insertOrIgnore row }

/-- The conversations of a context memory. -/
def contextConversations (graph : Graph) (memory : MemoryId) : List ConversationId :=
  (graph.conversations.rows.filter (·.contextMemory = memory)).map (·.id)

/-- The sessions of a context memory's conversations. -/
def contextSessions (graph : Graph) (memory : MemoryId) : List SessionId :=
  (graph.sessions.rows.filter (·.conversation ∈ contextConversations graph memory)).map (·.id)

/-- `DELETE FROM session_participants` of the sessions of a context memory. -/
def deleteContextParticipants (memory : MemoryId) : Statement := fun graph =>
  .ok { graph with
    sessionParticipants :=
      graph.sessionParticipants.delete (·.session ∈ contextSessions graph memory) }

/-- `DELETE FROM sessions` of a context memory's conversations; the participants
cascade. -/
def deleteContextSessions (memory : MemoryId) : Statement := fun graph =>
  .ok { graph with
    sessions := graph.sessions.delete (·.conversation ∈ contextConversations graph memory)
    sessionParticipants :=
      graph.sessionParticipants.delete (·.session ∈ contextSessions graph memory) }

/-- `DELETE FROM conversations` of a context memory; the sessions and their
participants cascade. -/
def deleteContextConversations (memory : MemoryId) : Statement := fun graph =>
  .ok { graph with
    conversations := graph.conversations.delete (·.contextMemory = memory)
    sessions := graph.sessions.delete (·.conversation ∈ contextConversations graph memory)
    sessionParticipants :=
      graph.sessionParticipants.delete (·.session ∈ contextSessions graph memory) }

/-- The upsert of the head position in `meta`. -/
def setHead (seq : Nat) : Statement := fun graph => .ok { graph with head := seq }

/-! ### When a statement succeeds, and what it leaves -/

section Specifications

variable {graph after : Graph}

theorem requires_bind_ok {parent : Bool} {table : TableName} {rest : Except Violation Graph} :
    (requires parent table >>= fun _ => rest) = .ok after ↔ parent = true ∧ rest = .ok after := by
  cases parent <;> simp [requires, bind, Except.bind]

theorem inserted_bind_ok {ρ : Type} {result : Option ρ} {table : TableName}
    {rest : ρ → Except Violation Graph} :
    (inserted result table >>= rest) = .ok after ↔
      ∃ made, result = some made ∧ rest made = .ok after := by
  cases result <;> simp [inserted, bind, Except.bind]

theorem insertMemory_ok {row : MemoryRow} :
    insertMemory row graph = .ok after ↔
      ∃ memories, graph.memories.insert row = some memories ∧
        (∀ other ∈ graph.memories, other.name ≠ row.name) ∧
        memories.contains row.classId = true ∧
        after = { graph with memories := memories } := by
  simp only [insertMemory, inserted_bind_ok]
  refine exists_congr fun memories => and_congr_right fun _ => ?_
  by_cases taken : graph.memories.rows.any (·.name = row.name)
  · have clash : ¬∀ other ∈ graph.memories, other.name ≠ row.name := by
      simpa [Table.mem_def] using taken
    simp only [taken, if_true, clash, false_and]
    constructor
    · rintro ⟨⟩
    · exact False.elim
  · have free : ∀ other ∈ graph.memories, other.name ≠ row.name := by
      simpa [Table.mem_def] using taken
    simp only [taken, Bool.false_eq_true, if_false]
    change (requires _ _ >>= fun _ => _) = _ ↔ _
    rw [requires_bind_ok]
    simp only [pure, Except.pure, Except.ok.injEq, eq_comm (a := after)]
    exact ⟨fun checked => ⟨free, checked⟩, fun checked => checked.2⟩

theorem renameMemory_ok {id : MemoryId} {name : MemoryName} {seq : Nat} :
    renameMemory id name seq graph = .ok after ↔
      (graph.memories.contains id = true →
        ∀ other ∈ graph.memories, other.id ≠ id → other.name ≠ name) ∧
      after = { graph with
        memories := graph.memories.update (·.id = id)
          fun row => { row with name := name, lastContentSeq := seq } } := by
  unfold renameMemory
  split
  · rename_i clash
    have blocked : ¬(graph.memories.contains id = true →
        ∀ other ∈ graph.memories, other.id ≠ id → other.name ≠ name) := by
      simp only [Bool.and_eq_true, List.any_eq_true, decide_eq_true_eq] at clash
      obtain ⟨present, other, member, different, same⟩ := clash
      intro free
      exact free present other member different same
    simp only [blocked, false_and, iff_false]
    rintro ⟨⟩
  · rename_i free
    have unblocked : graph.memories.contains id = true →
        ∀ other ∈ graph.memories, other.id ≠ id → other.name ≠ name := by
      intro present other member different same
      apply free
      simp only [Bool.and_eq_true, List.any_eq_true, decide_eq_true_eq]
      exact ⟨present, other, member, different, same⟩
    constructor
    · rintro ⟨⟩
      exact ⟨unblocked, rfl⟩
    · rintro ⟨_, rfl⟩
      rfl

private theorem not_or_eq_true {first second : Bool} :
    (!first || second) = true ↔ (first = true → second = true) := by
  cases first <;> simp

theorem setClassId_ok {id classId : MemoryId} :
    setClassId id classId graph = .ok after ↔
      (graph.memories.contains id = true → graph.memories.contains classId = true) ∧
      after = { graph with
        memories := graph.memories.update (·.id = id)
          fun row => { row with classId := classId } } := by
  simp only [setClassId, requires_bind_ok, not_or_eq_true, pure, Except.pure, Except.ok.injEq]
  exact and_congr_right fun _ => eq_comm

theorem replaceAlias_ok {row : AliasRow} :
    replaceAlias row graph = .ok after ↔
      graph.memories.contains row.memoryId = true ∧
      after = { graph with aliases := graph.aliases.insertOrReplace row } := by
  simp only [replaceAlias, requires_bind_ok, pure, Except.pure, Except.ok.injEq]
  exact and_congr_right fun _ => eq_comm

theorem insertEntry_ok {row : EntryRow} :
    insertEntry row graph = .ok after ↔
      ∃ entries, graph.entries.insert row = some entries ∧
        graph.memories.contains row.memoryId = true ∧
        after = { graph with entries := entries } := by
  simp only [insertEntry, inserted_bind_ok, requires_bind_ok, pure, Except.pure, Except.ok.injEq]
  exact exists_congr fun _ => and_congr_right fun _ => and_congr_right fun _ => eq_comm

theorem supersedeEntry_ok {entry successor : EntryId} :
    supersedeEntry entry successor graph = .ok after ↔
      (graph.entries.contains entry = true → graph.entries.contains successor = true) ∧
      after = { graph with
        entries := graph.entries.update (·.entryId = entry)
          fun row => { row with supersededBy := some successor } } := by
  simp only [supersedeEntry, requires_bind_ok, not_or_eq_true, pure, Except.pure,
    Except.ok.injEq]
  exact and_congr_right fun _ => eq_comm

theorem insertAttestation_ok {row : AttestationRow} :
    insertAttestation row graph = .ok after ↔
      ∃ attestations, graph.attestations.insert row = some attestations ∧
        attestationParents graph row = true ∧
        after = { graph with attestations := attestations } := by
  simp only [insertAttestation, inserted_bind_ok, requires_bind_ok, pure, Except.pure,
    Except.ok.injEq]
  exact exists_congr fun _ => and_congr_right fun _ => and_congr_right fun _ => eq_comm

theorem upsertAttestation_ok {row : AttestationRow} :
    upsertAttestation row graph = .ok after ↔
      attestationParents graph row = true ∧
      after = { graph with
        attestations := graph.attestations.upsert row row.mergeFrom row.key_mergeFrom } := by
  simp only [upsertAttestation, requires_bind_ok, pure, Except.pure, Except.ok.injEq]
  exact and_congr_right fun _ => eq_comm

theorem replaceDispute_ok {row : DisputeRow} :
    replaceDispute row graph = .ok after ↔
      graph.memories.contains row.memoryId = true ∧ graph.entries.contains row.entryId = true ∧
      after = { graph with disputes := graph.disputes.insertOrReplace row } := by
  simp only [replaceDispute, requires_bind_ok, Bool.and_eq_true, and_assoc, pure, Except.pure,
    Except.ok.injEq]
  exact and_congr_right fun _ => and_congr_right fun _ => eq_comm

theorem insertTag_ok {row : TagRow} :
    insertTag row graph = .ok after ↔
      ∃ tags, graph.tags.insert row = some tags ∧ after = { graph with tags := tags } := by
  simp only [insertTag, inserted_bind_ok, pure, Except.pure, Except.ok.injEq]
  exact exists_congr fun _ => and_congr_right fun _ => eq_comm

theorem insertMemoryTag_ok {row : MemoryTagRow} :
    insertMemoryTag row graph = .ok after ↔
      (graph.memoryTags.contains row = true ∨
        graph.memories.contains row.memoryId = true ∧ graph.tags.contains row.tag = true) ∧
      after = { graph with memoryTags := graph.memoryTags.insertOrIgnore row } := by
  simp only [insertMemoryTag, requires_bind_ok, Bool.or_eq_true, Bool.and_eq_true, pure,
    Except.pure, Except.ok.injEq]
  exact and_congr_right fun _ => eq_comm

theorem upsertLink_ok {row : LinkRow} :
    upsertLink row graph = .ok after ↔
      (graph.links.contains row.key = true ∨
        (graph.memories.contains row.fromId = true ∧ graph.memories.contains row.toId = true) ∧
          graph.relations.contains row.relation = true) ∧
      after = { graph with
        links := graph.links.upsert row fun old =>
          { old with
            source := row.source
            toldBy := row.toldBy
            toldIn := row.toldIn
            visibility := row.visibility } } := by
  simp only [upsertLink, requires_bind_ok, Bool.or_eq_true, Bool.and_eq_true, pure, Except.pure,
    Except.ok.injEq]
  exact and_congr_right fun _ => eq_comm

theorem insertSession_ok {row : SessionRow} :
    insertSession row graph = .ok after ↔
      ∃ sessions, graph.sessions.insert row = some sessions ∧
        graph.conversations.contains row.conversation = true ∧
        after = { graph with sessions := sessions } := by
  simp only [insertSession, inserted_bind_ok, requires_bind_ok, pure, Except.pure,
    Except.ok.injEq]
  exact exists_congr fun _ => and_congr_right fun _ => and_congr_right fun _ => eq_comm

theorem insertSessionParticipant_ok {row : SessionParticipantRow} :
    insertSessionParticipant row graph = .ok after ↔
      (graph.sessionParticipants.contains row.key = true ∨
        graph.sessions.contains row.session = true ∧ graph.memories.contains row.memory = true) ∧
      after = { graph with
        sessionParticipants := graph.sessionParticipants.insertOrIgnore row } := by
  simp only [insertSessionParticipant, requires_bind_ok, Bool.or_eq_true, Bool.and_eq_true, pure,
    Except.pure, Except.ok.injEq]
  exact and_congr_right fun _ => eq_comm

theorem insertParticipantIdentity_ok {row : ParticipantIdentityRow} :
    insertParticipantIdentity row graph = .ok after ↔
      (graph.participantIdentities.contains row.key = true ∨
        graph.memories.contains row.memory = true) ∧
      after = { graph with
        participantIdentities := graph.participantIdentities.insertOrIgnore row } := by
  simp only [insertParticipantIdentity, requires_bind_ok, Bool.or_eq_true, pure, Except.pure,
    Except.ok.injEq]
  exact and_congr_right fun _ => eq_comm

/-- Whether a conversation's id or locator is taken. -/
def conversationTaken (graph : Graph) (row : ConversationRow) : Bool :=
  graph.conversations.contains row.id || graph.conversations.rows.any (·.locator = row.locator)

theorem insertConversation_ok {row : ConversationRow} :
    insertConversation row graph = .ok after ↔
      (conversationTaken graph row = true ∧ after = graph) ∨
      (conversationTaken graph row = false ∧
        graph.memories.contains row.contextMemory = true ∧
        after = { graph with conversations := graph.conversations.insertOrIgnore row }) := by
  unfold insertConversation
  change (if conversationTaken graph row = true then _ else _) = _ ↔ _
  cases taken : conversationTaken graph row with
  | true =>
    simp only [if_true, true_and, Bool.true_eq_false, false_and, or_false]
    exact ⟨fun same => by cases same; rfl, fun same => by rw [same]; rfl⟩
  | false =>
    simp only [Bool.false_eq_true, if_false, false_and, true_and, false_or]
    change (requires _ _ >>= fun _ => _) = _ ↔ _
    rw [requires_bind_ok]
    simp only [pure, Except.pure, Except.ok.injEq]
    exact and_congr_right fun _ => eq_comm

end Specifications

end Zuihitsu.Graph
