/-
# Stopping between two statements

An event is applied as statements that commit one by one, with the head written
last, so a process that stops in between leaves a graph that holds part of an
event and does not say so. Reopening it replays the whole event. The main result
says from which stops that comes out the same: from every stop of every event but
a plain insertion, the last statement of a rename, and a resolution that dates an
entry by its own memory.
-/

import Zuihitsu.Graph.Frame
import Zuihitsu.Graph.Reachable

namespace Zuihitsu.Graph

open Zuihitsu.Core Zuihitsu.Library Script

/-! ### Statements that are absorbed when issued again -/

section Absorbed

variable {graph before after : Graph}

theorem updateMemories_absorbed {matching : MemoryRow → Bool} {change : MemoryRow → MemoryRow}
    {keeps : ∀ row, (change row).id = row.id} :
    updateMemories matching change keeps graph = .ok graph ↔
      graph.memories.update matching change keeps = graph.memories := by
  constructor
  · intro absorbed
    exact congrArg Graph.memories (Except.ok.inj absorbed)
  · intro same
    rw [updateMemories, same]

theorem updateEntry_absorbed {entry : EntryId} {change : EntryRow → EntryRow}
    {keeps : ∀ row, (change row).entryId = row.entryId} :
    updateEntry entry change keeps graph = .ok graph ↔
      graph.entries.update (·.entryId = entry) change keeps = graph.entries := by
  constructor
  · intro absorbed
    exact congrArg Graph.entries (Except.ok.inj absorbed)
  · intro same
    rw [updateEntry, same]

theorem updateFts_absorbed {id : MemoryId} {change : FtsRow → FtsRow} :
    updateFts id change graph = .ok graph ↔
      (graph.fts.map fun row => if row.memoryId = id then change row else row) = graph.fts := by
  constructor
  · intro absorbed
    exact congrArg Graph.fts (Except.ok.inj absorbed)
  · intro same
    rw [updateFts, same]

theorem retractAttestations_absorbed {matching : AttestationRow → Bool} {reason : String} :
    retractAttestations matching reason graph = .ok graph ↔
      graph.attestations.update matching (fun row => { row with retractedReason := some reason }) =
        graph.attestations := by
  constructor
  · intro absorbed
    exact congrArg Graph.attestations (Except.ok.inj absorbed)
  · intro same
    rw [retractAttestations, same]

theorem updateMemories_absorbs {matching : MemoryRow → Bool} {change : MemoryRow → MemoryRow}
    {keeps : ∀ row, (change row).id = row.id} (idem : ∀ row, change (change row) = change row)
    (ran : updateMemories matching change keeps before = .ok after) :
    updateMemories matching change keeps after = .ok after := by
  cases ran
  exact updateMemories_absorbed.mpr (Table.update_idem fun row _ _ => idem row)

theorem updateEntry_absorbs {entry : EntryId} {change : EntryRow → EntryRow}
    {keeps : ∀ row, (change row).entryId = row.entryId}
    (idem : ∀ row, change (change row) = change row)
    (ran : updateEntry entry change keeps before = .ok after) :
    updateEntry entry change keeps after = .ok after := by
  cases ran
  exact updateEntry_absorbed.mpr (Table.update_idem fun row _ _ => idem row)

theorem updateFts_absorbs {id : MemoryId} {change : FtsRow → FtsRow}
    (keeps : ∀ row, (change row).memoryId = row.memoryId)
    (idem : ∀ row, change (change row) = change row)
    (ran : updateFts id change before = .ok after) : updateFts id change after = .ok after := by
  cases ran
  refine updateFts_absorbed.mpr ?_
  rw [List.map_map]
  apply List.map_congr_left
  intro row _
  by_cases here : row.memoryId = id
  · simp [here, keeps, idem]
  · simp [here]

theorem retractAttestations_absorbs {matching : AttestationRow → Bool} {reason : String}
    (ran : retractAttestations matching reason before = .ok after) :
    retractAttestations matching reason after = .ok after := by
  cases ran
  exact retractAttestations_absorbed.mpr (Table.update_idem fun row _ _ => rfl)

theorem supersedeEntry_absorbed {entry successor : EntryId} :
    supersedeEntry entry successor graph = .ok graph ↔
      (graph.entries.contains entry = true → graph.entries.contains successor = true) ∧
        ∀ row ∈ graph.entries, row.entryId = entry → row.supersededBy = some successor := by
  rw [supersedeEntry_ok]
  refine and_congr_right fun _ => ?_
  constructor
  · intro same row member here
    have table := congrArg Graph.entries same
    dsimp only at table
    rw [table] at member
    obtain ⟨old, _, rfl⟩ := Table.mem_update.mp member
    by_cases was : old.entryId = entry
    · simp [was]
    · rw [if_neg (by simpa using was)] at here
      exact absurd here was
  · intro settled
    have same : graph.entries.update (·.entryId = entry)
        (fun row => { row with supersededBy := some successor }) = graph.entries := by
      refine Table.update_eq_self fun row member here => ?_
      rw [← settled row member (by simpa using here)]
    rw [same]

theorem supersedeEntry_keeps {entry other successor : EntryId}
    (ran : supersedeEntry other successor before = .ok after)
    (settled : supersedeEntry entry successor before = .ok before) :
    supersedeEntry entry successor after = .ok after := by
  obtain ⟨_, rfl⟩ := supersedeEntry_ok.mp ran
  obtain ⟨parent, pointed⟩ := supersedeEntry_absorbed.mp settled
  refine supersedeEntry_absorbed.mpr ⟨?_, ?_⟩
  · simpa only [Table.contains_update] using parent
  · intro row member here
    dsimp only at member
    obtain ⟨old, oldMem, rfl⟩ := Table.mem_update.mp member
    by_cases was : old.entryId = other
    · simp [was]
    · simp only [was, decide_false, Bool.false_eq_true, if_false] at here ⊢
      exact pointed old oldMem here

theorem supersedeEntry_absorbs {entry successor : EntryId}
    (ran : supersedeEntry entry successor before = .ok after) :
    supersedeEntry entry successor after = .ok after := by
  obtain ⟨parent, rfl⟩ := supersedeEntry_ok.mp ran
  refine supersedeEntry_absorbed.mpr ⟨?_, ?_⟩
  · simpa only [Table.contains_update] using parent
  · intro row member here
    dsimp only at member
    obtain ⟨old, _, rfl⟩ := Table.mem_update.mp member
    by_cases was : old.entryId = entry
    · simp [was]
    · rw [if_neg (by simpa using was)] at here
      exact absurd here was

theorem setClassId_absorbed {id classId : MemoryId} :
    setClassId id classId graph = .ok graph ↔
      (graph.memories.contains id = true → graph.memories.contains classId = true) ∧
        ∀ row ∈ graph.memories, row.id = id → row.classId = classId := by
  rw [setClassId_ok]
  refine and_congr_right fun _ => ?_
  constructor
  · intro same row member here
    have table := congrArg Graph.memories same
    dsimp only at table
    rw [table] at member
    obtain ⟨old, _, rfl⟩ := Table.mem_update.mp member
    by_cases was : old.id = id
    · simp [was]
    · rw [if_neg (by simpa using was)] at here
      exact absurd here was
  · intro settled
    have same : graph.memories.update (·.id = id)
        (fun row => { row with classId := classId }) = graph.memories := by
      refine Table.update_eq_self fun row member here => ?_
      rw [← settled row member (by simpa using here)]
    rw [same]

theorem setClassId_keeps (assign : MemoryId → MemoryId) {id other : MemoryId}
    (ran : setClassId other (assign other) before = .ok after)
    (settled : setClassId id (assign id) before = .ok before) :
    setClassId id (assign id) after = .ok after := by
  obtain ⟨_, rfl⟩ := setClassId_ok.mp ran
  obtain ⟨parent, assigned⟩ := setClassId_absorbed.mp settled
  refine setClassId_absorbed.mpr ⟨?_, ?_⟩
  · simpa only [Table.contains_update] using parent
  · intro row member here
    dsimp only at member
    obtain ⟨old, oldMem, rfl⟩ := Table.mem_update.mp member
    by_cases was : old.id = other
    · simp only [was, decide_true, if_true] at here ⊢
      rw [← here]
    · simp only [was, decide_false, Bool.false_eq_true, if_false] at here ⊢
      exact assigned old oldMem here

theorem setClassId_absorbs {id classId : MemoryId}
    (ran : setClassId id classId before = .ok after) : setClassId id classId after = .ok after := by
  obtain ⟨parent, rfl⟩ := setClassId_ok.mp ran
  refine setClassId_absorbed.mpr ⟨?_, ?_⟩
  · simpa only [Table.contains_update] using parent
  · intro row member here
    dsimp only at member
    obtain ⟨old, _, rfl⟩ := Table.mem_update.mp member
    by_cases was : old.id = id
    · simp [was]
    · rw [if_neg (by simpa using was)] at here
      exact absurd here was

theorem setClassId_reads {id classId : MemoryId} (ran : setClassId id classId before = .ok after) :
    recomputeMembers after = recomputeMembers before ∧ sameAsEdges after = sameAsEdges before := by
  obtain ⟨_, rfl⟩ := setClassId_ok.mp ran
  refine ⟨?_, rfl⟩
  simp only [recomputeMembers, Table.rows_update, List.map_map]
  apply List.map_congr_left
  intro row _
  by_cases here : row.id = id
  · simp [here]
  · simp [here]

theorem upsertAttestation_absorbs {row : AttestationRow} (live : row.retractedReason = none)
    (ran : upsertAttestation row before = .ok after) : upsertAttestation row after = .ok after := by
  obtain ⟨parents, rfl⟩ := upsertAttestation_ok.mp ran
  refine upsertAttestation_ok.mpr ⟨parents, ?_⟩
  dsimp only
  rw [Table.upsert_idem]
  · obtain ⟨entryId, teller, toldIn, assertedAt, posture, phrasing, sourceEntry, reason, seq⟩ := row
    cases live
    rfl
  · exact fun other => rfl

theorem upsertRelation_absorbs {row : RelationRow} (ran : upsertRelation row before = .ok after) :
    upsertRelation row after = .ok after := by
  cases ran
  simp only [upsertRelation]
  rw [Table.upsert_idem]
  · rfl
  · exact fun _ => rfl

theorem upsertLink_absorbs {row : LinkRow} (ran : upsertLink row before = .ok after) :
    upsertLink row after = .ok after := by
  obtain ⟨parents, rfl⟩ := upsertLink_ok.mp ran
  refine upsertLink_ok.mpr ⟨.inl Table.contains_upsert, ?_⟩
  dsimp only
  rw [Table.upsert_idem]
  · rfl
  · exact fun _ => rfl

theorem deleteLink_absorbs {key : MemoryId × MemoryId × RelationName}
    (ran : deleteLink key before = .ok after) : deleteLink key after = .ok after := by
  cases ran
  simp only [deleteLink, Table.delete_idem]

theorem updateTag_absorbs {name : TagName} {description : String}
    (ran : updateTag name description before = .ok after) :
    updateTag name description after = .ok after := by
  cases ran
  simp only [updateTag]
  rw [Table.update_idem]
  exact fun _ _ _ => rfl

theorem insertMemoryTag_absorbs {row : MemoryTagRow}
    (ran : insertMemoryTag row before = .ok after) :
    insertMemoryTag row after = .ok after := by
  obtain ⟨_, rfl⟩ := insertMemoryTag_ok.mp ran
  refine insertMemoryTag_ok.mpr ⟨.inl (Table.contains_insertOrIgnore _ row), ?_⟩
  dsimp only
  rw [Table.insertOrIgnore_idem]

theorem deleteMemoryTag_absorbs {row : MemoryTagRow}
    (ran : deleteMemoryTag row before = .ok after) :
    deleteMemoryTag row after = .ok after := by
  cases ran
  simp only [deleteMemoryTag, Table.delete_idem]

theorem insertConversation_absorbs {row : ConversationRow}
    (ran : insertConversation row before = .ok after) :
    insertConversation row after = .ok after := by
  refine insertConversation_ok.mpr (.inl ⟨?_, rfl⟩)
  rcases insertConversation_ok.mp ran with ⟨taken, rfl⟩ | ⟨_, _, rfl⟩
  · exact taken
  · simp [conversationTaken, Table.contains_insertOrIgnore]

theorem endConversation_absorbs {id : ConversationId}
    (ran : endConversation id before = .ok after) :
    endConversation id after = .ok after := by
  cases ran
  simp only [endConversation]
  rw [Table.update_idem]
  exact fun _ _ _ => rfl

theorem endSession_absorbs {id : SessionId} {cause : Option SessionEndCause}
    (ran : endSession id cause before = .ok after) : endSession id cause after = .ok after := by
  cases ran
  simp only [endSession]
  rw [Table.update_idem]
  exact fun _ _ _ => rfl

theorem insertSessionParticipant_absorbs {row : SessionParticipantRow}
    (ran : insertSessionParticipant row before = .ok after) :
    insertSessionParticipant row after = .ok after := by
  obtain ⟨_, rfl⟩ := insertSessionParticipant_ok.mp ran
  refine insertSessionParticipant_ok.mpr ⟨.inl (Table.contains_insertOrIgnore _ row), ?_⟩
  dsimp only
  rw [Table.insertOrIgnore_idem]

theorem insertParticipantIdentity_absorbs {row : ParticipantIdentityRow}
    (ran : insertParticipantIdentity row before = .ok after) :
    insertParticipantIdentity row after = .ok after := by
  obtain ⟨_, rfl⟩ := insertParticipantIdentity_ok.mp ran
  refine insertParticipantIdentity_ok.mpr ⟨.inl (Table.contains_insertOrIgnore _ row), ?_⟩
  dsimp only
  rw [Table.insertOrIgnore_idem]

theorem deleteContextParticipants_absorbed {memory : MemoryId}
    (gone : ∀ row ∈ graph.sessionParticipants, row.session ∉ contextSessions graph memory) :
    deleteContextParticipants memory graph = .ok graph := by
  have same : graph.sessionParticipants.delete (·.session ∈ contextSessions graph memory) =
      graph.sessionParticipants :=
    Table.delete_eq_self fun row member => decide_eq_false (gone row member)
  rw [deleteContextParticipants, same]

theorem contextSessions_eq_nil {memory : MemoryId}
    (gone : ∀ row ∈ graph.sessions, row.conversation ∉ contextConversations graph memory) :
    contextSessions graph memory = [] := by
  have empty : (graph.sessions.rows.filter fun row =>
      decide (row.conversation ∈ contextConversations graph memory)) = [] := by
    rw [List.filter_eq_nil_iff]
    intro row member
    simpa using gone row member
  rw [contextSessions, empty]
  rfl

theorem deleteContextSessions_absorbed {memory : MemoryId}
    (gone : ∀ row ∈ graph.sessions, row.conversation ∉ contextConversations graph memory) :
    deleteContextSessions memory graph = .ok graph := by
  have sessions : graph.sessions.delete (·.conversation ∈ contextConversations graph memory) =
      graph.sessions :=
    Table.delete_eq_self fun row member => decide_eq_false (gone row member)
  have participants : graph.sessionParticipants.delete
      (·.session ∈ contextSessions graph memory) = graph.sessionParticipants := by
    refine Table.delete_eq_self fun row _ => ?_
    simp [contextSessions_eq_nil gone]
  rw [deleteContextSessions, sessions, participants]

theorem contextConversations_eq_nil {memory : MemoryId}
    (gone : ∀ row ∈ graph.conversations, row.contextMemory ≠ memory) :
    contextConversations graph memory = [] := by
  have empty : (graph.conversations.rows.filter fun row => decide (row.contextMemory = memory)) =
      [] := by
    rw [List.filter_eq_nil_iff]
    intro row member
    simpa using gone row member
  rw [contextConversations, empty]
  rfl

theorem deleteContextConversations_absorbed {memory : MemoryId}
    (gone : ∀ row ∈ graph.conversations, row.contextMemory ≠ memory) :
    deleteContextConversations memory graph = .ok graph := by
  have none := contextConversations_eq_nil gone
  have sessionless : contextSessions graph memory = [] :=
    contextSessions_eq_nil fun row _ => by simp [none]
  have conversations : graph.conversations.delete (·.contextMemory = memory) =
      graph.conversations :=
    Table.delete_eq_self fun row member => decide_eq_false (gone row member)
  have sessions : graph.sessions.delete (·.conversation ∈ contextConversations graph memory) =
      graph.sessions :=
    Table.delete_eq_self fun row _ => by simp [none]
  have participants : graph.sessionParticipants.delete
      (·.session ∈ contextSessions graph memory) = graph.sessionParticipants :=
    Table.delete_eq_self fun row _ => by simp [sessionless]
  rw [deleteContextConversations, conversations, sessions, participants]

theorem conversations_of_deleted {memory : MemoryId}
    (ran : deleteContextConversations memory before = .ok after) :
    ∀ row ∈ after.conversations, row.contextMemory ≠ memory := by
  cases ran
  intro row member
  exact of_decide_eq_false (Table.mem_delete.mp member).2

theorem sessions_of_deleted {memory : MemoryId}
    (ran : deleteContextSessions memory before = .ok after) :
    ∀ row ∈ after.sessions, row.conversation ∉ contextConversations after memory := by
  cases ran
  intro row member
  exact of_decide_eq_false (Table.mem_delete.mp member).2

theorem participants_of_deleted {memory : MemoryId}
    (ran : deleteContextParticipants memory before = .ok after) :
    ∀ row ∈ after.sessionParticipants, row.session ∉ contextSessions after memory := by
  cases ran
  intro row member
  exact of_decide_eq_false (Table.mem_delete.mp member).2

end Absorbed

/-! ### Arms that settle -/

section Arms

theorem updateMemories_stays {changed : List TableName} {matching : MemoryRow → Bool}
    {change : MemoryRow → MemoryRow} {keeps : ∀ row, (change row).id = row.id}
    (absent : .memories ∉ changed) (before after : Graph) (frame : Frame changed before after)
    (absorbed : updateMemories matching change keeps before = .ok before) :
    updateMemories matching change keeps after = .ok after := by
  rw [updateMemories_absorbed, frame.memories absent]
  exact updateMemories_absorbed.mp absorbed

theorem updateEntry_stays {changed : List TableName} {entry : EntryId}
    {change : EntryRow → EntryRow} {keeps : ∀ row, (change row).entryId = row.entryId}
    (absent : .entries ∉ changed) (before after : Graph) (frame : Frame changed before after)
    (absorbed : updateEntry entry change keeps before = .ok before) :
    updateEntry entry change keeps after = .ok after := by
  rw [updateEntry_absorbed, frame.entries absent]
  exact updateEntry_absorbed.mp absorbed

theorem retractAttestations_stays {changed : List TableName} {matching : AttestationRow → Bool}
    {reason : String} (absent : .attestations ∉ changed) (before after : Graph)
    (frame : Frame changed before after)
    (absorbed : retractAttestations matching reason before = .ok before) :
    retractAttestations matching reason after = .ok after := by
  rw [retractAttestations_absorbed, frame.attestations absent]
  exact retractAttestations_absorbed.mp absorbed

theorem recomputeClasses_settles : recomputeClasses.Settles := by
  intro graph
  constructor
  · refine Relates.forEach fun item _ before after ran => ?_
    obtain ⟨members, edges⟩ := setClassId_reads ran
    simp only [members, edges]
  · refine Settles.forEach (fun item _ before after ran => setClassId_absorbs ran) ?_
    intro item _ other _ before after ran settled
    exact setClassId_keeps (primaryOf (recomputeMembers graph) (classRoot (sameAsEdges graph)))
      ran settled

theorem recomputeIfSameAs_settles (relation : RelationName) :
    (recomputeIfSameAs relation).Settles := by
  unfold recomputeIfSameAs
  split
  · exact recomputeClasses_settles
  · trivial

theorem canonicalEdge_congr {before after : Graph} (same : after.relations = before.relations) :
    canonicalEdge after = canonicalEdge before := by
  funext fromId toId relation
  simp only [canonicalEdge, same]

theorem updateMemories_stays_under_setClassId {matching : MemoryRow → Bool}
    {change : MemoryRow → MemoryRow} {keeps : ∀ row, (change row).id = row.id}
    (steady : ∀ row classId, matching { row with classId } = matching row ∧
      (change row = row → change { row with classId } = { row with classId }))
    {id classId : MemoryId} {before after : Graph} (ran : setClassId id classId before = .ok after)
    (absorbed : updateMemories matching change keeps before = .ok before) :
    updateMemories matching change keeps after = .ok after := by
  obtain ⟨_, rfl⟩ := setClassId_ok.mp ran
  have fixed := Table.update_eq_self_iff.mp (updateMemories_absorbed.mp absorbed)
  refine updateMemories_absorbed.mpr (Table.update_eq_self fun row member matches' => ?_)
  dsimp only at member
  obtain ⟨old, oldMem, rfl⟩ := Table.mem_update.mp member
  by_cases here : decide (old.id = id) = true
  · rw [if_pos here] at matches' ⊢
    exact (steady old classId).2 (fixed old oldMem ((steady old classId).1 ▸ matches'))
  · rw [if_neg here] at matches' ⊢
    exact fixed old oldMem matches'

theorem recomputeClasses_relates {relation : Graph → Graph → Prop}
    (each : ∀ id classId before after, setClassId id classId before = .ok after →
      relation before after) : recomputeClasses.Relates relation :=
  fun _ => Relates.forEach fun _ _ => each _ _

theorem recomputeIfSameAs_relates {relation : Graph → Graph → Prop} (label : RelationName)
    (each : ∀ id classId before after, setClassId id classId before = .ok after →
      relation before after) : (recomputeIfSameAs label).Relates relation := by
  unfold recomputeIfSameAs
  split
  · exact recomputeClasses_relates each
  · trivial

/-- The events that insert a row under a key of their own, and fail when they
insert it again. -/
def insertsOnce : EventPayload → Bool
  | .memoryCreated .. | .memoryContentAppended .. | .tagCreated .. | .sessionStarted .. => true
  | _ => false

/-- The events whose statements are not all absorbed for a reason of their own. -/
def settlesPlainly : EventPayload → Bool
  | .memoryRenamed .. | .entryTemporalResolved .. | .beliefArbitrated .. => false
  | payload => !insertsOnce payload

theorem project_settles {event : Event} (plain : settlesPlainly event.payload = true) :
    (project event).Settles := by
  unfold project
  cases payload : event.payload <;> simp only [payload, settlesPlainly, insertsOnce, Bool.not_true,
    Bool.false_eq_true] at plain
  case genesisCompleted =>
    exact .statement fun _ _ ran => updateMemories_absorbs (fun _ => rfl) ran
  case describePassCompleted memories =>
    refine .forEach (fun _ _ _ _ ran => updateMemories_absorbs (fun _ => rfl) ran) ?_
    rintro item _ other _ before _ ⟨⟩ settled
    have fixed := Table.update_eq_self_iff.mp (updateMemories_absorbed.mp settled)
    refine updateMemories_absorbed.mpr (Table.update_eq_self fun row member matches' => ?_)
    dsimp only at member
    obtain ⟨old, oldMem, rfl⟩ := Table.mem_update.mp member
    by_cases here : old.id = other
    · simp [here]
    · simp only [here, decide_false, Bool.false_eq_true, if_false] at matches' ⊢
      exact fixed old oldMem matches'
  case memoryDeleted id =>
    refine ⟨fun _ _ ran => updateMemories_absorbs (fun _ => rfl) ran, ?_, ?_, ?_, ?_, ?_, ?_⟩
    · refine ⟨?_, ?_, ?_, trivial⟩
      · exact fun before after ran => updateMemories_stays (by decide) before after
          (deleteContextParticipants_writes _ before after ran)
      · exact fun before after ran => updateMemories_stays (by decide) before after
          (deleteContextSessions_writes _ before after ran)
      · exact fun before after ran => updateMemories_stays (by decide) before after
          (deleteContextConversations_writes _ before after ran)
    · exact fun _ _ ran => deleteContextParticipants_absorbed (participants_of_deleted ran)
    · refine ⟨fun before after ran _ => ?_, fun before after ran _ => ?_, trivial⟩
      · refine deleteContextParticipants_absorbed fun row _ => ?_
        simp [contextSessions_eq_nil (sessions_of_deleted ran)]
      · refine deleteContextParticipants_absorbed fun row _ => ?_
        have none := contextConversations_eq_nil (conversations_of_deleted ran)
        have sessionless : contextSessions after id = [] :=
          contextSessions_eq_nil fun row _ => by simp [none]
        simp [sessionless]
    · exact fun _ _ ran => deleteContextSessions_absorbed (sessions_of_deleted ran)
    · refine ⟨fun before after ran _ => ?_, trivial⟩
      have none := contextConversations_eq_nil (conversations_of_deleted ran)
      exact deleteContextSessions_absorbed fun row _ => by simp [none]
    · exact .statement fun _ _ ran =>
        deleteContextConversations_absorbed (conversations_of_deleted ran)
  case memorySuperseded id entry successor =>
    exact .statement fun _ _ ran => supersedeEntry_absorbs ran
  case entriesConsolidated id sources replacement producedBy =>
    exact .forEach (fun _ _ _ _ ran => supersedeEntry_absorbs ran)
      fun _ _ _ _ _ _ ran settled => supersedeEntry_keeps ran settled
  case entryRetracted memory entry reason producedBy =>
    refine ⟨fun _ _ ran => updateEntry_absorbs (fun _ => rfl) ran, ?_, ?_⟩
    · exact ⟨fun before after ran => updateEntry_stays (by decide) before after
        (retractAttestations_writes _ _ before after ran), trivial⟩
    · exact .statement fun _ _ ran => retractAttestations_absorbs ran
  case entryAttested memory entry teller toldIn assertedAt posture phrasing sourceEntry producedBy =>
    exact .statement fun _ _ ran => upsertAttestation_absorbs rfl ran
  case attestationRetracted memory entry teller reason producedBy =>
    refine ⟨fun _ _ ran => retractAttestations_absorbs ran, ?_, fun graph => ?_⟩
    · intro graph
      dsimp only
      split
      · trivial
      · exact ⟨fun before after ran => retractAttestations_stays (by decide) before after
          (tombstoneEntry_writes _ _ before after ran), trivial⟩
    · dsimp only
      split
      · exact ⟨trivial, trivial⟩
      · refine ⟨⟨?_, trivial⟩, .statement fun _ _ ran => updateEntry_absorbs (fun _ => rfl) ran⟩
        rintro before _ ⟨⟩
        rfl
  case entryDescriptionMirrored id entry =>
    exact .statement fun _ _ ran => updateEntry_absorbs (fun _ => rfl) ran
  case scheduledJobFired entry memory firedAt =>
    exact .statement fun _ _ ran => updateEntry_absorbs (fun _ => rfl) ran
  case scheduledItemSurfaced entry memory session surfacedAt =>
    exact .statement fun _ _ ran => updateEntry_absorbs (fun _ => rfl) ran
  case memoryDescriptionRegenerated id newText producedBy =>
    refine ⟨fun _ _ ran => updateMemories_absorbs (fun _ => rfl) ran, ?_, ?_⟩
    · exact ⟨fun before after ran => updateMemories_stays (by decide) before after
        (updateFts_writes _ _ before after ran), trivial⟩
    · exact .statement fun _ _ ran => updateFts_absorbs (fun _ => rfl) (fun _ => rfl) ran
  case memoryVolatilitySet id volatility =>
    exact .statement fun _ _ ran => updateMemories_absorbs (fun _ => rfl) ran
  case classPrimaryDesignated memory designated =>
    refine ⟨fun _ _ ran => updateMemories_absorbs (fun _ => rfl) ran, ?_, recomputeClasses_settles⟩
    refine recomputeClasses_relates fun _ _ _ _ ran absorbed => ?_
    refine updateMemories_stays_under_setClassId (fun row classId => ⟨rfl, fun fixed => ?_⟩) ran
      absorbed
    have flag := congrArg MemoryRow.designatedPrimary fixed
    dsimp only at flag
    simp only [flag]
  case tagDescriptionChanged name newDescription =>
    exact .statement fun _ _ ran => updateTag_absorbs ran
  case tagAppliedToMemory memory tag => exact .statement fun _ _ ran => insertMemoryTag_absorbs ran
  case tagRemovedFromMemory memory tag => exact .statement fun _ _ ran => deleteMemoryTag_absorbs ran
  case linkTypeRegistered name inverse fromCard toCard symmetric reflexive description =>
    exact .statement fun _ _ ran => upsertRelation_absorbs ran
  case linkCreated fromId toId relation source toldBy toldIn visibility =>
    intro graph
    dsimp only
    refine ⟨⟨?_, ?_⟩, fun _ _ ran => upsertLink_absorbs ran, ?_, recomputeIfSameAs_settles _⟩
    · intro before after ran
      have same := (upsertLink_writes _ before after ran).relations (by decide)
      simp only [canonicalEdge_congr same]
    · refine recomputeIfSameAs_relates _ fun id classId before after ran => ?_
      have same := (setClassId_writes id classId before after ran).relations (by decide)
      simp only [canonicalEdge_congr same]
    · refine recomputeIfSameAs_relates _ fun id classId before after ran absorbed => ?_
      obtain ⟨_, rfl⟩ := setClassId_ok.mp ran
      obtain ⟨parents, same⟩ := upsertLink_ok.mp absorbed
      refine upsertLink_ok.mpr ⟨by simpa only [Table.contains_update] using parents, ?_⟩
      have links := congrArg Graph.links same
      dsimp only at links ⊢
      rw [← links]
  case linkRemoved fromId toId relation =>
    intro graph
    dsimp only
    refine ⟨⟨?_, ?_⟩, fun _ _ ran => deleteLink_absorbs ran, ?_, recomputeIfSameAs_settles _⟩
    · intro before after ran
      have same := (deleteLink_writes _ before after ran).relations (by decide)
      simp only [canonicalEdge_congr same]
    · refine recomputeIfSameAs_relates _ fun id classId before after ran => ?_
      have same := (setClassId_writes id classId before after ran).relations (by decide)
      simp only [canonicalEdge_congr same]
    · refine recomputeIfSameAs_relates _ fun id classId before after ran absorbed => ?_
      obtain ⟨_, rfl⟩ := setClassId_ok.mp ran
      have links := congrArg Graph.links (Except.ok.inj absorbed)
      simp only [deleteLink] at links ⊢
      rw [links]
  case conversationStarted id locator contextMemory =>
    exact .statement fun _ _ ran => insertConversation_absorbs ran
  case conversationEnded id => exact .statement fun _ _ ran => endConversation_absorbs ran
  case sessionEnded conversation id cause => exact .statement fun _ _ ran => endSession_absorbs ran
  case participantJoined conversation session participant atTurn =>
    exact .statement fun _ _ ran => insertSessionParticipant_absorbs ran
  case participantIdentified memory platform platformUserId =>
    exact .statement fun _ _ ran => insertParticipantIdentity_absorbs ran
  all_goals trivial

end Arms

/-! ### Arms that resume for a reason of their own -/

section Own

variable {graph result stopped : Graph} {event : Event} {count : Nat}

theorem run_replaceDisputes {memory : MemoryId} {statement : String} {entries : List EntryId} :
    (Script.forEach entries fun entry => replaceDispute ⟨entry, memory, statement⟩).run graph =
        .ok result ↔
      (∀ entry ∈ entries,
        graph.memories.contains memory = true ∧ graph.entries.contains entry = true) ∧
      result = { graph with
        disputes := (entries.map fun entry => ⟨entry, memory, statement⟩).foldl
          Table.insertOrReplace graph.disputes } := by
  induction entries generalizing graph with
  | nil =>
    rw [Script.run_forEach_nil]
    constructor
    · rintro ⟨⟩
      exact ⟨fun entry member => absurd member List.not_mem_nil, rfl⟩
    · rintro ⟨_, rfl⟩
      rfl
  | cons entry rest ih =>
    rw [Script.run_forEach_cons_ok]
    constructor
    · rintro ⟨middle, first, remaining⟩
      obtain ⟨known, listed, rfl⟩ := replaceDispute_ok.mp first
      obtain ⟨parents, rfl⟩ := ih.mp remaining
      refine ⟨fun other member => ?_, rfl⟩
      rcases List.mem_cons.mp member with rfl | later
      · exact ⟨known, listed⟩
      · exact parents other later
    · rintro ⟨parents, rfl⟩
      refine ⟨_, replaceDispute_ok.mpr ⟨(parents entry List.mem_cons_self).1,
        (parents entry List.mem_cons_self).2, rfl⟩, ih.mpr ⟨?_, rfl⟩⟩
      exact fun other member => parents other (List.mem_cons_of_mem _ member)

theorem beliefArbitrated_resumes {memory : MemoryId} {competing : List EntryId}
    {resolution : ArbitrationResolution} {producedBy : Option ProducedBy}
    (payload : event.payload = .beliefArbitrated memory competing resolution producedBy)
    (ran : (project event).run graph = .ok result)
    (stops : (project event).stopAfter count graph = .ok stopped) :
    (project event).run stopped = .ok result := by
  cases count with
  | zero =>
    rw [Script.stopAfter_zero] at stops
    cases stops
    exact ran
  | succ count =>
    simp only [project, payload] at ran stops ⊢
    obtain ⟨cleared, first, rest⟩ := Script.run_exec_ok.mp ran
    obtain ⟨again, second, part⟩ := Script.stopAfter_succ_exec_ok.mp stops
    rw [first] at second
    cases second
    cases first
    rw [Script.run_exec_ok]
    refine ⟨_, rfl, ?_⟩
    split at rest
    · rename_i none
      rw [if_pos none] at part ⊢
      rw [Script.stopAfter_forEach] at part
      obtain ⟨_, rfl⟩ := run_replaceDisputes.mp part
      obtain ⟨parents, rfl⟩ := run_replaceDisputes.mp rest
      refine run_replaceDisputes.mpr ⟨parents, ?_⟩
      -- the deletion takes out whatever was marked before the stop
      have owned : ∀ row ∈ competing.map
          fun entry => (⟨entry, memory, resolution.statement⟩ : DisputeRow),
          decide (row.memoryId = memory) = true := by simp
      have resumed := Table.replaceAll_resumes owned count graph.disputes
      rw [← List.map_take] at resumed
      simp only [resumed]
    · rename_i some
      rw [if_neg some] at part ⊢
      rw [Script.stopAfter_done] at part
      cases part
      cases rest
      simp only [Script.run_done, Table.delete_idem]

theorem memoryRenamed_resumes {id : MemoryId} {oldName newName : MemoryName}
    (payload : event.payload = .memoryRenamed id oldName newName) (early : count ≤ 3) :
    (project event).ResumesFrom count graph := by
  let first : Script Graph Violation :=
    .exec (renameMemory id newName event.seq) <|
    .exec (updateFts id fun row => { row with name := newName }) <|
    .statement (replaceAlias ⟨oldName, id⟩)
  have settles : first.Settles := by
    -- each statement absorbs itself, and the later ones leave the earlier absorbed
    refine ⟨?_, ⟨?_, ?_, trivial⟩, ?_, ⟨?_, trivial⟩, .statement ?_⟩
    · intro before after ran
      obtain ⟨free, rfl⟩ := renameMemory_ok.mp ran
      refine renameMemory_ok.mpr ⟨?_, ?_⟩
      · intro present other member different same
        dsimp only at member present
        rw [Table.contains_update] at present
        obtain ⟨old, oldMem, rfl⟩ := Table.mem_update.mp member
        by_cases here : old.id = id
        · simp [here] at different
        · simp only [here, decide_false, Bool.false_eq_true, if_false] at different same
          exact free present old oldMem different same
      · dsimp only
        rw [Table.update_idem]
        exact fun _ _ _ => rfl
    · rintro before _ ⟨⟩ absorbed
      obtain ⟨free, same⟩ := renameMemory_ok.mp absorbed
      refine renameMemory_ok.mpr ⟨free, ?_⟩
      have memories := congrArg Graph.memories same
      dsimp only at memories ⊢
      rw [← memories]
    · intro before after ran absorbed
      obtain ⟨_, rfl⟩ := replaceAlias_ok.mp ran
      obtain ⟨free, same⟩ := renameMemory_ok.mp absorbed
      refine renameMemory_ok.mpr ⟨free, ?_⟩
      have memories := congrArg Graph.memories same
      dsimp only at memories ⊢
      rw [← memories]
    · exact fun _ _ ran => updateFts_absorbs (fun _ => rfl) (fun _ => rfl) ran
    · intro before after ran absorbed
      rw [updateFts_absorbed, (replaceAlias_writes _ before after ran).fts (by decide)]
      exact updateFts_absorbed.mp absorbed
    · intro before after ran
      obtain ⟨known, rfl⟩ := replaceAlias_ok.mp ran
      refine replaceAlias_ok.mpr ⟨known, ?_⟩
      dsimp only
      rw [Table.insertOrReplace_idem]
  have whole : project event =
      first.andThen (.statement (updateFts id (FtsRow.addContent oldName.text))) := by
    simp only [project, payload]
    rfl
  rw [whole]
  refine (settles.resumesFrom count graph).andThen ?_
  -- the last statement is still to run after any of these stops
  rcases (by omega : count = 0 ∨ count = 1 ∨ count = 2 ∨ count = 3) with rfl | rfl | rfl | rfl
  · simp only [Script.stopAfter_zero]
  · rfl
  · rfl
  · rfl

/-- The graph once a resolution has given an entry its columns. -/
def redated (graph : Graph) (entry : EntryId) (columns : OccurrenceColumns) : Graph :=
  { graph with
    entries := graph.entries.update (·.entryId = entry)
      fun row => { row with occurrence := columns, occurredAuthored := false } }

/-- Dating an entry by a reference changes what the reference resolves to: the
reference is anchored to a memory whose earliest timed entry this makes another. -/
def MovesOwnAnchor (graph : Graph) (entry : EntryId) (occurredAt : Option TemporalRef) : Prop :=
  occurrenceColumns (redated graph entry (occurrenceColumns graph occurredAt)) occurredAt ≠
    occurrenceColumns graph occurredAt

theorem redated_idem (entry : EntryId) (columns : OccurrenceColumns) :
    redated (redated graph entry columns) entry columns = redated graph entry columns := by
  unfold redated
  dsimp only
  rw [Table.update_idem]
  exact fun _ _ _ => rfl

theorem entryTemporalWithdrawn_settles {id : MemoryId} {entry : EntryId}
    {producedBy : Option ProducedBy}
    (payload : event.payload = .entryTemporalResolved id entry none producedBy) :
    (project event).Settles := by
  simp only [project, payload]
  intro graph
  refine ⟨⟨fun _ _ _ => rfl, ⟨fun _ _ _ => rfl, trivial⟩⟩,
    fun _ _ ran => updateEntry_absorbs (fun _ => rfl) ran, ⟨?_, trivial⟩,
    .statement fun _ _ ran => updateEntry_absorbs (fun _ => rfl) ran⟩
  rintro before _ ⟨⟩ absorbed
  have fixed := Table.update_eq_self_iff.mp (updateEntry_absorbed.mp absorbed)
  refine updateEntry_absorbed.mpr (Table.update_eq_self fun row member here => ?_)
  dsimp only at member
  obtain ⟨old, oldMem, rfl⟩ := Table.mem_update.mp member
  by_cases was : decide (old.entryId = entry) = true
  · rw [if_pos was]
    have same := fixed old oldMem was
    have columns := congrArg EntryRow.occurrence same
    have authored := congrArg EntryRow.occurredAuthored same
    dsimp only at columns authored ⊢
    rw [← columns, ← authored]
  · rw [if_neg was] at here ⊢
    exact absurd here was

theorem entryTemporalResolved_resumes_iff {id : MemoryId} {entry : EntryId}
    {reference : TemporalRef} {producedBy : Option ProducedBy}
    (payload : event.payload = .entryTemporalResolved id entry (some reference) producedBy) :
    (project event).ResumesFrom (count + 1) graph ↔
      ¬MovesOwnAnchor graph entry (some reference) := by
  have runs : ∀ state, (project event).run state =
      .ok (redated state entry (occurrenceColumns state (some reference))) := by
    intro state
    simp only [project, payload]
    rfl
  have stops : (project event).stopAfter (count + 1) graph =
      .ok (redated graph entry (occurrenceColumns graph (some reference))) := by
    simp only [project, payload, Script.stopAfter_read]
    exact Script.stopAfter_succ_exec_ok.mpr ⟨_, rfl, Script.stopAfter_done _ _⟩
  constructor
  · intro resumes moves
    have again := resumes _ stops
    rw [runs, runs] at again
    have same := congrArg Graph.entries (Except.ok.inj again)
    refine moves ?_
    -- an entry there is has its columns written twice, one there is not has none
    cases stored : graph.entries.find entry with
    | none =>
      have untouched : ∀ columns, redated graph entry columns = graph := by
        intro columns
        unfold redated
        rw [Table.update_eq_self fun row member here =>
          absurd (of_decide_eq_true here) (Table.find_eq_none_iff.mp stored row member)]
      rw [untouched]
    | some =>
      have found := congrArg (fun table => (Table.find table entry).map EntryRow.occurrence) same
      obtain ⟨_, owner⟩ := Table.find_eq_some_iff.mp stored
      simpa [redated, Table.find_update, stored, owner] using found
  · intro still stopped stopsAt
    rw [stops] at stopsAt
    cases stopsAt
    rw [runs, runs, not_not.mp still, redated_idem]

end Own

/-! ### Arms that do not resume -/

section Stuck

variable {graph result stopped : Graph} {event : Event} {count : Nat}

theorem insertMemory_taken {row : MemoryRow} (taken : graph.memories.contains row.id = true) :
    insertMemory row graph = .error (.primaryKey .memories) := by
  simp [insertMemory, Table.insert_eq_none_iff.mpr taken, inserted, bind, Except.bind]

theorem insertEntry_taken {row : EntryRow} (taken : graph.entries.contains row.entryId = true) :
    insertEntry row graph = .error (.primaryKey .entries) := by
  simp [insertEntry, Table.insert_eq_none_iff.mpr taken, inserted, bind, Except.bind]

theorem insertTag_taken {row : TagRow} (taken : graph.tags.contains row.name = true) :
    insertTag row graph = .error (.primaryKey .tags) := by
  simp [insertTag, Table.insert_eq_none_iff.mpr taken, inserted, bind, Except.bind]

theorem insertSession_taken {row : SessionRow} (taken : graph.sessions.contains row.id = true) :
    insertSession row graph = .error (.primaryKey .sessions) := by
  simp [insertSession, Table.insert_eq_none_iff.mpr taken, inserted, bind, Except.bind]

theorem contains_of_insert {ρ κ : Type} [DecidableEq κ] {key : ρ → κ} {table after : Table key}
    {row : ρ} (inserted : table.insert row = some after) : after.contains (key row) = true :=
  Table.contains_of_mem ((Table.mem_insert inserted).mpr (.inr rfl))

theorem run_stopped_of_insertsOnce (inserts : insertsOnce event.payload = true)
    (stops : (project event).stopAfter (count + 1) graph = .ok stopped) :
    ∃ violation, (project event).run stopped = .error violation := by
  cases payload : event.payload <;> simp only [payload, insertsOnce, Bool.false_eq_true] at inserts
  case memoryCreated id name =>
    simp only [project, payload] at stops ⊢
    obtain ⟨after, first, rest⟩ := Script.stopAfter_succ_exec_ok.mp stops
    obtain ⟨memories, made, _, _, rfl⟩ := insertMemory_ok.mp first
    have frame := Relates.stopAfter
      (ScriptWrites.statement (insertFts_writes _) (fun _ member => member)) rest (Frame.refl _)
      (fun _ _ _ => Frame.trans)
    refine ⟨.primaryKey .memories, ?_⟩
    rw [Script.run_exec, insertMemory_taken]
    · rfl
    · rw [frame.memories (by decide)]
      exact contains_of_insert made
  case memoryContentAppended id entryId assertedAt occurredAt text toldBy toldIn visibility =>
    simp only [project, payload, Script.stopAfter_read, Script.run_read] at stops ⊢
    obtain ⟨after, first, rest⟩ := Script.stopAfter_succ_exec_ok.mp stops
    obtain ⟨entries, made, _, rfl⟩ := insertEntry_ok.mp first
    have writes : ScriptWrites [.attestations, .memories, .fts]
        (.exec (insertAttestation
          { entryId, teller := toldBy, toldIn, assertedAt, posture := visibility,
            seq := event.seq }) <|
        .exec (updateMemories (·.id = id) fun row => { row with lastContentSeq := event.seq }) <|
        if visibility = .public then .statement (updateFts id (FtsRow.addContent text))
        else .done) := by
      refine ScriptWrites.exec (insertAttestation_writes _)
        (ScriptWrites.exec (updateMemories_writes _ _ _) ?_ (by simp)) (by simp)
      split
      · exact ScriptWrites.statement (updateFts_writes _ _) (by simp)
      · trivial
    have frame := Relates.stopAfter writes rest (Frame.refl _) (fun _ _ _ => Frame.trans)
    have present := contains_of_insert made
    refine ⟨.primaryKey .entries, ?_⟩
    rw [Script.run_exec, insertEntry_taken]
    · rfl
    · rw [frame.entries (by decide)]
      exact present
  case tagCreated name description =>
    simp only [project, payload] at stops ⊢
    obtain ⟨after, first, rest⟩ := Script.stopAfter_succ_exec_ok.mp stops
    obtain ⟨tags, made, rfl⟩ := insertTag_ok.mp first
    rw [Script.stopAfter_done] at rest
    cases rest
    exact ⟨.primaryKey .tags, by
      rw [Script.run_statement, insertTag_taken (contains_of_insert made)]⟩
  case sessionStarted conversation id participants startedAt seededFromTurn brief =>
    simp only [project, payload] at stops ⊢
    obtain ⟨after, first, rest⟩ := Script.stopAfter_succ_exec_ok.mp stops
    obtain ⟨sessions, made, _, rfl⟩ := insertSession_ok.mp first
    have frame := Relates.stopAfter
      (ScriptWrites.forEach (fun participant => insertSessionParticipant_writes _)
        (fun _ member => member)) rest (Frame.refl _) (fun _ _ _ => Frame.trans)
    refine ⟨.primaryKey .sessions, ?_⟩
    rw [Script.run_exec, insertSession_taken]
    · rfl
    · rw [frame.sessions (by decide)]
      exact contains_of_insert made

/-- Every memory has its row in the lexical index. -/
def Indexed (graph : Graph) : Prop :=
  ∀ memory ∈ graph.memories, ∃ row ∈ graph.fts, row.memoryId = memory.id

/-- The memories of the first index are in the second. -/
def KeepsIndex (before after : Graph) : Prop :=
  ∀ row ∈ before.fts, ∃ kept ∈ after.fts, kept.memoryId = row.memoryId

theorem KeepsIndex.of_eq {before after : Graph} (same : after.fts = before.fts) :
    KeepsIndex before after := by
  intro row member
  exact ⟨row, same ▸ member, rfl⟩

theorem KeepsIndex.trans {one two three : Graph} (first : KeepsIndex one two)
    (second : KeepsIndex two three) : KeepsIndex one three := by
  intro row member
  obtain ⟨kept, keptMem, same⟩ := first row member
  obtain ⟨last, lastMem, again⟩ := second kept keptMem
  exact ⟨last, lastMem, again.trans same⟩

theorem updateFts_keepsIndex {id : MemoryId} {change : FtsRow → FtsRow}
    (keeps : ∀ row, (change row).memoryId = row.memoryId) (before after : Graph)
    (ran : updateFts id change before = .ok after) : KeepsIndex before after := by
  cases ran
  intro row member
  refine ⟨_, List.mem_map_of_mem member, ?_⟩
  split
  · exact keeps row
  · rfl

theorem project_keepsIndex (ran : (project event).run graph = .ok result) :
    KeepsIndex graph result := by
  by_cases writes : TableName.fts ∈ footprint event.payload
  · have steps : (project event).Relates KeepsIndex := by
      unfold project
      cases payload : event.payload <;> simp [payload, footprint] at writes
      case memoryCreated id name =>
        refine ⟨fun before after ran => .of_eq ((insertMemory_writes _ before after ran).fts
          (by decide)), ?_, trivial⟩
        rintro before _ ⟨⟩ row member
        exact ⟨row, List.mem_append_left _ member, rfl⟩
      case memoryRenamed id oldName newName =>
        exact ⟨fun before after ran => .of_eq ((renameMemory_writes _ _ _ before after ran).fts
            (by decide)),
          updateFts_keepsIndex fun _ => rfl,
          fun before after ran => .of_eq ((replaceAlias_writes _ before after ran).fts (by decide)),
          updateFts_keepsIndex fun _ => rfl, trivial⟩
      case memoryContentAppended id entryId assertedAt occurredAt text toldBy toldIn visibility =>
        intro graph
        refine ⟨fun before after ran => .of_eq ((insertEntry_writes _ before after ran).fts
            (by decide)),
          fun before after ran => .of_eq ((insertAttestation_writes _ before after ran).fts
            (by decide)),
          fun before after ran => .of_eq ((updateMemories_writes _ _ _ before after ran).fts
            (by decide)), ?_⟩
        split
        · exact ⟨updateFts_keepsIndex fun _ => rfl, trivial⟩
        · trivial
      case memoryDescriptionRegenerated id newText producedBy =>
        exact ⟨fun before after ran => .of_eq ((updateMemories_writes _ _ _ before after ran).fts
          (by decide)), updateFts_keepsIndex fun _ => rfl, trivial⟩
    exact steps.run (fun _ => .of_eq rfl) (fun _ _ _ => .trans) ran
  · exact .of_eq ((project_frame ran).fts writes)

theorem Indexed.apply {before after : Graph} (indexed : Indexed before)
    (applied : apply event before = .ok after) : Indexed after := by
  intro memory member
  obtain ⟨projected, ran, rfl⟩ := apply_ok.mp applied
  rcases (mem_memories_apply applied).mp member with ⟨old, oldMem, rfl⟩ | created
  · obtain ⟨row, rowMem, same⟩ := indexed old oldMem
    obtain ⟨kept, keptMem, again⟩ := project_keepsIndex ran row rowMem
    exact ⟨kept, keptMem, by rw [memoryChange_id, again, same]⟩
  · cases payload : event.payload <;> simp only [createdMemory, payload, reduceCtorEq] at created
    simp only [project, payload] at ran
    obtain ⟨middle, _, last⟩ := Script.run_exec_ok.mp ran
    cases last
    cases created
    exact ⟨_, List.mem_append_right _ List.mem_cons_self, rfl⟩

theorem Reachable.indexed (reachable : Reachable graph) : Indexed graph := by
  induction reachable with
  | fresh =>
    intro memory member
    cases member
  | apply _ _ applied ih => exact ih.apply applied

theorem run_memoryRenamed {id : MemoryId} {oldName newName : MemoryName}
    (payload : event.payload = .memoryRenamed id oldName newName)
    (ran : (project event).run graph = .ok result) :
    graph.memories.contains id = true ∧
      result.fts = graph.fts.map fun row =>
        if row.memoryId = id then FtsRow.addContent oldName.text { row with name := newName }
        else row := by
  simp only [project, payload, Script.run_exec_ok, Script.run_statement] at ran
  obtain ⟨renamed, first, named, second, aliased, third, last⟩ := ran
  obtain ⟨_, rfl⟩ := renameMemory_ok.mp first
  cases second
  obtain ⟨known, rfl⟩ := replaceAlias_ok.mp third
  cases last
  refine ⟨?_, ?_⟩
  · simpa only [Table.contains_update] using known
  · simp only [List.map_map]
    apply List.map_congr_left
    intro row _
    by_cases here : row.memoryId = id
    · simp [here]
    · simp [here]

theorem run_stopped_of_renamed {id : MemoryId} {oldName newName : MemoryName}
    (indexed : Indexed graph) (payload : event.payload = .memoryRenamed id oldName newName)
    (ran : (project event).run graph = .ok result) :
    (project event).run result ≠ .ok result := by
  intro again
  obtain ⟨known, _⟩ := run_memoryRenamed payload ran
  obtain ⟨memory, memoryMem, rfl⟩ := Table.contains_iff.mp known
  obtain ⟨row, rowMem, owner⟩ := indexed memory memoryMem
  obtain ⟨kept, keptMem, same⟩ := project_keepsIndex ran row rowMem
  have twice := (run_memoryRenamed payload again).2
  have mapped : (result.fts.map fun row =>
      if row.memoryId = memory.id then FtsRow.addContent oldName.text { row with name := newName }
      else row) = result.fts.map id := by
    rw [List.map_id]
    exact twice.symm
  have fixed := List.map_inj_left.mp mapped kept keptMem
  rw [if_pos (same.trans owner)] at fixed
  -- the folded text is longer each time
  have longer := congrArg (fun row => row.content.length) fixed
  have space : " ".length = 1 := rfl
  simp only [FtsRow.addContent, String.length_append, id_eq] at longer
  omega

theorem stopAfter_memoryRenamed {id : MemoryId} {oldName newName : MemoryName}
    (payload : event.payload = .memoryRenamed id oldName newName) (late : 4 ≤ count) :
    (project event).stopAfter count graph = (project event).run graph := by
  obtain ⟨more, rfl⟩ := Nat.exists_eq_add_of_le' late
  simp only [project, payload, Script.statement, Script.stopAfter, Script.run]

end Stuck

/-! ### Reopening a stopped graph -/

section Reopening

variable {graph result stopped : Graph} {event : Event} {stop : Nat}

/-- A stop after which replaying the event from its first statement is harmless. -/
def Replayable (event : Event) (graph : Graph) (stop : Nat) : Prop :=
  stop = 0 ∨
    match event.payload with
    | .memoryRenamed .. => stop ≤ 3
    | .entryTemporalResolved _ entry occurredAt _ => ¬MovesOwnAnchor graph entry occurredAt
    | payload => insertsOnce payload = false

theorem run_stopped_iff (indexed : Indexed graph) (ran : (project event).run graph = .ok result)
    (stops : (project event).stopAfter stop graph = .ok stopped) :
    (project event).run stopped = .ok result ↔ Replayable event graph stop := by
  cases stop with
  | zero =>
    rw [Script.stopAfter_zero] at stops
    cases stops
    exact iff_of_true ran (.inl rfl)
  | succ stop =>
    have decided : Replayable event graph (stop + 1) ↔
        match event.payload with
        | .memoryRenamed .. => stop + 1 ≤ 3
        | .entryTemporalResolved _ entry occurredAt _ => ¬MovesOwnAnchor graph entry occurredAt
        | payload => insertsOnce payload = false := by
      simp only [Replayable, Nat.succ_ne_zero, false_or]
    rw [decided]
    cases inserts : insertsOnce event.payload with
    -- a plain insertion is refused the second time
    | true =>
      have refused : ¬(project event).run stopped = .ok result := by
        obtain ⟨violation, failed⟩ := run_stopped_of_insertsOnce inserts stops
        rw [failed]
        rintro ⟨⟩
      refine iff_of_false refused ?_
      cases payload : event.payload <;> simp_all [insertsOnce]
    | false =>
      cases plain : settlesPlainly event.payload with
      | true =>
        refine iff_of_true ((project_settles plain).resumesFrom _ _ _ stops |>.trans ran) ?_
        cases payload : event.payload <;> simp_all [insertsOnce, settlesPlainly]
      | false =>
        cases payload : event.payload <;>
          simp only [payload, settlesPlainly, insertsOnce, Bool.not_false, Bool.not_true,
            Bool.true_eq_false] at plain inserts
        case memoryRenamed id oldName newName =>
          dsimp only
          constructor
          · intro again
            -- past its last statement nothing is left, and the replay starts over
            by_contra late
            rw [stopAfter_memoryRenamed payload (by omega), ran] at stops
            cases stops
            exact run_stopped_of_renamed indexed payload ran again
          · intro early
            exact (memoryRenamed_resumes payload early stopped stops).trans ran
        case entryTemporalResolved id entry occurredAt producedBy =>
          dsimp only
          cases occurredAt with
          | none =>
            refine iff_of_true
              (((entryTemporalWithdrawn_settles payload).resumesFrom _ _ _ stops).trans ran) ?_
            exact not_not.mpr rfl
          | some reference =>
            have whether : (project event).ResumesFrom (stop + 1) graph ↔
                ¬MovesOwnAnchor graph entry (some reference) :=
              entryTemporalResolved_resumes_iff payload
            rw [← whether]
            constructor
            · intro again other otherStops
              rw [stops] at otherStops
              cases otherStops
              rw [again, ran]
            · intro resumes
              exact (resumes stopped stops).trans ran
        case beliefArbitrated memory competing resolution producedBy =>
          exact iff_of_true (beliefArbitrated_resumes payload ran stops) rfl

/-- Consecutive positions, from after a position. -/
def Numbered : Nat → List Event → Prop
  | _, [] => True
  | after, event :: rest => event.seq = after + 1 ∧ Numbered event.seq rest

theorem numbered_append {after : Nat} {first second : List Event} :
    Numbered after (first ++ second) ↔
      Numbered after first ∧ Numbered (after + first.length) second := by
  induction first generalizing after with
  | nil => simp [Numbered]
  | cons event rest ih =>
    simp only [List.cons_append, Numbered, ih, and_assoc]
    refine and_congr_right fun here => and_congr_right fun _ => ?_
    rw [here, List.length_cons, Nat.add_assoc, Nat.add_comm 1]

theorem numbered_bounds {after : Nat} {log : List Event} (numbered : Numbered after log) :
    ∀ event ∈ log, after < event.seq ∧ event.seq ≤ after + log.length := by
  induction log generalizing after with
  | nil => simp
  | cons first rest ih =>
    obtain ⟨here, later⟩ := numbered
    intro event member
    rw [List.length_cons]
    rcases List.mem_cons.mp member with rfl | more
    · omega
    · have bounds := ih later event more
      omega

theorem numbered_take {after : Nat} {log : List Event} (numbered : Numbered after log)
    (position : Nat) : Numbered after (log.take position) := by
  rw [← List.take_append_drop position log] at numbered
  exact (numbered_append.mp numbered).1

theorem numbered_stamp (position : Nat) (recordedAt : Timestamp) (source : EventSource)
    (payloads : List EventPayload) : Numbered position (stamp position recordedAt source payloads) := by
  induction payloads generalizing position with
  | nil => trivial
  | cons payload rest ih => exact ⟨rfl, ih (position + 1)⟩

theorem numbered_log_stamp {log : List Event} (numbered : Numbered 0 log) (recordedAt : Timestamp)
    (source : EventSource) (payloads : List EventPayload) :
    Numbered 0 (log ++ stamp log.length recordedAt source payloads) := by
  refine numbered_append.mpr ⟨numbered, ?_⟩
  rw [Nat.zero_add]
  exact numbered_stamp _ _ _ _

theorem filter_upTo {after : Nat} {log : List Event} (numbered : Numbered after log)
    (position : Nat) :
    log.filter (fun event => event.seq ≤ after + position) = log.take position := by
  induction log generalizing after position with
  | nil => simp
  | cons first rest ih =>
    have here := numbered.1
    cases position with
    | zero =>
      rw [List.take_zero, List.filter_eq_nil_iff]
      intro event member
      have bounds := (numbered_bounds numbered event member).1
      simp only [decide_eq_true_eq]
      omega
    | succ position =>
      have shifted : after + (position + 1) = first.seq + position := by omega
      rw [List.take_succ_cons, ← ih numbered.2 position,
        List.filter_cons_of_pos (by simp only [decide_eq_true_eq]; omega), shifted]

theorem foldLog_reachable {log : List Event} {base after : Graph} (reachable : Reachable base)
    (numbered : Numbered base.head log) (folded : foldLog apply log base = .ok after) :
    Reachable after ∧ after.head = base.head + log.length := by
  induction log generalizing base with
  | nil =>
    cases folded
    exact ⟨reachable, rfl⟩
  | cons event rest ih =>
    obtain ⟨middle, applied, remaining⟩ := foldLog_cons_ok.mp folded
    have head := head_of_apply applied
    obtain ⟨reached, last⟩ :=
      ih (reachable.apply numbered.1 applied) (by rw [head]; exact numbered.2) remaining
    refine ⟨reached, ?_⟩
    rw [last, head, numbered.1, List.length_cons]
    omega

theorem materializeFrom_of_head {behind pending : List Event} {base : Graph}
    (numbered : Numbered 0 (behind ++ pending)) (level : base.head = behind.length) :
    materializeFrom (behind ++ pending) base = foldLog apply pending base := by
  have ⟨earlier, later⟩ := numbered_append.mp numbered
  -- the events behind the head are skipped
  have skipped : behind.filter (fun event => decide (base.head < event.seq)) = [] := by
    rw [List.filter_eq_nil_iff]
    intro event member
    have bound := (numbered_bounds earlier event member).2
    simp only [decide_eq_true_eq]
    omega
  have kept : pending.filter (fun event => decide (base.head < event.seq)) = pending := by
    rw [List.filter_eq_self]
    intro event member
    have bound := (numbered_bounds later event member).1
    simp only [decide_eq_true_eq]
    omega
  rw [materializeFrom, List.filter_append, skipped, kept, List.nil_append]

theorem materializeFrom_of_folded {behind pending : List Event} {base : Graph}
    (numbered : Numbered 0 (behind ++ pending))
    (folded : foldLog apply behind Graph.fresh = .ok base) :
    materializeFrom (behind ++ pending) base =
      foldLog apply (behind ++ pending) Graph.fresh := by
  have earlier := (numbered_append.mp numbered).1
  have level := (foldLog_reachable Reachable.fresh earlier folded).2
  have fresh : Graph.fresh.head = 0 := rfl
  rw [fresh, Nat.zero_add] at level
  rw [materializeFrom_of_head numbered level, foldLog_append, folded]
  rfl

theorem head_of_stopAfter (stops : (project event).stopAfter stop graph = .ok stopped) :
    stopped.head = graph.head :=
  ((project_writes event).stopAfter stops (Frame.refl _) (fun _ _ _ => Frame.trans)).head

theorem apply_stopped_iff (ran : (project event).run graph = .ok result)
    (stops : (project event).stopAfter stop graph = .ok stopped) :
    apply event stopped = apply event graph ↔ (project event).run stopped = .ok result := by
  rw [apply_eq, apply_eq, ran]
  constructor
  · intro same
    cases again : (project event).run stopped with
    | error =>
      rw [again] at same
      cases same
    | ok projected =>
      rw [again] at same
      -- the head is not one of the statements of the event
      have heads : projected.head = result.head := by
        rw [(project_frame again).head, head_of_stopAfter stops, (project_frame ran).head]
      have tables := Except.ok.inj same
      cases projected
      cases result
      simp_all
  · intro again
    rw [again]

end Reopening

/-- Where a process stops between the statements of an event, reopening the graph
and materializing the rest of the log ends where the uninterrupted fold of the log
ends, however the log goes on, if and only if the stop is replayable. -/
theorem materializes_iff_replayable :
    ∀ (history : List Event) (event : Event) (graph after stopped : Graph) (stop : Nat),
      Numbered 0 (history ++ [event]) → foldLog apply history Graph.fresh = .ok graph →
      apply event graph = .ok after → (project event).stopAfter stop graph = .ok stopped →
      ((∀ rest, Numbered event.seq rest →
          materializeFrom (history ++ event :: rest) stopped =
            foldLog apply (history ++ event :: rest) Graph.fresh) ↔
        Replayable event graph stop) := by
  intro history event graph after stopped stop numbered folded applied stops
  obtain ⟨result, ran, rfl⟩ := apply_ok.mp applied
  obtain ⟨earlier, next⟩ := numbered_append.mp numbered
  obtain ⟨reachable, head⟩ := foldLog_reachable Reachable.fresh earlier folded
  have stoppedHead : stopped.head = history.length := by
    rw [head_of_stopAfter stops, head]
    exact Nat.zero_add _
  have replayed : ∀ rest, Numbered event.seq rest →
      materializeFrom (history ++ event :: rest) stopped =
        foldLog apply (event :: rest) stopped := by
    intro rest later
    -- the events behind the head are skipped, the stopped one is not among them
    have ordered : Numbered history.length (event :: rest) := ⟨by simpa using next.1, later⟩
    have whole := numbered_append.mpr ⟨earlier, by rwa [Nat.zero_add]⟩
    exact materializeFrom_of_head whole stoppedHead
  have whole : ∀ rest, foldLog apply (history ++ event :: rest) Graph.fresh =
      foldLog apply (event :: rest) graph := by
    intro rest
    rw [foldLog_append, folded]
    rfl
  rw [← run_stopped_iff reachable.indexed ran stops, ← apply_stopped_iff ran stops]
  constructor
  · intro same
    -- the log that ends at the event decides it already
    have here := same [] trivial
    rw [replayed [] trivial, whole, foldLog_cons, foldLog_cons, applied] at here
    rw [applied]
    cases again : apply event stopped with
    | error =>
      rw [again] at here
      cases here
    | ok =>
      rw [again] at here
      exact here
  · intro same rest later
    rw [replayed rest later, whole, foldLog_cons_congr same]

/-! The first memory of a log, stopped before its lexical row is inserted. -/

/-- The creation of the memory. -/
def creation : Event := ⟨1, ⟨0⟩, .agent, .memoryCreated ⟨1⟩ ⟨"topic/launch"⟩⟩

/-- The graph a stop between the two insertions leaves. -/
def halfCreated : Graph :=
  (((project creation).stopAfter 1 Graph.fresh).toOption).getD Graph.fresh

/-- The graph both insertions leave. -/
def fullyCreated : Graph := ((apply creation Graph.fresh).toOption).getD Graph.fresh

/-- Reopened, the half-created memory breaks its own primary key. -/
theorem halfCreated_stuck :
    Numbered 0 [creation] ∧ (project creation).stopAfter 1 Graph.fresh = .ok halfCreated ∧
      foldLog apply [creation] Graph.fresh = .ok fullyCreated ∧
      materializeFrom [creation] halfCreated = .error (.primaryKey .memories) := by
  refine ⟨⟨rfl, trivial⟩, rfl, rfl, rfl⟩

/-- The half-created memory, as the general result decides it. -/
theorem materializes_iff_replayable_creation :
    (∀ rest, Numbered 1 rest →
        materializeFrom (creation :: rest) halfCreated =
          foldLog apply (creation :: rest) Graph.fresh) ↔
      Replayable creation Graph.fresh 1 :=
  materializes_iff_replayable [] creation Graph.fresh fullyCreated halfCreated 1 ⟨rfl, trivial⟩ rfl rfl
    rfl

end Zuihitsu.Graph
