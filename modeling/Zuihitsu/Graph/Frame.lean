/-
# What each event leaves alone

The tables an event's arm may write, and that it writes no other. The rest of
the development reads an arm's effect off one table at a time and gets the other
tables from here.
-/

import Zuihitsu.Graph.Apply

namespace Zuihitsu.Graph

open Zuihitsu.Core Zuihitsu.Library

/-- Only the listed tables may differ. -/
structure Frame (changed : List TableName) (before after : Graph) : Prop where
  memories : .memories ∉ changed → after.memories = before.memories
  entries : .entries ∉ changed → after.entries = before.entries
  attestations : .attestations ∉ changed → after.attestations = before.attestations
  disputes : .disputes ∉ changed → after.disputes = before.disputes
  tags : .tags ∉ changed → after.tags = before.tags
  memoryTags : .memoryTags ∉ changed → after.memoryTags = before.memoryTags
  relations : .relations ∉ changed → after.relations = before.relations
  links : .links ∉ changed → after.links = before.links
  aliases : .aliases ∉ changed → after.aliases = before.aliases
  conversations : .conversations ∉ changed → after.conversations = before.conversations
  sessions : .sessions ∉ changed → after.sessions = before.sessions
  sessionParticipants :
    .sessionParticipants ∉ changed → after.sessionParticipants = before.sessionParticipants
  participantIdentities :
    .participantIdentities ∉ changed →
      after.participantIdentities = before.participantIdentities
  fts : .fts ∉ changed → after.fts = before.fts
  head : after.head = before.head

namespace Frame

variable {changed more : List TableName} {first second third : Graph}

theorem refl (changed : List TableName) (graph : Graph) : Frame changed graph graph := by
  constructor <;> intros <;> rfl

theorem trans (one : Frame changed first second) (two : Frame changed second third) :
    Frame changed first third where
  memories absent := (two.memories absent).trans (one.memories absent)
  entries absent := (two.entries absent).trans (one.entries absent)
  attestations absent := (two.attestations absent).trans (one.attestations absent)
  disputes absent := (two.disputes absent).trans (one.disputes absent)
  tags absent := (two.tags absent).trans (one.tags absent)
  memoryTags absent := (two.memoryTags absent).trans (one.memoryTags absent)
  relations absent := (two.relations absent).trans (one.relations absent)
  links absent := (two.links absent).trans (one.links absent)
  aliases absent := (two.aliases absent).trans (one.aliases absent)
  conversations absent := (two.conversations absent).trans (one.conversations absent)
  sessions absent := (two.sessions absent).trans (one.sessions absent)
  sessionParticipants absent :=
    (two.sessionParticipants absent).trans (one.sessionParticipants absent)
  participantIdentities absent :=
    (two.participantIdentities absent).trans (one.participantIdentities absent)
  fts absent := (two.fts absent).trans (one.fts absent)
  head := two.head.trans one.head

theorem mono (sub : ∀ table ∈ changed, table ∈ more) (frame : Frame changed first second) :
    Frame more first second where
  memories absent := frame.memories fun present => absent (sub _ present)
  entries absent := frame.entries fun present => absent (sub _ present)
  attestations absent := frame.attestations fun present => absent (sub _ present)
  disputes absent := frame.disputes fun present => absent (sub _ present)
  tags absent := frame.tags fun present => absent (sub _ present)
  memoryTags absent := frame.memoryTags fun present => absent (sub _ present)
  relations absent := frame.relations fun present => absent (sub _ present)
  links absent := frame.links fun present => absent (sub _ present)
  aliases absent := frame.aliases fun present => absent (sub _ present)
  conversations absent := frame.conversations fun present => absent (sub _ present)
  sessions absent := frame.sessions fun present => absent (sub _ present)
  sessionParticipants absent := frame.sessionParticipants fun present => absent (sub _ present)
  participantIdentities absent :=
    frame.participantIdentities fun present => absent (sub _ present)
  fts absent := frame.fts fun present => absent (sub _ present)
  head := frame.head

end Frame

/-- A statement writes only the listed tables. -/
def Writes (changed : List TableName) (statement : Statement) : Prop :=
  ∀ before after, statement before = .ok after → Frame changed before after

theorem Writes.mono {changed more : List TableName} {statement : Statement}
    (writes : Writes changed statement) (sub : ∀ table ∈ changed, table ∈ more) :
    Writes more statement :=
  fun before after ran => (writes before after ran).mono sub

section Statements

theorem insertMemory_writes (row : MemoryRow) : Writes [.memories] (insertMemory row) := by
  intro before after ran
  obtain ⟨memories, _, _, _, rfl⟩ := insertMemory_ok.mp ran
  constructor <;> intros <;> first | rfl | simp_all

theorem updateMemories_writes (matching : MemoryRow → Bool) (change : MemoryRow → MemoryRow)
    (keeps : ∀ row, (change row).id = row.id) :
    Writes [.memories] (updateMemories matching change keeps) := by
  rintro before _ ⟨⟩
  constructor <;> intros <;> first | rfl | simp_all

theorem renameMemory_writes (id : MemoryId) (name : MemoryName) (seq : Nat) :
    Writes [.memories] (renameMemory id name seq) := by
  intro before after ran
  obtain ⟨_, rfl⟩ := renameMemory_ok.mp ran
  constructor <;> intros <;> first | rfl | simp_all

theorem setClassId_writes (id classId : MemoryId) : Writes [.memories] (setClassId id classId) := by
  intro before after ran
  obtain ⟨_, rfl⟩ := setClassId_ok.mp ran
  constructor <;> intros <;> first | rfl | simp_all

theorem insertFts_writes (row : FtsRow) : Writes [.fts] (insertFts row) := by
  rintro before _ ⟨⟩
  constructor <;> intros <;> first | rfl | simp_all

theorem updateFts_writes (id : MemoryId) (change : FtsRow → FtsRow) :
    Writes [.fts] (updateFts id change) := by
  rintro before _ ⟨⟩
  constructor <;> intros <;> first | rfl | simp_all

theorem replaceAlias_writes (row : AliasRow) : Writes [.aliases] (replaceAlias row) := by
  intro before after ran
  obtain ⟨_, rfl⟩ := replaceAlias_ok.mp ran
  constructor <;> intros <;> first | rfl | simp_all

theorem insertEntry_writes (row : EntryRow) : Writes [.entries] (insertEntry row) := by
  intro before after ran
  obtain ⟨entries, _, _, rfl⟩ := insertEntry_ok.mp ran
  constructor <;> intros <;> first | rfl | simp_all

theorem updateEntry_writes (entry : EntryId) (change : EntryRow → EntryRow)
    (keeps : ∀ row, (change row).entryId = row.entryId) :
    Writes [.entries] (updateEntry entry change keeps) := by
  rintro before _ ⟨⟩
  constructor <;> intros <;> first | rfl | simp_all

theorem supersedeEntry_writes (entry successor : EntryId) :
    Writes [.entries] (supersedeEntry entry successor) := by
  intro before after ran
  obtain ⟨_, rfl⟩ := supersedeEntry_ok.mp ran
  constructor <;> intros <;> first | rfl | simp_all

theorem tombstoneEntry_writes (entry : EntryId) (reason : String) :
    Writes [.entries] (tombstoneEntry entry reason) := updateEntry_writes _ _ _

theorem insertAttestation_writes (row : AttestationRow) :
    Writes [.attestations] (insertAttestation row) := by
  intro before after ran
  obtain ⟨attestations, _, _, rfl⟩ := insertAttestation_ok.mp ran
  constructor <;> intros <;> first | rfl | simp_all

theorem upsertAttestation_writes (row : AttestationRow) :
    Writes [.attestations] (upsertAttestation row) := by
  intro before after ran
  obtain ⟨_, rfl⟩ := upsertAttestation_ok.mp ran
  constructor <;> intros <;> first | rfl | simp_all

theorem retractAttestations_writes (matching : AttestationRow → Bool) (reason : String) :
    Writes [.attestations] (retractAttestations matching reason) := by
  rintro before _ ⟨⟩
  constructor <;> intros <;> first | rfl | simp_all

theorem deleteDisputes_writes (memory : MemoryId) :
    Writes [.disputes] (deleteDisputes memory) := by
  rintro before _ ⟨⟩
  constructor <;> intros <;> first | rfl | simp_all

theorem replaceDispute_writes (row : DisputeRow) : Writes [.disputes] (replaceDispute row) := by
  intro before after ran
  obtain ⟨_, _, rfl⟩ := replaceDispute_ok.mp ran
  constructor <;> intros <;> first | rfl | simp_all

theorem insertTag_writes (row : TagRow) : Writes [.tags] (insertTag row) := by
  intro before after ran
  obtain ⟨tags, _, rfl⟩ := insertTag_ok.mp ran
  constructor <;> intros <;> first | rfl | simp_all

theorem updateTag_writes (name : TagName) (description : String) :
    Writes [.tags] (updateTag name description) := by
  rintro before _ ⟨⟩
  constructor <;> intros <;> first | rfl | simp_all

theorem insertMemoryTag_writes (row : MemoryTagRow) :
    Writes [.memoryTags] (insertMemoryTag row) := by
  intro before after ran
  obtain ⟨_, rfl⟩ := insertMemoryTag_ok.mp ran
  constructor <;> intros <;> first | rfl | simp_all

theorem deleteMemoryTag_writes (row : MemoryTagRow) :
    Writes [.memoryTags] (deleteMemoryTag row) := by
  rintro before _ ⟨⟩
  constructor <;> intros <;> first | rfl | simp_all

theorem upsertRelation_writes (row : RelationRow) :
    Writes [.relations] (upsertRelation row) := by
  rintro before _ ⟨⟩
  constructor <;> intros <;> first | rfl | simp_all

theorem upsertLink_writes (row : LinkRow) : Writes [.links] (upsertLink row) := by
  intro before after ran
  obtain ⟨_, rfl⟩ := upsertLink_ok.mp ran
  constructor <;> intros <;> first | rfl | simp_all

theorem deleteLink_writes (key : MemoryId × MemoryId × RelationName) :
    Writes [.links] (deleteLink key) := by
  rintro before _ ⟨⟩
  constructor <;> intros <;> first | rfl | simp_all

theorem insertConversation_writes (row : ConversationRow) :
    Writes [.conversations] (insertConversation row) := by
  intro before after ran
  rcases insertConversation_ok.mp ran with ⟨_, rfl⟩ | ⟨_, _, rfl⟩
  · exact Frame.refl _ _
  · constructor <;> intros <;> first | rfl | simp_all

theorem endConversation_writes (id : ConversationId) :
    Writes [.conversations] (endConversation id) := by
  rintro before _ ⟨⟩
  constructor <;> intros <;> first | rfl | simp_all

theorem insertSession_writes (row : SessionRow) : Writes [.sessions] (insertSession row) := by
  intro before after ran
  obtain ⟨sessions, _, _, rfl⟩ := insertSession_ok.mp ran
  constructor <;> intros <;> first | rfl | simp_all

theorem endSession_writes (id : SessionId) (cause : Option SessionEndCause) :
    Writes [.sessions] (endSession id cause) := by
  rintro before _ ⟨⟩
  constructor <;> intros <;> first | rfl | simp_all

theorem insertSessionParticipant_writes (row : SessionParticipantRow) :
    Writes [.sessionParticipants] (insertSessionParticipant row) := by
  intro before after ran
  obtain ⟨_, rfl⟩ := insertSessionParticipant_ok.mp ran
  constructor <;> intros <;> first | rfl | simp_all

theorem insertParticipantIdentity_writes (row : ParticipantIdentityRow) :
    Writes [.participantIdentities] (insertParticipantIdentity row) := by
  intro before after ran
  obtain ⟨_, rfl⟩ := insertParticipantIdentity_ok.mp ran
  constructor <;> intros <;> first | rfl | simp_all

theorem deleteContextParticipants_writes (memory : MemoryId) :
    Writes [.sessionParticipants] (deleteContextParticipants memory) := by
  rintro before _ ⟨⟩
  constructor <;> intros <;> first | rfl | simp_all

theorem deleteContextSessions_writes (memory : MemoryId) :
    Writes [.sessions, .sessionParticipants] (deleteContextSessions memory) := by
  rintro before _ ⟨⟩
  constructor <;> intros <;> first | rfl | simp_all

theorem deleteContextConversations_writes (memory : MemoryId) :
    Writes [.conversations, .sessions, .sessionParticipants]
      (deleteContextConversations memory) := by
  rintro before _ ⟨⟩
  constructor <;> intros <;> first | rfl | simp_all

end Statements

/-- The tables an event's arm may write. -/
def footprint : EventPayload → List TableName
  | .promptTemplateRegistered | .configSet | .luaExecuted | .conversationTurn
  | .modelCalled | .modelCallAborted | .ambientRecallSurfaced | .maintenancePassCompleted
  | .turnSuperseded | .embeddingModelChanged
  | .entryTemporalResolveFailed .. | .mergeProposed .. | .linksInferred .. => []
  | .genesisCompleted | .describePassCompleted .. | .memoryVolatilitySet ..
  | .classPrimaryDesignated .. => [.memories]
  | .beliefArbitrated .. => [.disputes]
  | .memoryCreated .. | .memoryDescriptionRegenerated .. => [.memories, .fts]
  | .memoryRenamed .. => [.memories, .fts, .aliases]
  | .memoryDeleted .. => [.memories, .conversations, .sessions, .sessionParticipants]
  | .memoryContentAppended .. => [.entries, .attestations, .memories, .fts]
  | .memorySuperseded .. | .entriesConsolidated .. | .entryDescriptionMirrored ..
  | .entryTemporalResolved .. | .scheduledJobFired .. | .scheduledItemSurfaced .. => [.entries]
  | .entryRetracted .. | .attestationRetracted .. => [.entries, .attestations]
  | .entryAttested .. => [.attestations]
  | .tagCreated .. | .tagDescriptionChanged .. => [.tags]
  | .tagAppliedToMemory .. | .tagRemovedFromMemory .. => [.memoryTags]
  | .linkTypeRegistered .. => [.relations]
  | .linkCreated .. | .linkRemoved .. => [.links, .memories]
  | .conversationStarted .. | .conversationEnded .. => [.conversations]
  | .sessionStarted .. => [.sessions, .sessionParticipants]
  | .sessionEnded .. => [.sessions]
  | .participantJoined .. => [.sessionParticipants]
  | .participantIdentified .. => [.participantIdentities]

/-- Every statement of a script writes only the listed tables. -/
abbrev ScriptWrites (changed : List TableName) (script : Script Graph Violation) : Prop :=
  script.Relates (Frame changed)

namespace ScriptWrites

variable {changed : List TableName} {small : List TableName}

theorem exec {statement : Statement} {next : Script Graph Violation}
    (writes : Writes small statement) (rest : ScriptWrites changed next)
    (sub : ∀ table ∈ small, table ∈ changed := by simp [footprint]) :
    ScriptWrites changed (.exec statement next) :=
  ⟨writes.mono sub, rest⟩

theorem statement {act : Statement} (writes : Writes small act)
    (sub : ∀ table ∈ small, table ∈ changed := by simp [footprint]) :
    ScriptWrites changed (.statement act) :=
  exec writes trivial sub

theorem forEach {α : Type} {items : List α} {act : α → Statement}
    (writes : ∀ item, Writes small (act item))
    (sub : ∀ table ∈ small, table ∈ changed := by simp [footprint]) :
    ScriptWrites changed (.forEach items act) :=
  Script.Relates.forEach fun item _ => (writes item).mono sub

end ScriptWrites

theorem recomputeClasses_writes {changed : List TableName} (present : .memories ∈ changed) :
    ScriptWrites changed recomputeClasses := fun _ =>
  ScriptWrites.forEach (fun _ => setClassId_writes _ _) (by simpa using present)

theorem recomputeIfSameAs_writes {changed : List TableName} (present : .memories ∈ changed)
    (relation : RelationName) : ScriptWrites changed (recomputeIfSameAs relation) := by
  unfold recomputeIfSameAs
  split
  · exact recomputeClasses_writes present
  · trivial

open ScriptWrites in
theorem project_writes (event : Event) :
    ScriptWrites (footprint event.payload) (project event) := by
  obtain ⟨seq, recordedAt, source, payload⟩ := event
  cases payload with
  | promptTemplateRegistered | configSet | luaExecuted | conversationTurn | modelCalled
  | modelCallAborted | ambientRecallSurfaced | maintenancePassCompleted | turnSuperseded
  | embeddingModelChanged | entryTemporalResolveFailed | mergeProposed | linksInferred => trivial
  | genesisCompleted | memoryVolatilitySet => exact statement (updateMemories_writes _ _ _)
  | describePassCompleted => exact forEach fun _ => updateMemories_writes _ _ _
  | beliefArbitrated =>
    refine exec (deleteDisputes_writes _) ?_
    split
    · exact forEach fun _ => replaceDispute_writes _
    · trivial
  | memoryCreated => exact exec (insertMemory_writes _) (statement (insertFts_writes _))
  | memoryRenamed =>
    exact exec (renameMemory_writes _ _ _) (exec (updateFts_writes _ _)
      (exec (replaceAlias_writes _) (statement (updateFts_writes _ _))))
  | memoryDeleted =>
    exact exec (updateMemories_writes _ _ _) (exec (deleteContextParticipants_writes _)
      (exec (deleteContextSessions_writes _) (statement (deleteContextConversations_writes _))))
  | memoryContentAppended =>
    intro graph
    refine exec (insertEntry_writes _) (exec (insertAttestation_writes _)
      (exec (updateMemories_writes _ _ _) ?_))
    split
    · exact statement (updateFts_writes _ _)
    · trivial
  | memorySuperseded => exact statement (supersedeEntry_writes _ _)
  | entriesConsolidated => exact forEach fun _ => supersedeEntry_writes _ _
  | entryRetracted =>
    exact exec (tombstoneEntry_writes _ _) (statement (retractAttestations_writes _ _))
  | entryAttested => exact statement (upsertAttestation_writes _)
  | attestationRetracted =>
    refine exec (retractAttestations_writes _ _) fun graph => ?_
    dsimp only
    split
    · trivial
    · exact statement (tombstoneEntry_writes _ _)
  | entryTemporalResolved =>
    intro graph
    refine exec (updateEntry_writes _ _ _) ?_
    split
    · exact statement (updateEntry_writes _ _ _)
    · trivial
  | entryDescriptionMirrored | scheduledJobFired | scheduledItemSurfaced =>
    exact statement (updateEntry_writes _ _ _)
  | memoryDescriptionRegenerated =>
    exact exec (updateMemories_writes _ _ _) (statement (updateFts_writes _ _))
  | classPrimaryDesignated =>
    exact exec (updateMemories_writes _ _ _) (recomputeClasses_writes (by simp [footprint]))
  | tagCreated => exact statement (insertTag_writes _)
  | tagDescriptionChanged => exact statement (updateTag_writes _ _)
  | tagAppliedToMemory => exact statement (insertMemoryTag_writes _)
  | tagRemovedFromMemory => exact statement (deleteMemoryTag_writes _)
  | linkTypeRegistered => exact statement (upsertRelation_writes _)
  | linkCreated =>
    intro graph
    exact exec (upsertLink_writes _) (recomputeIfSameAs_writes (by simp [footprint]) _)
  | linkRemoved =>
    intro graph
    exact exec (deleteLink_writes _) (recomputeIfSameAs_writes (by simp [footprint]) _)
  | conversationStarted => exact statement (insertConversation_writes _)
  | conversationEnded => exact statement (endConversation_writes _)
  | sessionStarted =>
    exact exec (insertSession_writes _) (forEach fun _ => insertSessionParticipant_writes _)
  | sessionEnded => exact statement (endSession_writes _ _)
  | participantJoined => exact statement (insertSessionParticipant_writes _)
  | participantIdentified => exact statement (insertParticipantIdentity_writes _)

theorem project_frame {event : Event} {before after : Graph}
    (ran : (project event).run before = .ok after) :
    Frame (footprint event.payload) before after :=
  (project_writes event).run (Frame.refl _) (fun _ _ _ => Frame.trans) ran

end Zuihitsu.Graph
