/-
# The event envelope and its payloads

All state is events. The payloads are the catalogue the materializer dispatches
on; those it projects nothing from carry only what the writers modelled here put
in them.
-/

import Zuihitsu.Core.Temporal

namespace Zuihitsu.Core

/-- How sharply a memory's facts decay in search ranking. -/
inductive Volatility where
  | low
  | medium
  | high
  deriving DecidableEq, Repr, Inhabited

/-- A relation endpoint's cardinality. -/
inductive Cardinality where
  | one
  | many
  deriving DecidableEq, Repr, Inhabited

/-- Who authored a link. -/
inductive LinkSource where
  | agent
  | operator
  | inferred
  | platformConnector (platform : String)
  deriving DecidableEq, Repr, Inhabited

/-- The authority a committed event was written under. -/
inductive EventSource where
  | bootstrap
  | agent
  | operator
  | orchestration
  | platformConnector (platform : String)
  deriving DecidableEq, Repr, Inhabited

/-- Who raised a merge proposal. -/
inductive MergeProposalSource where
  | agent
  deriving DecidableEq, Repr, Inhabited

/-- Why a session ended. -/
inductive SessionEndCause where
  | idle
  | compaction
  | recovery
  deriving DecidableEq, Repr

/-- The prompt templates the build ships. -/
inductive PromptTemplateName where
  | scaffold
  | descriptionRegen
  | temporalExtraction
  | flush
  | imprint
  | linkInference
  | entryConsolidation
  | nameIdentification
  | linkCleanup
  deriving DecidableEq, Repr

/-- The model and template behind an inference-written event. -/
structure ProducedBy where
  modelId : String
  templateName : PromptTemplateName
  templateVersion : Nat
  deriving DecidableEq, Repr

/-- Who told the agent a piece of content. -/
inductive Teller where
  | participant (id : MemoryId)
  | agent
  | bootstrap
  deriving DecidableEq, Repr, Inhabited

/-- A conversation, or one turn of it. -/
structure ConversationRef where
  conversation : ConversationId
  turn : Option TurnId
  deriving DecidableEq, Repr

/-- How widely a content entry may be surfaced. -/
inductive Visibility where
  | «public»
  | attributed
  | privateToTeller
  | exclude (excluded : IdSet)
  deriving DecidableEq

instance : Inhabited Visibility := ⟨.public⟩

/-- Which side of an arbitration was credited, and the reconciling note. -/
structure ArbitrationResolution where
  credited : List EntryId
  statement : String
  deriving DecidableEq, Repr

/-- The data carried by an event. -/
inductive EventPayload where
  | genesisCompleted
  | memoryCreated (id : MemoryId) (name : MemoryName)
  | memoryRenamed (id : MemoryId) (oldName newName : MemoryName)
  | memoryDeleted (id : MemoryId)
  | memoryContentAppended (id : MemoryId) (entryId : EntryId) (assertedAt : Timestamp)
      (occurredAt : Option TemporalRef) (text : String) (toldBy : Teller)
      (toldIn : Option ConversationRef) (visibility : Visibility)
  | memorySuperseded (id : MemoryId) (entry supersededBy : EntryId)
  | entriesConsolidated (id : MemoryId) (sources : List EntryId) (replacement : EntryId)
      (producedBy : Option ProducedBy)
  | entryRetracted (memory : MemoryId) (entry : EntryId) (reason : String)
      (producedBy : Option ProducedBy)
  | entryAttested (memory : MemoryId) (entry : EntryId) (teller : Teller)
      (toldIn : Option ConversationRef) (assertedAt : Timestamp) (posture : Visibility)
      (phrasing : Option String) (sourceEntry : Option EntryId) (producedBy : Option ProducedBy)
  | attestationRetracted (memory : MemoryId) (entry : EntryId) (teller : Teller)
      (reason : String) (producedBy : Option ProducedBy)
  | entryTemporalResolved (id : MemoryId) (entryId : EntryId) (occurredAt : Option TemporalRef)
      (producedBy : Option ProducedBy)
  | entryTemporalResolveFailed (id : MemoryId) (entryId : EntryId) (raw reason : String)
      (producedBy : Option ProducedBy)
  | entryDescriptionMirrored (id : MemoryId) (entryId : EntryId)
  | scheduledJobFired (entryId : EntryId) (memory : MemoryId) (firedAt : Timestamp)
  | scheduledItemSurfaced (entryId : EntryId) (memory : MemoryId) (session : SessionId)
      (surfacedAt : Timestamp)
  | memoryDescriptionRegenerated (id : MemoryId) (newText : String)
      (producedBy : Option ProducedBy)
  | beliefArbitrated (memory : MemoryId) (competingEntries : List EntryId)
      (resolution : ArbitrationResolution) (producedBy : Option ProducedBy)
  | mergeProposed (fromId toId : MemoryId) (source : MergeProposalSource)
      (rationale : Option String)
  | classPrimaryDesignated (memory : MemoryId) (designated : Bool)
  | linksInferred (memory : MemoryId)
  | describePassCompleted (memories : List MemoryId)
  | maintenancePassCompleted
  | memoryVolatilitySet (id : MemoryId) (volatility : Volatility)
  | tagCreated (name : TagName) (description : String)
  | tagDescriptionChanged (name : TagName) (newDescription : String)
  | tagAppliedToMemory (memory : MemoryId) (tag : TagName)
  | tagRemovedFromMemory (memory : MemoryId) (tag : TagName)
  | linkTypeRegistered (name inverse : RelationName) (fromCard toCard : Cardinality)
      (symmetric reflexive : Bool) (description : String)
  | linkCreated (fromId toId : MemoryId) (relation : RelationName) (source : LinkSource)
      (toldBy : Option Teller) (toldIn : Option ConversationRef) (visibility : Visibility)
  | linkRemoved (fromId toId : MemoryId) (relation : RelationName)
  | promptTemplateRegistered
  | configSet
  | embeddingModelChanged
  | luaExecuted
  | modelCalled
  | modelCallAborted
  | ambientRecallSurfaced
  | turnSuperseded
  | conversationTurn
  | conversationStarted (id : ConversationId) (locator : ConversationLocator)
      (contextMemory : MemoryId)
  | conversationEnded (id : ConversationId)
  | sessionStarted (conversation : ConversationId) (id : SessionId)
      (participants : List MemoryId) (startedAt : Timestamp)
      (seededFromTurn : Option ConversationRef) (brief : String)
  | sessionEnded (conversation : ConversationId) (id : SessionId)
      (cause : Option SessionEndCause)
  | participantJoined (conversation : ConversationId) (session : SessionId)
      (participant : MemoryId) (atTurn : ConversationRef)
  | participantIdentified (memory : MemoryId) (platform platformUserId : String)
  deriving DecidableEq

/-- A committed event: a payload at a position in the log, stamped with when it
was recorded and under which authority. -/
structure Event where
  seq : Nat
  recordedAt : Timestamp
  source : EventSource
  payload : EventPayload
  deriving DecidableEq

/-- The posture of a link that a later assertion of it overwrites. -/
structure LinkPosture where
  source : LinkSource
  toldBy : Option Teller
  toldIn : Option ConversationRef
  visibility : Visibility
  deriving DecidableEq

end Zuihitsu.Core
