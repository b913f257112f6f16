/-
# The projection's tables

The rows of the materialized graph under the schema's column names, one table
for each relation of the schema. Columns that hold serialized values hold the
values. A table's primary key is part of its type; the unique columns and the
foreign keys are checked by the statements that write them.
-/

import Zuihitsu.Core.Event
import Zuihitsu.Library.Table

namespace Zuihitsu.Graph

open Zuihitsu.Core Zuihitsu.Library

/-- A row of `memories`. -/
structure MemoryRow where
  id : MemoryId
  name : MemoryName
  description : String := ""
  volatility : Volatility := .medium
  deleted : Bool := false
  createdAt : Timestamp
  classId : MemoryId
  designatedPrimary : Bool := false
  lastContentSeq : Nat := 0
  lastDescribedSeq : Nat := 0
  deriving DecidableEq, Repr

/-- A memory is stale while its content is newer than the pass that last
considered it. -/
def MemoryRow.stale (row : MemoryRow) : Bool := row.lastDescribedSeq < row.lastContentSeq

/-- The denormalized occurrence of an entry. -/
structure OccurrenceColumns where
  occurredAt : Option TemporalRef
  bounds : OccurrenceBounds
  deriving DecidableEq, Repr

/-- A row of `content_entries`. -/
structure EntryRow where
  entryId : EntryId
  memoryId : MemoryId
  assertedAt : Timestamp
  occurrence : OccurrenceColumns
  occurredAuthored : Bool
  descriptionMirror : Bool := false
  firedAt : Option Timestamp := none
  surfacedAt : Option Timestamp := none
  text : String
  toldBy : Teller
  toldIn : Option ConversationRef
  visibility : Visibility
  supersededBy : Option EntryId := none
  retractedReason : Option String := none
  originPlatform : Option String
  seq : Nat
  deriving DecidableEq

/-- A row of `entry_attestations`. -/
structure AttestationRow where
  entryId : EntryId
  teller : Teller
  toldIn : Option ConversationRef
  assertedAt : Timestamp
  posture : Visibility
  phrasing : Option String := none
  sourceEntry : Option EntryId := none
  retractedReason : Option String := none
  seq : Nat
  deriving DecidableEq

/-- A row of `entry_disputes`. -/
structure DisputeRow where
  entryId : EntryId
  memoryId : MemoryId
  statement : String
  deriving DecidableEq, Repr

/-- A row of `tags`. -/
structure TagRow where
  name : TagName
  description : String
  deriving DecidableEq, Repr

/-- A row of `memory_tags`. -/
structure MemoryTagRow where
  memoryId : MemoryId
  tag : TagName
  deriving DecidableEq, Repr

/-- A row of `relations`. -/
structure RelationRow where
  name : RelationName
  inverse : RelationName
  fromCard : Cardinality
  toCard : Cardinality
  symmetric : Bool
  reflexive : Bool
  description : String
  deriving DecidableEq, Repr

/-- A row of `links`. -/
structure LinkRow where
  fromId : MemoryId
  toId : MemoryId
  relation : RelationName
  source : LinkSource
  toldBy : Option Teller
  toldIn : Option ConversationRef
  visibility : Visibility
  assertedAt : Timestamp
  deriving DecidableEq

/-- A row of `memory_aliases`. -/
structure AliasRow where
  formerName : MemoryName
  memoryId : MemoryId
  deriving DecidableEq, Repr

/-- A row of `conversations`. -/
structure ConversationRow where
  id : ConversationId
  locator : ConversationLocator
  contextMemory : MemoryId
  ended : Bool := false
  deriving DecidableEq, Repr

/-- A row of `sessions`. -/
structure SessionRow where
  id : SessionId
  conversation : ConversationId
  startedAt : Timestamp
  seededFromTurn : Option ConversationRef
  brief : String
  ended : Bool := false
  endCause : Option SessionEndCause := none
  seq : Nat
  deriving DecidableEq, Repr

/-- A row of `session_participants`. -/
structure SessionParticipantRow where
  session : SessionId
  memory : MemoryId
  atTurn : Option ConversationRef
  deriving DecidableEq, Repr

/-- A row of `participant_identities`. -/
structure ParticipantIdentityRow where
  platform : String
  platformUserId : String
  memory : MemoryId
  deriving DecidableEq, Repr

/-- A row of the lexical index `memories_fts`, which has no key. -/
structure FtsRow where
  memoryId : MemoryId
  name : MemoryName
  description : String
  content : String
  deriving DecidableEq, Repr

/-- The primary key of an attestation. -/
abbrev AttestationRow.key (row : AttestationRow) : EntryId × Teller := (row.entryId, row.teller)

/-- The primary key of a link. -/
abbrev LinkRow.key (row : LinkRow) : MemoryId × MemoryId × RelationName :=
  (row.fromId, row.toId, row.relation)

/-- The primary key of a session participant. -/
abbrev SessionParticipantRow.key (row : SessionParticipantRow) : SessionId × MemoryId :=
  (row.session, row.memory)

/-- The primary key of a participant identity. -/
abbrev ParticipantIdentityRow.key (row : ParticipantIdentityRow) : String × String :=
  (row.platform, row.platformUserId)

end Zuihitsu.Graph

namespace Zuihitsu

open Zuihitsu.Core Zuihitsu.Library Zuihitsu.Graph

/-- The materialized graph, with the position of the last event applied to it. -/
structure Graph where
  memories : Table MemoryRow.id := .empty
  entries : Table EntryRow.entryId := .empty
  attestations : Table AttestationRow.key := .empty
  disputes : Table DisputeRow.entryId := .empty
  tags : Table TagRow.name := .empty
  memoryTags : Table (id : MemoryTagRow → MemoryTagRow) := .empty
  relations : Table RelationRow.name := .empty
  links : Table LinkRow.key := .empty
  aliases : Table AliasRow.formerName := .empty
  conversations : Table ConversationRow.id := .empty
  sessions : Table SessionRow.id := .empty
  sessionParticipants : Table SessionParticipantRow.key := .empty
  participantIdentities : Table ParticipantIdentityRow.key := .empty
  fts : List FtsRow := []
  head : Nat := 0
  deriving DecidableEq

/-- The graph before any event. -/
def Graph.fresh : Graph := {}

namespace Graph

/-- The tables of the schema. -/
inductive TableName where
  | memories
  | entries
  | attestations
  | disputes
  | tags
  | memoryTags
  | relations
  | links
  | aliases
  | conversations
  | sessions
  | sessionParticipants
  | participantIdentities
  | fts
  deriving DecidableEq, Repr

/-- A constraint of the schema that a statement broke. -/
inductive Violation where
  | primaryKey (table : TableName)
  | unique (table : TableName)
  | foreignKey (table : TableName)
  deriving DecidableEq, Repr

/-- One SQL statement: it commits on its own or fails without effect. -/
abbrev Statement := Graph → Except Violation Graph

/-- The row of a memory, deleted or not. -/
def memoryRow (graph : Graph) (id : MemoryId) : Option MemoryRow := graph.memories.find id

/-- The row of an entry, live or not. -/
def entryRow (graph : Graph) (id : EntryId) : Option EntryRow := graph.entries.find id

/-- Fail with a foreign-key violation unless the parent row is there. -/
def requires (parent : Bool) (table : TableName) : Except Violation Unit :=
  if parent then .ok () else .error (.foreignKey table)

/-- Take the table an insertion made, or fail with a primary-key violation. -/
def inserted {ρ : Type} (result : Option ρ) (table : TableName) : Except Violation ρ :=
  match result with
  | some after => .ok after
  | none => .error (.primaryKey table)

end Graph

end Zuihitsu
