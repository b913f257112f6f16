/-
# A block's in-progress mutations

The state one memory block carries while a turn, a maintenance pass or the
console drives it, and what it resolves against: its own buffer first, then the
committed graph. An operation that fails leaves the block as it was. The seed
markers a failed creation leaves behind are the one thing the program does not
take back, and they name a memory that was never created.
-/

import Zuihitsu.Visibility
import Zuihitsu.Core.Text

namespace Zuihitsu

open Zuihitsu.Core Zuihitsu.Graph Zuihitsu.Library

/-- Who is driving a block's writes. -/
inductive Authority where
  | platform
  | operator
  | agent
  deriving DecidableEq, Repr

/-- The forced posture an option selects. -/
inductive VisibilityChoice where
  | «public»
  | attributed
  | «private»
  deriving DecidableEq, Repr

/-- A reconciled forced visibility. -/
inductive ForcedVisibility where
  | choice (choice : VisibilityChoice)
  | exclude (excluded : IdSet)
  deriving DecidableEq

/-- The overrides an append accepts. -/
structure AppendOptions where
  byAgent : Bool := false
  visibility : Option VisibilityChoice := none
  occurredAt : Option TemporalRef := none
  volatility : Option Volatility := none
  toldBy : Option Teller := none
  exclude : Option IdSet := none
  deriving DecidableEq

/-- A teachable failure of a block operation. -/
inductive MemoryError where
  | nameExists (name : MemoryName)
  | renameOntoPlatformHandle (name : MemoryName)
  | renameOfPlatformHandle (name : MemoryName)
  | unknownEntry (entry : EntryId)
  | duplicateEntry (existing : EntryId) (snippet : String)
  | contentTooLong (length limit : Nat)
  | selfWriteForbidden
  | selfMergeForbidden
  | operatorWriteForbidden
  | foreignConfidenceSupersedeForbidden
  | confidentialUntagForbidden
  | visibilityRequired
  | visibilityRequiredOnCreate
  | visibilityConflict
  | excludeEmpty
  | unguardedSeedBesideExclude
  | unsupportedRecurrence (rule : String)
  | badCalendarArg (text : String)
  | attestationWiderThanEntry
  | unknownAttestation
  | retractionReasonRequired
  | consolidationInvariant (rule : String)
  | unknownRelation (relation : RelationName)
  | badCardinality (value : String)
  | mergeForbidden
  | mergeProposalInvalid
  | tagExists (name : TagName)
  | unknownTag (name : TagName)
  | unknownVolatility (level : String)
  deriving DecidableEq, Repr

/-- One block's in-progress mutations. -/
structure MemoryBlock where
  teller : Teller
  authority : Authority
  selfId : Option MemoryId
  operatorId : Option MemoryId
  toldIn : Option ConversationRef
  confidentialContext : Bool
  connectorAuthored : Bool := false
  presentSet : List MemoryId
  maxEntryChars : Nat
  buffer : List EventPayload := []
  openDefaultSeeds : List MemoryId := []
  deriving DecidableEq

/-- What a block reads outside itself during one operation: the committed graph
and the clock. -/
structure Engine where
  graph : Graph
  now : Timestamp

/-- The context memory of a conversation. -/
def Graph.contextForConversation (graph : Graph) (conversation : ConversationId) :
    Option MemoryId :=
  (graph.conversations.find conversation).map (·.contextMemory)

namespace MemoryBlock

/-- Open a block for a conversation, or for the console and the passes that have none. -/
def «open» (graph : Graph) (teller : Teller) (authority : Authority)
    (conversation : Option ConversationId) (turn : Option TurnId) (presentSet : List MemoryId)
    (maxEntryChars : Nat) : MemoryBlock where
  teller := teller
  authority := authority
  selfId := (graph.memoryByName MemoryName.selfHandle).map (·.id)
  operatorId := (graph.memoryByName NamespacedMemoryName.operator.toMemoryName).map (·.id)
  toldIn := conversation.map fun conversation => ⟨conversation, turn⟩
  confidentialContext :=
    ((conversation.bind graph.contextForConversation).bind graph.memoryById).any
      fun context => context.tags.contains TagName.confidential
  presentSet := presentSet
  maxEntryChars := maxEntryChars

/-- Mark the block's writes as a platform connector's. -/
def authoredByConnector (block : MemoryBlock) : MemoryBlock :=
  { block with connectorAuthored := true }

/-- Buffer one event. -/
def push (block : MemoryBlock) (event : EventPayload) : MemoryBlock :=
  { block with buffer := block.buffer ++ [event] }

/-- Buffer a list of events. -/
def pushAll (block : MemoryBlock) (events : List EventPayload) : MemoryBlock :=
  { block with buffer := block.buffer ++ events }

/-! ### Names -/

/-- The memory a pending event gives a name to. -/
def namedBy (name : MemoryName) : EventPayload → Option MemoryId
  | .memoryCreated id created => if created = name then some id else none
  | .memoryRenamed id _ newName => if newName = name then some id else none
  | _ => none

/-- Resolve a name, the block's pending creations and renames before the graph. -/
def resolve (graph : Graph) (block : MemoryBlock) (name : MemoryName) : Option MemoryId :=
  (block.buffer.findSome? (namedBy name)).or ((graph.memoryByName name).map (·.id))

/-- The name a pending event creates a memory with. -/
def createdName (id : MemoryId) : EventPayload → Option MemoryName
  | .memoryCreated created name => if created = id then some name else none
  | _ => none

/-- A memory's name, honouring a pending creation. -/
def resolveName (graph : Graph) (block : MemoryBlock) (id : MemoryId) : Option MemoryName :=
  (block.buffer.findSome? (createdName id)).or ((graph.memoryById id).map (·.name))

/-- The memory a class-level write lands on: the primary of the addressed class,
or the addressed memory where the redirect does not apply. -/
def classWriteTarget (graph : Graph) (block : MemoryBlock) (id : MemoryId) : MemoryId :=
  if block.connectorAuthored then id
  else
    -- a memory created in this block has no class yet
    match graph.classId id with
    | none => id
    | some primary =>
      if primary = id || some primary = block.operatorId || some primary = block.selfId ||
          (graph.memoryById primary).isNone then id
      else primary

/-! ### Tellers -/

/-- Whether two participants stand for one identity class. -/
def sameParticipantClass (graph : Graph) (first second : MemoryId) : Bool :=
  first = second || graph.classOf first = graph.classOf second

/-- Whether two tellers stand for the same identity. -/
def sameTellerClass (graph : Graph) : Teller → Teller → Bool
  | .participant first, .participant second => sameParticipantClass graph first second
  | .agent, .agent => true
  | .bootstrap, .bootstrap => true
  | _, _ => false

/-- The teller an entry is stamped with: an explicit one, the agent, or the speaker. -/
def entryTeller (opts : AppendOptions) (speaker : Teller) : Teller :=
  opts.toldBy.getD (if opts.byAgent then .agent else speaker)

/-- A readable label for a teller. -/
def tellerLabel (graph : Graph) (block : MemoryBlock) : Teller → String
  | .participant id => ((resolveName graph block id).map (·.text)).getD "someone"
  | .agent => "you"
  | .bootstrap => "genesis"

/-! ### Guards -/

/-- Only the console writes to `self`. -/
def guardSelf (block : MemoryBlock) (id : MemoryId) : Except MemoryError Unit :=
  if block.authority ≠ .operator ∧ some id = block.selfId then .error .selfWriteForbidden
  else .ok ()

/-- No authority merges `self` into an identity class. -/
def guardSelfMerge (block : MemoryBlock) (fromId toId : MemoryId) : Except MemoryError Unit :=
  if some fromId = block.selfId ∨ some toId = block.selfId then .error .selfMergeForbidden
  else .ok ()

/-- The operator anchor holds no content of its own. -/
def guardOperator (block : MemoryBlock) (id : MemoryId) : Except MemoryError Unit :=
  if some id = block.operatorId then .error .operatorWriteForbidden else .ok ()

/-- A platform turn does not take the confidential mark off a room. -/
def guardConfidentialUntag (block : MemoryBlock) (tag : TagName) : Except MemoryError Unit :=
  if block.authority = .platform ∧ tag = .confidential then .error .confidentialUntagForbidden
  else .ok ()

/-- Reject a recurrence the scheduler cannot interpret. -/
def validateOccurredAt : Option TemporalRef → Except MemoryError Unit
  | some (.recurring rule) =>
    if rruleIsSupported rule then .ok () else .error (.unsupportedRecurrence rule)
  | _ => .ok ()

/-! ### Postures -/

def reconcileForcedVisibility :
    Option VisibilityChoice → Option IdSet → Except MemoryError (Option ForcedVisibility)
  | visibility, some ids =>
    if ids.members.isEmpty then .error .excludeEmpty
    else
      match visibility with
      -- an exclude list is private by its nature, and goes with nothing wider
      | some .private | none => .ok (some (.exclude ids))
      | some _ => .error .visibilityConflict
  | some choice, none => .ok (some (.choice choice))
  | none, none => .ok none

/-- The posture a forced visibility is recorded at. -/
def forcedToVisibility : ForcedVisibility → Visibility
  | .choice .public => .public
  | .choice .attributed => .attributed
  | .choice .private => .privateToTeller
  | .exclude ids => .exclude ids

/-- Whether a named memory is a person. -/
def aboutAPerson (name : Option MemoryName) (id : MemoryId) : Bool :=
  name.any fun name => (subjectParticipant name id).isSome

/-- The visibility a content entry is written at. -/
def resolveVisibility (block : MemoryBlock) (name : Option MemoryName) (id : MemoryId)
    (toldBy : Teller) (forced : Option ForcedVisibility) : Except MemoryError Visibility :=
  match forced with
  | some forced => .ok (forcedToVisibility forced)
  | none =>
    -- a confidential room beats the default, not a forced visibility
    if block.confidentialContext then .ok .privateToTeller
    else if toldBy = .agent ∧ aboutAPerson name id then .error .visibilityRequired
    else
      match name with
      | some name => .ok (defaultVisibilityNamed name id toldBy)
      | none => .ok .public

/-! ### Pending entries -/

/-- The entries a pending event takes out of the live reads. -/
def supersededBy : EventPayload → List EntryId
  | .memorySuperseded _ entry _ => [entry]
  | .entryRetracted _ entry _ _ => [entry]
  | .entriesConsolidated _ sources _ _ => sources
  | _ => []

/-- The entries this block has taken out of the live reads. -/
def pendingSuperseded (block : MemoryBlock) : List EntryId := block.buffer.flatMap supersededBy

/-- The teller and posture a pending event attests an entry with. -/
def attests (entry : EntryId) : EventPayload → Option (Teller × Visibility)
  | .entryAttested _ attested teller _ _ posture _ _ _ =>
    if attested = entry then some (teller, posture) else none
  | _ => none

/-- This block's pending attestations of an entry. -/
def pendingAttestations (block : MemoryBlock) (entry : EntryId) : List (Teller × Visibility) :=
  block.buffer.filterMap (attests entry)

/-- Put a teller's posture among the held ones: in the place it holds, or at the end. -/
def holdAs (teller : Teller) (posture : Visibility) :
    List (Teller × Visibility) → List (Teller × Visibility)
  | [] => [(teller, posture)]
  | held :: rest =>
    if held.1 = teller then (teller, posture) :: rest else held :: holdAs teller posture rest

/-- Fold one pending event over the endorsements of an entry: an attestation
replaces the posture of its exact teller, and a retraction drops the teller. -/
def foldAttestation (entry : EntryId) (held : List (Teller × Visibility)) :
    EventPayload → List (Teller × Visibility)
  | .entryAttested _ attested teller _ _ posture _ _ _ =>
    if attested = entry then holdAs teller posture held else held
  | .attestationRetracted _ retracted teller _ _ =>
    if retracted = entry then held.filter (·.1 ≠ teller) else held
  | _ => held

/-- The block's pending attestation writes folded over an entry's endorsements. -/
def foldPendingAttestations (block : MemoryBlock) (entry : EntryId)
    (base : List (Teller × Visibility)) : List (Teller × Visibility) :=
  block.buffer.foldl (foldAttestation entry) base

/-- A live entry as the write guards read it. -/
structure LiveEntry where
  entryId : EntryId
  toldBy : Teller
  visibility : Visibility
  text : String
  toldIn : Option ConversationRef
  assertedAt : Timestamp
  attestations : List (Teller × Visibility)
  deriving DecidableEq

/-- A committed entry as the write guards read it. -/
def liveCommitted (block : MemoryBlock) (entry : EntryView) : LiveEntry where
  entryId := entry.entryId
  toldBy := entry.toldBy
  visibility := entry.visibility
  text := entry.text
  toldIn := entry.toldIn
  assertedAt := entry.assertedAt
  attestations :=
    foldPendingAttestations block entry.entryId (entry.attestations.map fun a => (a.teller, a.posture))

/-- A pending append to one of the members as the write guards read it, unless it
is taken out again. -/
def livePending (block : MemoryBlock) (members : List MemoryId) : EventPayload → Option LiveEntry
  | .memoryContentAppended id entryId assertedAt _ text toldBy toldIn visibility =>
    if id ∈ members ∧ entryId ∉ pendingSuperseded block then
      some
        { entryId, toldBy, visibility, text, toldIn, assertedAt
          attestations := foldPendingAttestations block entryId [(toldBy, visibility)] }
    else none
  | _ => none

/-- The live entries of an identity class: the committed ones and this block's
appends, less what it has taken out. -/
def liveClassEntries (graph : Graph) (block : MemoryBlock) (id : MemoryId) : List LiveEntry :=
  ((graph.classEntries id).filter (·.entryId ∉ pendingSuperseded block)).map (liveCommitted block) ++
    block.buffer.filterMap (livePending block (id :: graph.classMembers id))

/-- A live entry of a class by its id. -/
def liveEntry (graph : Graph) (block : MemoryBlock) (id : MemoryId) (entry : EntryId) :
    Except MemoryError LiveEntry :=
  match (liveClassEntries graph block id).find? (·.entryId = entry) with
  | some live => .ok live
  | none => .error (.unknownEntry entry)

/-- A platform turn does not take out a confidence its speaker does not attest. -/
def guardForeignConfidenceSupersede (graph : Graph) (block : MemoryBlock) (entry : LiveEntry) :
    Except MemoryError Unit :=
  if block.authority ≠ .platform then .ok ()
  else
    match entry.visibility, entry.toldBy with
    -- a confidence, which only those who stand behind it may take out
    | .privateToTeller, .participant _ | .exclude _, .participant _ =>
      if entry.attestations.any fun held => sameTellerClass graph held.1 block.teller then .ok ()
      else .error .foreignConfidenceSupersedeForbidden
    | _, _ => .ok ()

/-- Buffer a content entry under a fresh id, unless its text is too long. -/
def pushContent (engine : Engine) (fresh : EntryId) (block : MemoryBlock) (id : MemoryId)
    (text : String) (toldBy : Teller) (visibility : Visibility)
    (occurredAt : Option TemporalRef) : Except MemoryError MemoryBlock :=
  if block.maxEntryChars < text.length then
    .error (.contentTooLong text.length block.maxEntryChars)
  else
    .ok (block.push
      (.memoryContentAppended id fresh engine.now occurredAt text toldBy block.toldIn visibility))

end MemoryBlock

end Zuihitsu
