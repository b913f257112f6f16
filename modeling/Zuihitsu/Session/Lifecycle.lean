/-
# The session lifecycle

The tasks that open, use, flush and close sessions, as the awaits split them: routed
batches, forced compactions, and the candidates of an idle and of a checkpoint
sweep, each candidate a task of its own. Between two awaits a task runs alone, so
what it appends is also materialized. A turn holds its conversation's slot; the
paths that open and most that close also hold its lifecycle lock.
-/

import Zuihitsu.Library.Tasks
import Zuihitsu.Library.Trace
import Zuihitsu.Session.Log

namespace Zuihitsu.Session

open Zuihitsu.Core Zuihitsu.Turn Zuihitsu.Library

/-! ### The runtime -/

/-- The settings a session's lifecycle reads. -/
structure Settings where
  idleGapMillis : Int := 1_800_000
  carryoverTokenBudget : Int := 4_000
  flushMinTurns : Int := 4
  tokenBudget : Int := 24_000
  checkpointEnabled : Bool := true
  minDeltaChars : Int := 2_000
  cooldownMillis : Int := 300_000
  deriving DecidableEq, Repr

/-- The live session of a conversation. Where its own turns begin is at or after where its
buffer does. -/
structure OpenSession where
  id : SessionId
  startedAt : Timestamp
  lastActivity : Timestamp
  startSeq : Nat
  sessionStartSeq : Nat
  deriving DecidableEq, Repr

/-- What closes a session: a message that recovers it from the log, or finds it lapsed, the
idle sweep, and a compaction, by a turn over its budget or forced. -/
inductive Closing where
  | recovery
  | lapsed
  | idle
  | budget
  | forced
  deriving DecidableEq, Repr

/-- The cause a close records. -/
def Closing.cause : Closing → SessionEndCause
  | recovery => .recovery
  | lapsed | idle => .idle
  | budget | forced => .compaction

/-- What a flush is for. -/
inductive Purpose where
  | checkpoint
  | closing (closing : Closing)
  deriving DecidableEq, Repr

/-- What drives a checkpoint sweep. -/
inductive CheckpointTrigger where
  | timer
  | sessionOpen (opener : ConversationId)
  deriving DecidableEq, Repr

namespace CheckpointTrigger

def skips (trigger : CheckpointTrigger) (conversation : ConversationId) : Bool :=
  trigger = sessionOpen conversation

def appliesCooldownAndAudience (trigger : CheckpointTrigger) : Bool := trigger = timer

end CheckpointTrigger

/-- Where a task is, between two steps. -/
inductive Place where
  /-- its batch has arrived and waits for the slot -/
  | queued (conversation : ConversationId)
  /-- it has the slot and waits for a permit, its sweep of the others, and the lock -/
  | admitted (conversation : ConversationId)
  /-- it has the lock too, nothing is open, and the brief is being composed -/
  | composing (conversation : ConversationId) (tail : Option (TurnId × Nat))
  /-- it has its session, and syncs who is present -/
  | joined (conversation : ConversationId) (session : OpenSession)
  /-- its messages are recorded and the model runs -/
  | running (conversation : ConversationId) (session : OpenSession)
  /-- a candidate of the idle sweep, before its activity is read -/
  | listed (conversation : ConversationId) (recovered : SessionView) (now : Timestamp)
  /-- an idle candidate that waits for the lock -/
  | claiming (conversation : ConversationId) (recovered : SessionView) (lastActivity : Timestamp)
  /-- a candidate of the checkpoint sweep, before its gates -/
  | picked (conversation : ConversationId) (session : OpenSession) (trigger : CheckpointTrigger)
      (now : Timestamp)
  /-- a due candidate that waits for the lock -/
  | awaiting (conversation : ConversationId) (session : OpenSession)
      (trigger : CheckpointTrigger) (now : Timestamp)
  /-- a flush runs over a snapshot of the buffer -/
  | flushing (conversation : ConversationId) (session : OpenSession) (purpose : Purpose)
  /-- the flush is over and the session's VM shuts down -/
  | ending (conversation : ConversationId) (session : OpenSession) (closing : Closing)
  deriving DecidableEq

namespace Closing

/-- The closes a turn makes, in its slot. -/
def byTurn : Closing → Bool
  | recovery | lapsed | budget => true
  | idle | forced => false

/-- The closes made under the lifecycle lock. -/
def underLock : Closing → Bool
  | recovery | lapsed | idle => true
  | budget | forced => false

end Closing

namespace Place

/-- The place is in the conversation's turn slot: the turn has been admitted and not exited. -/
def HoldsSlot (conversation : ConversationId) : Place → Prop
  | admitted own | composing own _ | joined own _ | running own _ => own = conversation
  | flushing own _ (.closing closing) | ending own _ closing =>
    own = conversation ∧ closing.byTurn = true
  | flushing _ _ .checkpoint | queued _ | listed _ _ _ | claiming _ _ _ | picked _ _ _ _
  | awaiting _ _ _ _ => False

/-- The place is under the conversation's lifecycle lock. -/
def HoldsLock (conversation : ConversationId) : Place → Prop
  | composing own _ | flushing own _ .checkpoint => own = conversation
  | flushing own _ (.closing closing) | ending own _ closing =>
    own = conversation ∧ closing.underLock = true
  | queued _ | admitted _ | joined _ _ | running _ _ | listed _ _ _ | claiming _ _ _
  | picked _ _ _ _ | awaiting _ _ _ _ => False

/-- A turn is in the session: it has been given it and goes on to record in it. -/
def InSession (conversation : ConversationId) : Place → Prop
  | joined own _ | running own _ => own = conversation
  | _ => False

/-- A checkpoint flush of the conversation is running. -/
def Checkpoints (conversation : ConversationId) : Place → Prop
  | flushing own _ .checkpoint => own = conversation
  | _ => False

/-- A flush of the conversation is running. -/
def Flushes (conversation : ConversationId) : Place → Prop
  | flushing own _ _ => own = conversation
  | _ => False

/-- A compaction of the conversation is closing its session. -/
def Compacts (conversation : ConversationId) : Place → Prop
  | flushing own _ (.closing closing) | ending own _ closing =>
    own = conversation ∧ (closing = .budget ∨ closing = .forced)
  | _ => False

end Place

/-- A flush and what it was given. -/
structure Handed where
  session : SessionId
  slice : List TurnView

/-- The log, the live session map, the tasks, and the slices flushes were given so far. -/
structure State where
  log : List SessionEvent := []
  live : ConversationId → Option OpenSession := fun _ => none
  tasks : Tasks Place := fun _ => none
  settings : Settings := {}
  handed : List Handed := []

namespace State

/-- Move a task. -/
def move (state : State) (task : Nat) (place : Option Place) : State :=
  { state with tasks := state.tasks.put task place }

/-- Put a session into the live map, or take one out. -/
def setLive (state : State) (conversation : ConversationId) (session : Option OpenSession) :
    State :=
  { state with live := Function.update state.live conversation session }

/-- Append events. -/
def append (state : State) (now : Timestamp) (payloads : List SessionPayload) : State :=
  { state with log := record state.log now payloads }

section Fields

variable (state : State) (task : Nat) (place : Option Place) (conversation : ConversationId)
variable (session : Option OpenSession) (now : Timestamp) (payloads : List SessionPayload)

@[simp] theorem move_log : (state.move task place).log = state.log := rfl

@[simp] theorem move_live : (state.move task place).live = state.live := rfl

@[simp] theorem move_handed : (state.move task place).handed = state.handed := rfl

@[simp] theorem move_tasks : (state.move task place).tasks = state.tasks.put task place := rfl

@[simp] theorem setLive_log : (state.setLive conversation session).log = state.log := rfl

@[simp] theorem setLive_tasks : (state.setLive conversation session).tasks = state.tasks := rfl

@[simp] theorem setLive_handed : (state.setLive conversation session).handed = state.handed := rfl

@[simp] theorem setLive_self : (state.setLive conversation session).live conversation = session :=
  Function.update_self ..

theorem setLive_other {other : ConversationId} (apart : other ≠ conversation) :
    (state.setLive conversation session).live other = state.live other :=
  Function.update_of_ne apart ..

@[simp] theorem append_live : (state.append now payloads).live = state.live := rfl

@[simp] theorem append_tasks : (state.append now payloads).tasks = state.tasks := rfl

@[simp] theorem append_handed : (state.append now payloads).handed = state.handed := rfl

theorem setLive_eq_some {other : ConversationId} {current : OpenSession} :
    (state.setLive conversation session).live other = some current ↔
      (other = conversation ∧ session = some current) ∨
        (other ≠ conversation ∧ state.live other = some current) := by
  by_cases same : other = conversation
  · subst same
    simp
  · simp [setLive_other state conversation session same, same]

end Fields

/-- The live buffer of a session. -/
def buffer (state : State) (conversation : ConversationId) (session : OpenSession) :
    List TurnView :=
  boundedBufferTurns (turnLog state.log) conversation session.startSeq session.sessionStartSeq
    state.settings.carryoverTokenBudget

/-- Whether a turn of the conversation has been admitted. -/
def HasAdmittedTurn (state : State) (conversation : ConversationId) : Prop :=
  state.tasks.Has (Place.HoldsSlot conversation)

/-! ### Closing a session -/

/-- Nothing is open any more: the tail of the session before is read from the log, and the
brief is composed. -/
def compose (state : State) (task : Nat) (conversation : ConversationId) : State :=
  let tail := (lastSessionStart state.log conversation).bind fun previous =>
    let own := boundedBufferTurns (turnLog state.log) conversation previous previous
      state.settings.carryoverTokenBudget
    own[carryoverStart own state.settings.carryoverTokenBudget]?.map fun turn =>
      (turn.turnId, turn.seq)
  state.move task (some (.composing conversation tail))

/-- `flush_and_end` of an open session, up to its first await. A session with too few turns of
its own is not flushed. -/
def flushOrEnd (state : State) (task : Nat) (conversation : ConversationId)
    (session : OpenSession) (closing : Closing) : State :=
  let buffer := state.buffer conversation session
  let ownTurns := buffer.countP fun turn => session.sessionStartSeq ≤ turn.seq
  if state.settings.flushMinTurns ≤ ownTurns then
    { state.move task (some (.flushing conversation session (.closing closing))) with
      handed := state.handed ++ [⟨session.id, buffer⟩] }
  else state.move task (some (.ending conversation session closing))

/-- Take a lapsed session out of the map and close it; the brief comes after. -/
def takeLapsed (state : State) (task : Nat) (conversation : ConversationId) : State :=
  match state.live conversation with
  | none => state.compose task conversation
  | some old =>
    if sessionIsOpen state.log old.id then
      (state.setLive conversation none).flushOrEnd task conversation old .lapsed
    else (state.setLive conversation none).compose task conversation

/-- What follows a close. -/
def afterClose (state : State) (task : Nat) (conversation : ConversationId) : Closing → State
  | .recovery => state.takeLapsed task conversation
  | .lapsed => state.compose task conversation
  | .idle | .budget | .forced => state.move task none

/-- `flush_and_end`, up to its first await. A session another path has ended is skipped. -/
def flushAndEnd (state : State) (task : Nat) (conversation : ConversationId)
    (session : OpenSession) (closing : Closing) : State :=
  if sessionIsOpen state.log session.id then state.flushOrEnd task conversation session closing
  else state.afterClose task conversation closing

/-- `end_session_for_compaction`, up to its first await. -/
def endForCompaction (state : State) (task : Nat) (conversation : ConversationId)
    (closing : Closing) : State :=
  match state.live conversation with
  | none => state.move task none
  | some session => (state.setLive conversation none).flushAndEnd task conversation session closing

/-! ### Opening one -/

/-- A session that is open in the log, as a message or the sweep rebuilds it. -/
def recoveredSession (recovered : SessionView) (lastActivity : Timestamp) : OpenSession where
  id := recovered.id
  startedAt := recovered.startedAt
  lastActivity := lastActivity
  startSeq := recovered.startSeq
  sessionStartSeq := recovered.startSeq

/-- When a session that is open in the log was last active. -/
def recoveredActivity (state : State) (conversation : ConversationId) (recovered : SessionView) :
    Timestamp :=
  ((boundedBufferTurns (turnLog state.log) conversation recovered.startSeq recovered.startSeq
    state.settings.carryoverTokenBudget).getLast?.map (·.recordedAt)).getD recovered.startedAt

/-- The silence is within the idle gap. -/
def withinGap (state : State) (now lastActivity : Timestamp) : Bool :=
  now.millis - lastActivity.millis ≤ state.settings.idleGapMillis

/-- Give a turn its session. -/
def join (state : State) (task : Nat) (conversation : ConversationId) (session : OpenSession) :
    State :=
  (state.setLive conversation (some session)).move task (some (.joined conversation session))

/-- `ensure_session` under the lock, up to its first await or its return. -/
def ensureSession (state : State) (task : Nat) (conversation : ConversationId) (now : Timestamp) :
    State :=
  match state.live conversation with
  | some session =>
    if state.withinGap now session.lastActivity then
      state.join task conversation { session with lastActivity := now }
    else state.takeLapsed task conversation
  | none =>
    match lastOpenSession state.log conversation with
    | none => state.takeLapsed task conversation
    | some recovered =>
      let lastActivity := state.recoveredActivity conversation recovered
      if !recovered.seeded && state.withinGap now lastActivity then
        state.join task conversation (recoveredSession recovered now)
      else
        state.flushAndEnd task conversation (recoveredSession recovered lastActivity) .recovery

/-- Record the start of a session and put it into the map. -/
def openSession (state : State) (task : Nat) (conversation : ConversationId) (id : SessionId)
    (now : Timestamp) (tail : Option (TurnId × Nat)) : State :=
  (state.append now [.sessionStarted conversation id now (tail.map (·.1))]).join task conversation
    { id
      startedAt := now
      lastActivity := now
      startSeq := (tail.map (·.2)).getD (state.log.length + 1)
      sessionStartSeq := state.log.length + 1 }

/-! ### The sweeps -/

/-- The activity the idle sweep judges a candidate by. -/
def sweptActivity (state : State) (conversation : ConversationId) (recovered : SessionView) :
    Timestamp :=
  ((state.live conversation).map (·.lastActivity)).getD
    (state.recoveredActivity conversation recovered)

/-- Take a candidate out of the map, or rebuild it, and close it. -/
def claim (state : State) (task : Nat) (conversation : ConversationId) (recovered : SessionView)
    (lastActivity : Timestamp) : State :=
  match (state.live conversation).filter fun session => session.id = recovered.id with
  | some session => (state.setLive conversation none).flushAndEnd task conversation session .idle
  | none =>
    state.flushAndEnd task conversation (recoveredSession recovered lastActivity) .idle

/-- The seq up to which a session has been flushed. -/
def watermark (state : State) (conversation : ConversationId) (session : OpenSession) : Nat :=
  flushedUpTo (state.buffer conversation session) session.sessionStartSeq

/-- The unflushed part of a session's buffer. -/
def delta (state : State) (conversation : ConversationId) (session : OpenSession) :
    List TurnView :=
  (state.buffer conversation session).dropWhile fun turn =>
    turn.seq ≤ state.watermark conversation session

/-- The instant the gates of a checkpoint measure from: of the last flush, or of the start. -/
def anchor (state : State) (conversation : ConversationId) (session : OpenSession) : Timestamp :=
  (((state.buffer conversation session).find? fun turn =>
    turn.seq = state.watermark conversation session).map (·.recordedAt)).getD session.startedAt

/-- The gates of a checkpoint pass: there is enough to save, and by the timer also a cooldown
has passed and another conversation has been active since. -/
def CheckpointDue (state : State) (conversation : ConversationId) (session : OpenSession)
    (trigger : CheckpointTrigger) (now : Timestamp) : Prop :=
  state.settings.minDeltaChars ≤
      ((((state.delta conversation session).filter fun turn => turn.role ≠ .system).map
        (·.text.length)).sum : Int) ∧
    (trigger.appliesCooldownAndAudience = true →
      state.settings.cooldownMillis ≤
          now.millis - (state.anchor conversation session).millis ∧
        ∃ other session', other ≠ conversation ∧ state.live other = some session' ∧
          (state.anchor conversation session).millis ≤ session'.lastActivity.millis)

end State

/-! ### Steps -/

/-- What a finished turn leaves: nothing, when it was deferred or superseded, or a reply, and
the size of its largest prompt where one was reported. -/
inductive Finish where
  | withheld
  | completed (reply : Option (TurnId × String × Option ProducedBy)) (observed : Option Nat)

/-- The steps that move one task and touch nothing else. -/
inductive Quiet (state : State) : Option Place → Option Place → Prop
  | arrived (conversation : ConversationId) : Quiet state none (some (.queued conversation))
  | admitted {conversation : ConversationId}
      (free : ¬ state.tasks.Has (Place.HoldsSlot conversation)) :
      Quiet state (some (.queued conversation)) (some (.admitted conversation))
  | listed {conversation : ConversationId} {recovered : SessionView} (now : Timestamp)
      (candidate : lastOpenSession state.log conversation = some recovered) :
      Quiet state none (some (.listed conversation recovered now))
  | idle {conversation : ConversationId} {recovered : SessionView} {now : Timestamp}
      (silent : state.withinGap now (state.sweptActivity conversation recovered) = false) :
      Quiet state (some (.listed conversation recovered now))
        (some (.claiming conversation recovered (state.sweptActivity conversation recovered)))
  | picked {conversation : ConversationId} {session : OpenSession} (trigger : CheckpointTrigger)
      (now : Timestamp) (enabled : state.settings.checkpointEnabled = true)
      (own : trigger.skips conversation = false)
      (live : state.live conversation = some session) :
      Quiet state none (some (.picked conversation session trigger now))
  | due {conversation : ConversationId} {session : OpenSession} {trigger : CheckpointTrigger}
      {now : Timestamp} (waits : ¬ state.HasAdmittedTurn conversation)
      (due : state.CheckpointDue conversation session trigger now) :
      Quiet state (some (.picked conversation session trigger now))
        (some (.awaiting conversation session trigger now))
  | left (place : Place) : Quiet state (some place) none

/-- What a step does. -/
inductive Act where
  | quiet (task : Nat)
  | entered (task : Nat) (now : Timestamp)
  | opened (task : Nat) (id : SessionId) (now : Timestamp)
  | inbound (task : Nat) (now : Timestamp)
      (messages : List (TurnId × MemoryId × String × List Attachment))
  | recorded (task : Nat) (now : Timestamp) (payload : TurnPayload)
  | finished (task : Nat) (now : Timestamp) (finish : Finish)
  | claimed (task : Nat)
  | checkpointed (task : Nat)
  | replied (task : Nat) (now : Timestamp) (reply : Option (TurnId × String × ProducedBy))
  | ended (task : Nat) (now : Timestamp)
  | forced (task : Nat) (conversation : ConversationId)
  | noted (now : Timestamp) (payload : TurnPayload)
  | restarted
  | configured (settings : Settings)

/-- The turns of a batch's messages. -/
def inboundTurns (conversation : ConversationId) (session : SessionId)
    (messages : List (TurnId × MemoryId × String × List Attachment)) : List SessionPayload :=
  messages.map fun (turnId, participant, text, attachments) =>
    .turn session (.conversationTurn conversation turnId .participant text (some participant) none
      attachments)

/-- The turn of the agent's reply, of a turn or of a flush. -/
def agentTurn (conversation : ConversationId) (session : SessionId) (turnId : TurnId)
    (text : String) (producedBy : Option ProducedBy) : SessionPayload :=
  .turn session (.conversationTurn conversation turnId .agent text none producedBy [])

/-- One step of the tasks, between two awaits. -/
inductive Step : State → Act → State → Prop
  | quiet {state : State} {task : Nat} {place : Option Place}
      (moves : Quiet state (state.tasks task) place) :
      Step state (.quiet task) (state.move task place)
  | entered {state : State} {task : Nat} {conversation : ConversationId} (now : Timestamp)
      (here : state.tasks task = some (.admitted conversation))
      (free : ¬ state.tasks.Has (Place.HoldsLock conversation)) :
      Step state (.entered task now) (state.ensureSession task conversation now)
  | opened {state : State} {task : Nat} {conversation : ConversationId}
      {tail : Option (TurnId × Nat)} {id : SessionId} (now : Timestamp)
      (here : state.tasks task = some (.composing conversation tail))
      (fresh : isStarted state.log id = false ∧ isEnded state.log id = false) :
      Step state (.opened task id now) (state.openSession task conversation id now tail)
  | inbound {state : State} {task : Nat} {conversation : ConversationId} {session : OpenSession}
      (now : Timestamp) (messages : List (TurnId × MemoryId × String × List Attachment))
      (here : state.tasks task = some (.joined conversation session)) :
      Step state (.inbound task now messages)
        ((state.append now (inboundTurns conversation session.id messages)).move task
          (some (.running conversation session)))
  | recorded {state : State} {task : Nat} {conversation : ConversationId} {session : OpenSession}
      (now : Timestamp) {payload : TurnPayload}
      (here : state.tasks task = some (.running conversation session) ∨
        ∃ purpose, state.tasks task = some (.flushing conversation session purpose))
      (unspoken : spokenIn payload = none ∧ isFlushTurn payload = false) :
      Step state (.recorded task now payload) (state.append now [.turn session.id payload])
  | withheld {state : State} {task : Nat} {conversation : ConversationId} {session : OpenSession}
      (now : Timestamp) (here : state.tasks task = some (.running conversation session)) :
      Step state (.finished task now .withheld) (state.move task none)
  | completed {state after : State} {task : Nat} {conversation : ConversationId}
      {session : OpenSession} (now : Timestamp)
      {reply : Option (TurnId × String × Option ProducedBy)} {observed : Option Nat}
      (here : state.tasks task = some (.running conversation session))
      (ordinary : ∀ turn ∈ reply, turn.2.2.any isFlush = false)
      (recorded : after = state.append now (reply.toList.map fun (turnId, text, producedBy) =>
        agentTurn conversation session.id turnId text producedBy)) :
      Step state (.finished task now (.completed reply observed))
        (if observed.any fun tokens => state.settings.tokenBudget < tokens then
          after.endForCompaction task conversation .budget
        else after.move task none)
  | claimed {state : State} {task : Nat} {conversation : ConversationId} {recovered : SessionView}
      {lastActivity : Timestamp}
      (here : state.tasks task = some (.claiming conversation recovered lastActivity))
      (free : ¬ state.tasks.Has (Place.HoldsLock conversation))
      (stands : sessionIsOpen state.log recovered.id = true) :
      Step state (.claimed task) (state.claim task conversation recovered lastActivity)
  | checkpointed {state : State} {task : Nat} {conversation : ConversationId}
      {session current : OpenSession} {trigger : CheckpointTrigger} {now : Timestamp}
      (here : state.tasks task = some (.awaiting conversation session trigger now))
      (free : ¬ state.tasks.Has (Place.HoldsLock conversation))
      (live : state.live conversation = some current) (same : current.id = session.id)
      (waits : ¬ state.HasAdmittedTurn conversation)
      (due : state.CheckpointDue conversation session trigger now) :
      Step state (.checkpointed task)
        { state.move task (some (.flushing conversation session .checkpoint)) with
          handed := state.handed ++ [⟨session.id, state.delta conversation session⟩] }
  | replied {state : State} {task : Nat} {conversation : ConversationId} {session : OpenSession}
      {purpose : Purpose} (now : Timestamp) {reply : Option (TurnId × String × ProducedBy)}
      (here : state.tasks task = some (.flushing conversation session purpose))
      (flush : ∀ turn ∈ reply, isFlush turn.2.2 = true) :
      Step state (.replied task now reply)
        ((state.append now (reply.toList.map fun (turnId, text, producedBy) =>
          agentTurn conversation session.id turnId text (some producedBy))).move task
            (match purpose with
            | .checkpoint => none
            | .closing closing => some (.ending conversation session closing)))
  | ended {state : State} {task : Nat} {conversation : ConversationId} {session : OpenSession}
      {closing : Closing} (now : Timestamp)
      (here : state.tasks task = some (.ending conversation session closing)) :
      Step state (.ended task now)
        ((state.append now [.sessionEnded conversation session.id closing.cause]).afterClose task
          conversation closing)
  | forced {state : State} {task : Nat} (conversation : ConversationId)
      (new : state.tasks task = none) :
      Step state (.forced task conversation) (state.endForCompaction task conversation .forced)
  | noted {state : State} (now : Timestamp) {payload : TurnPayload}
      (unspoken : spokenIn payload = none ∧ isFlushTurn payload = false) :
      Step state (.noted now payload) (state.append now [.note payload])
  | restarted {state : State} :
      Step state .restarted { state with live := fun _ => none, tasks := fun _ => none }
  | configured {state : State} (settings : Settings) :
      Step state (.configured settings) { state with settings }

end Zuihitsu.Session
