/-
# The sessions of a log

The boundaries of a conversation's sessions and the turns between them, as the log
has them. Each turn carries the session of the task that recorded it, which the
payload itself does not. What the graph shows of the sessions is read here off the
log: which were started, and which of those have not ended.
-/

import Mathlib.Data.List.Basic
import Zuihitsu.Turn.Seam

namespace Zuihitsu.Session

open Zuihitsu.Core Zuihitsu.Turn

/-! ### Events -/

/-- The payloads a session's lifecycle writes and reads. -/
inductive SessionPayload where
  | sessionStarted (conversation : ConversationId) (id : SessionId) (startedAt : Timestamp)
      (seededFromTurn : Option TurnId)
  | sessionEnded (conversation : ConversationId) (id : SessionId) (cause : SessionEndCause)
  | turn (session : SessionId) (payload : TurnPayload)
  | note (payload : TurnPayload)
  deriving DecidableEq

/-- A recorded event. -/
structure SessionEvent where
  seq : Nat
  recordedAt : Timestamp
  payload : SessionPayload
  deriving DecidableEq

/-- The payload the replay of a conversation reads. -/
def SessionPayload.turnPayload : SessionPayload → TurnPayload
  | turn _ payload | note payload => payload
  | sessionStarted _ _ _ _ | sessionEnded _ _ _ => .other

/-- The event the replay of a conversation reads. -/
def SessionEvent.turnEvent (event : SessionEvent) : TurnEvent :=
  ⟨event.seq, event.recordedAt, event.payload.turnPayload⟩

/-- The log the buffers are read from. -/
def turnLog (log : List SessionEvent) : List TurnEvent := log.map SessionEvent.turnEvent

/-- The conversation a participant or the agent speaks in. -/
def spokenIn : TurnPayload → Option ConversationId
  | .conversationTurn conversation _ role _ _ _ _ =>
    if role = .system then none else some conversation
  | _ => none

/-- A turn the agent wrote in a flush. -/
def isFlushTurn : TurnPayload → Bool
  | .conversationTurn _ _ _ _ _ producedBy _ => producedBy.any isFlush
  | _ => false

/-- Append payloads to a log. -/
def record (log : List SessionEvent) (now : Timestamp) : List SessionPayload → List SessionEvent
  | [] => log
  | payload :: rest => record (log ++ [⟨log.length + 1, now, payload⟩]) now rest

/-! ### The sessions -/

/-- A session's row, by its start. -/
structure SessionView where
  id : SessionId
  startedAt : Timestamp
  startSeq : Nat
  seeded : Bool
  deriving DecidableEq

/-- The row an event starts in a conversation. -/
def starts (conversation : ConversationId) (event : SessionEvent) : Option SessionView :=
  match event.payload with
  | .sessionStarted startedIn id startedAt seededFromTurn =>
    if startedIn = conversation then some ⟨id, startedAt, event.seq, seededFromTurn.isSome⟩
    else none
  | _ => none

/-- An event ends a session. -/
def endsSession (id : SessionId) (event : SessionEvent) : Bool :=
  match event.payload with
  | .sessionEnded _ ended _ => ended = id
  | _ => false

/-- An event starts a session. -/
def startsSession (id : SessionId) (event : SessionEvent) : Bool :=
  match event.payload with
  | .sessionStarted _ started _ _ => started = id
  | _ => false

/-- The sessions of a conversation, oldest first. -/
def sessionsOf (log : List SessionEvent) (conversation : ConversationId) : List SessionView :=
  log.filterMap (starts conversation)

def isEnded (log : List SessionEvent) (id : SessionId) : Bool := log.any (endsSession id)

def isStarted (log : List SessionEvent) (id : SessionId) : Bool := log.any (startsSession id)

/-- `session_is_open`. -/
def sessionIsOpen (log : List SessionEvent) (id : SessionId) : Bool :=
  isStarted log id && !isEnded log id

/-- The sessions of a conversation that have not ended. -/
def openSessions (log : List SessionEvent) (conversation : ConversationId) : List SessionView :=
  (sessionsOf log conversation).filter fun view => !isEnded log view.id

/-- `last_open_session`. -/
def lastOpenSession (log : List SessionEvent) (conversation : ConversationId) :
    Option SessionView := (openSessions log conversation).getLast?

/-- `last_session_start`. -/
def lastSessionStart (log : List SessionEvent) (conversation : ConversationId) : Option Nat :=
  (sessionsOf log conversation).getLast?.map (·.startSeq)

section Reading

variable {log more : List SessionEvent} {event : SessionEvent} {conversation : ConversationId}
variable {view : SessionView} {id : SessionId} {now : Timestamp}

theorem mem_openSessions :
    view ∈ openSessions log conversation ↔
      view ∈ sessionsOf log conversation ∧ isEnded log view.id = false := by
  simp [openSessions]

theorem sessionsOf_append :
    sessionsOf (log ++ more) conversation =
      sessionsOf log conversation ++ sessionsOf more conversation := List.filterMap_append

theorem isEnded_append : isEnded (log ++ more) id = (isEnded log id || isEnded more id) :=
  List.any_append

theorem isStarted_append : isStarted (log ++ more) id = (isStarted log id || isStarted more id) :=
  List.any_append

theorem mem_sessionsOf :
    view ∈ sessionsOf log conversation ↔ ∃ event ∈ log, starts conversation event = some view := by
  simp [sessionsOf]

theorem isStarted_of_mem (member : view ∈ sessionsOf log conversation) :
    isStarted log view.id = true := by
  obtain ⟨event, recorded, started⟩ := mem_sessionsOf.mp member
  refine List.any_eq_true.mpr ⟨event, recorded, ?_⟩
  unfold starts at started
  split at started
  · rename_i payload
    split at started
    · cases started
      simp [startsSession, payload]
    · cases started
  · cases started

/-- A payload starts a session. -/
def isStart : SessionPayload → Bool
  | .sessionStarted _ _ _ _ => true
  | .sessionEnded _ _ _ | .turn _ _ | .note _ => false

/-- A payload starts or ends a session. -/
def isBoundary : SessionPayload → Bool
  | .sessionStarted _ _ _ _ | .sessionEnded _ _ _ => true
  | .turn _ _ | .note _ => false

theorem starts_eq_none (silent : isStart event.payload = false) :
    starts conversation event = none := by
  unfold starts
  split
  · rename_i payload
    simp [isStart, payload] at silent
  · rfl

theorem sessionsOf_concat (silent : isStart event.payload = false) :
    sessionsOf (log ++ [event]) conversation = sessionsOf log conversation := by
  simp [sessionsOf, starts_eq_none silent]

theorem openSessions_subset (silent : isStart event.payload = false) :
    openSessions (log ++ [event]) conversation ⊆ openSessions log conversation := by
  intro view member
  rw [mem_openSessions, sessionsOf_concat silent, isEnded_append, Bool.or_eq_false_iff] at member
  exact mem_openSessions.mpr ⟨member.1, member.2.1⟩

theorem isStart_of_isBoundary {payload : SessionPayload} (inside : isBoundary payload = false) :
    isStart payload = false := by
  cases payload with
  | sessionStarted | sessionEnded => simp [isBoundary] at inside
  | turn | note => rfl

theorem isEnded_concat (inside : isBoundary event.payload = false) :
    isEnded (log ++ [event]) id = isEnded log id := by
  have silent : endsSession id event = false := by
    unfold endsSession
    split
    · rename_i payload
      simp [isBoundary, payload] at inside
    · rfl
  simp [isEnded, silent]

theorem isStarted_concat (inside : isBoundary event.payload = false) :
    isStarted (log ++ [event]) id = isStarted log id := by
  have silent : startsSession id event = false := by
    unfold startsSession
    split
    · rename_i payload
      simp [isBoundary, payload] at inside
    · rfl
  simp [isStarted, silent]

theorem openSessions_concat (inside : isBoundary event.payload = false) :
    openSessions (log ++ [event]) conversation = openSessions log conversation := by
  simp [openSessions, sessionsOf_concat (isStart_of_isBoundary inside), isEnded_concat inside]

theorem sessionIsOpen_concat (inside : isBoundary event.payload = false) :
    sessionIsOpen (log ++ [event]) id = sessionIsOpen log id := by
  rw [sessionIsOpen, isStarted_concat inside, isEnded_concat inside, sessionIsOpen]

theorem sessionIsOpen_ended {cause : SessionEndCause} {endedIn : ConversationId}
    {other : SessionId} (payload : event.payload = .sessionEnded endedIn id cause)
    (apart : other ≠ id) : sessionIsOpen (log ++ [event]) other = sessionIsOpen log other := by
  have starts : startsSession other event = false := by simp [startsSession, payload]
  have ends : endsSession other event = false := by
    simp [endsSession, payload, Ne.symm apart]
  simp [sessionIsOpen, isStarted, isEnded, starts, ends]

theorem sessionIsOpen_started {startedIn : ConversationId} {startedAt : Timestamp}
    {seededFromTurn : Option TurnId} {other : SessionId}
    (payload : event.payload = .sessionStarted startedIn id startedAt seededFromTurn)
    (isOpen : sessionIsOpen log other = true) : sessionIsOpen (log ++ [event]) other = true := by
  have ends : endsSession other event = false := by simp [endsSession, payload]
  rw [sessionIsOpen, Bool.and_eq_true] at isOpen
  simp only [isStarted, isEnded, Bool.not_eq_true'] at isOpen
  simp [sessionIsOpen, isStarted, isEnded, ends, isOpen.1, isOpen.2]

theorem openSessions_ended {cause : SessionEndCause} {endedIn : ConversationId}
    (payload : event.payload = .sessionEnded endedIn id cause) :
    openSessions (log ++ [event]) conversation =
      (openSessions log conversation).filter fun view => view.id ≠ id := by
  have ends : ∀ other, isEnded (log ++ [event]) other = (isEnded log other || decide (id = other)) := by
    intro other
    simp [isEnded, endsSession, payload]
  rw [openSessions, openSessions, List.filter_filter]
  rw [sessionsOf_concat (by rw [payload]; rfl)]
  refine List.filter_congr fun view _ => ?_
  rw [ends]
  by_cases here : id = view.id <;> simp [here, eq_comm]

theorem openSessions_started {startedIn : ConversationId} {startedAt : Timestamp}
    {seededFromTurn : Option TurnId} (fresh : isEnded log id = false)
    (payload : event.payload = .sessionStarted startedIn id startedAt seededFromTurn) :
    openSessions (log ++ [event]) conversation =
      openSessions log conversation ++
        if startedIn = conversation then [⟨id, startedAt, event.seq, seededFromTurn.isSome⟩]
        else [] := by
  have ends : ∀ other, isEnded (log ++ [event]) other = isEnded log other := by
    intro other
    simp [isEnded, endsSession, payload]
  rw [openSessions, sessionsOf_append, List.filter_append]
  congr 1
  · exact List.filter_congr fun view _ => by rw [ends]
  · by_cases here : startedIn = conversation <;>
      simp [sessionsOf, starts, payload, here, ends, fresh]

end Reading

/-! ### Logs that are well bracketed -/

/-- Where an event may stand after a log. A session starts when no other of its conversation is
open, and under a new name; one that ends is open; and what a participant or the agent
contributes comes while the session it ran in is open. -/
def Fits (log : List SessionEvent) : SessionPayload → Prop
  | .sessionStarted conversation id _ _ =>
    openSessions log conversation = [] ∧ isStarted log id = false
  | .sessionEnded conversation id _ => ∃ view ∈ openSessions log conversation, view.id = id
  | .turn session payload =>
    ∀ conversation, spokenIn payload = some conversation →
      ∃ view ∈ openSessions log conversation, view.id = session
  | .note payload => spokenIn payload = none

/-- Every event fits what came before it. -/
def Bracketed (log : List SessionEvent) : Prop :=
  ∀ before event after, log = before ++ event :: after → Fits before event.payload

theorem bracketed_nil : Bracketed [] := by
  intro before event after split
  cases before <;> cases split

theorem bracketed_concat {log : List SessionEvent} {event : SessionEvent} :
    Bracketed (log ++ [event]) ↔ Bracketed log ∧ Fits log event.payload := by
  constructor
  · intro bracketed
    refine ⟨fun before inner after split => ?_, bracketed log event [] rfl⟩
    exact bracketed before inner (after ++ [event]) (by simp [split])
  · rintro ⟨bracketed, fits⟩ before inner after split
    rcases List.eq_nil_or_concat after with rfl | ⟨rest, last, rfl⟩
    · -- the event itself
      have ⟨same, here⟩ := List.append_inj' split rfl
      cases here
      exact same ▸ fits
    · have whole : log ++ [event] = (before ++ inner :: rest) ++ [last] := by
        rw [split, List.concat_eq_append, List.append_assoc, List.cons_append]
      exact bracketed before inner rest (List.append_inj' whole rfl).1

end Zuihitsu.Session
