/-
# The turn ledger

Every inbound batch of a conversation takes a ticket, is admitted to a turn in the
order of arrival, and leaves. The ledger keeps one entry a conversation: the
epoch being served, the level that tells a running turn of newer batches, the
counts of holders, and the arrivals no completed turn has answered yet. The entry
goes when its last holder leaves, and a later batch makes a new one, with new
watch channels; a ticket or a handle reads the channels it subscribed to.
-/

import Zuihitsu.Core.Temporal
import Zuihitsu.Library.Counter

namespace Zuihitsu.Turn

open Zuihitsu.Core Zuihitsu.Library

/-- A span of time, in nanoseconds. -/
structure Duration where
  nanos : Nat
  deriving DecidableEq, Repr, Inhabited

namespace Duration

/-- Whether the span is empty. -/
def isZero (span : Duration) : Bool := span.nanos = 0

/-- The whole milliseconds of the span. -/
def asMillis (span : Duration) : Nat := span.nanos / 1_000_000

/-- The milliseconds as the signed 64-bit integer they are cast to. -/
def asMillisSigned (span : Duration) : Int := (span.asMillis : Int).bmod (2 ^ 64)

theorem asMillisSigned_le (span : Duration) : span.asMillisSigned ≤ span.asMillis := by
  have wraps := @Int.bmod_le (span.asMillis : Int) (2 ^ 64) (by decide)
  have same := Int.emod_add_mul_ediv (span.asMillis : Int) (2 ^ 64)
  unfold asMillisSigned
  rw [Int.bmod_def]
  split <;> omega

end Duration

/-- One unanswered arrival. -/
structure Arrival where
  epoch : Nat
  arrivedAt : Timestamp
  deriving DecidableEq, Repr

/-- One conversation's shared turn state. `channel` tells the watch channels of this
entry from those of an earlier one. -/
structure ConversationTurns where
  channel : Nat
  serving : Nat := 0
  supersede : Nat := 0
  nextEpoch : Nat := 0
  outstanding : Nat := 0
  admitted : Nat := 0
  finished : Finset Nat := ∅
  arrivals : List Arrival := []
  deriving DecidableEq

/-- The entries by conversation, and how many have been made. -/
structure TurnLedger where
  conversations : ConversationId → Option ConversationTurns := fun _ => none
  made : Nat := 0

/-- A batch's claim on its conversation's next turn. -/
structure TurnTicket where
  conversation : ConversationId
  channel : Nat
  epoch : Nat
  arrivedAt : Timestamp
  deriving DecidableEq, Repr

/-- An admitted turn's hold on its conversation. -/
structure TurnAdmission where
  conversation : ConversationId
  channel : Nat
  epoch : Nat
  burstStartedAt : Timestamp
  window : Duration
  deriving DecidableEq, Repr

/-- A turn's view of its conversation's supersession signal. -/
structure Supersession where
  conversation : ConversationId
  channel : Nat
  epoch : Nat
  burstStartedAt : Timestamp
  window : Duration
  armed : Bool
  deriving DecidableEq, Repr

/-- How a holder left the slot. -/
inductive Exit where
  | ticket
  | admission (superseded : Bool)
  deriving DecidableEq, Repr

/-- Whether the exit is a superseded turn's. -/
def Exit.isSuperseded : Exit → Bool
  | .admission superseded => superseded
  | .ticket => false

/-- Whether the exit is an admitted turn's. -/
def Exit.wasAdmitted : Exit → Bool
  | .admission _ => true
  | .ticket => false

namespace ConversationTurns

/-- The entry's counter. -/
def counter (entry : ConversationTurns) : Counter :=
  ⟨entry.serving, entry.nextEpoch, entry.finished⟩

/-- A batch joins the line. -/
def join (entry : ConversationTurns) (now : Timestamp) : ConversationTurns :=
  { entry with
    nextEpoch := entry.nextEpoch + 1
    outstanding := entry.outstanding + 1
    arrivals := entry.arrivals ++ [⟨entry.nextEpoch, now⟩]
    supersede := entry.nextEpoch }

/-- The counter moves past a holder that leaves, or remembers that it left early. -/
def advance (entry : ConversationTurns) (epoch : Nat) : ConversationTurns :=
  if entry.serving = epoch then
    let drained := drain entry.finished (epoch + 1)
    { entry with serving := drained.1, finished := drained.2 }
  else { entry with finished := insert epoch entry.finished }

/-- The counts without a holder. -/
def discount (entry : ConversationTurns) (how : Exit) : ConversationTurns :=
  { entry with
    outstanding := entry.outstanding - 1
    admitted := if how.wasAdmitted then entry.admitted - 1 else entry.admitted }

/-- What an exit leaves of the entry, while holders remain. -/
def leave (entry : ConversationTurns) (epoch : Nat) (how : Exit) : ConversationTurns :=
  let advanced := (entry.discount how).advance epoch
  -- a superseded turn's arrival still anchors the burst
  if how.isSuperseded then advanced
  else { advanced with arrivals := advanced.arrivals.filter fun arrival => epoch < arrival.epoch }

/-- A turn takes the slot. -/
def enter (entry : ConversationTurns) : ConversationTurns :=
  { entry with admitted := entry.admitted + 1 }

/-- The arrival of the oldest batch not answered, or the admitted batch's own. -/
def burstStart (entry : ConversationTurns) (own : Timestamp) : Timestamp :=
  (entry.arrivals.head?.map (·.arrivedAt)).getD own

section Fields

variable {entry : ConversationTurns} {now : Timestamp} {epoch : Nat} {how : Exit}

@[simp] theorem counter_join : (entry.join now).counter = entry.counter.take := rfl

@[simp] theorem counter_enter : entry.enter.counter = entry.counter := rfl

@[simp] theorem advance_channel : (entry.advance epoch).channel = entry.channel := by
  unfold advance
  split <;> rfl

@[simp] theorem advance_outstanding : (entry.advance epoch).outstanding = entry.outstanding := by
  unfold advance
  split <;> rfl

@[simp] theorem advance_admitted : (entry.advance epoch).admitted = entry.admitted := by
  unfold advance
  split <;> rfl

@[simp] theorem advance_supersede : (entry.advance epoch).supersede = entry.supersede := by
  unfold advance
  split <;> rfl

@[simp] theorem advance_nextEpoch : (entry.advance epoch).nextEpoch = entry.nextEpoch := by
  unfold advance
  split <;> rfl

@[simp] theorem advance_arrivals : (entry.advance epoch).arrivals = entry.arrivals := by
  unfold advance
  split <;> rfl

theorem counter_advance : (entry.advance epoch).counter = entry.counter.leave epoch := by
  unfold advance Counter.leave counter
  split <;> rfl

@[simp] theorem leave_channel : (entry.leave epoch how).channel = entry.channel := by
  unfold leave
  split <;> simp [discount]

@[simp] theorem leave_outstanding :
    (entry.leave epoch how).outstanding = entry.outstanding - 1 := by
  unfold leave
  split <;> simp [discount]

@[simp] theorem leave_admitted :
    (entry.leave epoch how).admitted =
      if how.wasAdmitted then entry.admitted - 1 else entry.admitted := by
  unfold leave
  split <;> simp [discount]

@[simp] theorem leave_supersede : (entry.leave epoch how).supersede = entry.supersede := by
  unfold leave
  split <;> simp [discount]

@[simp] theorem leave_nextEpoch : (entry.leave epoch how).nextEpoch = entry.nextEpoch := by
  unfold leave
  split <;> simp [discount]

theorem counter_leave : (entry.leave epoch how).counter = entry.counter.leave epoch := by
  unfold leave
  split
  · exact counter_advance
  · exact counter_advance

theorem leave_serving (ahead : entry.serving ≠ epoch) :
    (entry.leave epoch how).serving = entry.serving := by
  have stays : ((entry.discount how).advance epoch).serving = entry.serving := by
    unfold advance
    rw [if_neg (show (entry.discount how).serving ≠ epoch from ahead)]
    rfl
  unfold leave
  split
  · exact stays
  · exact stays

theorem leave_arrivals :
    (entry.leave epoch how).arrivals =
      if how.isSuperseded then entry.arrivals
      else entry.arrivals.filter fun arrival => epoch < arrival.epoch := by
  unfold leave
  split <;> simp [discount]

end Fields

end ConversationTurns

namespace TurnLedger

/-- Put a conversation's entry in the map, or remove it. -/
def put (ledger : TurnLedger) (conversation : ConversationId) (entry : Option ConversationTurns) :
    TurnLedger :=
  { ledger with
    conversations := fun other =>
      if other = conversation then entry else ledger.conversations other }

/-- The entry of a conversation, made when there is none, with the ledger that holds it. -/
def entryOrNew (ledger : TurnLedger) (conversation : ConversationId) :
    TurnLedger × ConversationTurns :=
  match ledger.conversations conversation with
  | some entry => (ledger, entry)
  | none => ({ ledger with made := ledger.made + 1 }, { channel := ledger.made })

/-- Register a newly arrived batch. -/
def arrive (ledger : TurnLedger) (conversation : ConversationId) (now : Timestamp) :
    TurnLedger × TurnTicket :=
  let (ledger, entry) := ledger.entryOrNew conversation
  (ledger.put conversation (some (entry.join now)),
    ⟨conversation, entry.channel, entry.nextEpoch, now⟩)

/-- Whether a conversation has an admitted turn that has not exited. -/
def hasAdmittedTurn (ledger : TurnLedger) (conversation : ConversationId) : Bool :=
  (ledger.conversations conversation).any fun entry => 0 < entry.admitted

/-- The shared exit of every holder. -/
def exit (ledger : TurnLedger) (conversation : ConversationId) (epoch : Nat) (how : Exit) :
    TurnLedger :=
  match ledger.conversations conversation with
  | none => ledger
  | some entry =>
    let left := entry.leave epoch how
    ledger.put conversation (if left.outstanding = 0 then none else some left)

/-- The entry whose channels were subscribed to, while it is in the map. -/
def subscribed (ledger : TurnLedger) (conversation : ConversationId) (channel : Nat) :
    Option ConversationTurns :=
  (ledger.conversations conversation).filter fun entry => entry.channel = channel

section Entries

variable {ledger : TurnLedger} {conversation other : ConversationId} {now : Timestamp}

@[simp] theorem put_same {entry : Option ConversationTurns} :
    (ledger.put conversation entry).conversations conversation = entry := if_pos rfl

theorem put_other {entry : Option ConversationTurns} (apart : other ≠ conversation) :
    (ledger.put conversation entry).conversations other = ledger.conversations other :=
  if_neg apart

theorem arrive_some {entry : ConversationTurns}
    (present : ledger.conversations conversation = some entry) :
    ledger.arrive conversation now =
      (ledger.put conversation (some (entry.join now)),
        ⟨conversation, entry.channel, entry.nextEpoch, now⟩) := by
  simp only [arrive, entryOrNew, present]

theorem arrive_none (absent : ledger.conversations conversation = none) :
    ledger.arrive conversation now =
      (({ ledger with made := ledger.made + 1 } : TurnLedger).put conversation
          (some (({ channel := ledger.made } : ConversationTurns).join now)),
        ⟨conversation, ledger.made, 0, now⟩) := by
  simp only [arrive, entryOrNew, absent]

theorem arrive_other (apart : other ≠ conversation) :
    (ledger.arrive conversation now).1.conversations other = ledger.conversations other := by
  cases present : ledger.conversations conversation with
  | some => rw [arrive_some present]; exact put_other apart
  | none => rw [arrive_none present]; exact put_other apart

theorem exit_some {entry : ConversationTurns} {epoch : Nat} {how : Exit}
    (present : ledger.conversations conversation = some entry) :
    (ledger.exit conversation epoch how).conversations conversation =
      if entry.outstanding - 1 = 0 then none else some (entry.leave epoch how) := by
  simp [exit, present]

theorem exit_other {epoch : Nat} {how : Exit} (apart : other ≠ conversation) :
    (ledger.exit conversation epoch how).conversations other = ledger.conversations other := by
  unfold exit
  split
  · rfl
  · exact put_other apart

@[simp] theorem exit_made {epoch : Nat} {how : Exit} :
    (ledger.exit conversation epoch how).made = ledger.made := by
  unfold exit
  split <;> rfl

theorem subscribed_eq_some {channel : Nat} {entry : ConversationTurns} :
    ledger.subscribed conversation channel = some entry ↔
      ledger.conversations conversation = some entry ∧ entry.channel = channel := by
  simp [subscribed, Option.filter_eq_some_iff]

end Entries

end TurnLedger

/-- Admit a ticket once the counter serves its epoch; until then it waits. -/
def TurnTicket.admits (ticket : TurnTicket) (ledger : TurnLedger) (window : Duration) :
    Option (TurnLedger × TurnAdmission) :=
  match ledger.subscribed ticket.conversation ticket.channel with
  | none => none
  | some entry =>
    if entry.serving = ticket.epoch then
      some (ledger.put ticket.conversation (some entry.enter),
        { conversation := ticket.conversation, channel := ticket.channel, epoch := ticket.epoch,
          burstStartedAt := entry.burstStart ticket.arrivedAt, window })
    else none

/-- The cancellation handle of an admitted turn. A zero window disarms it from birth. -/
def TurnAdmission.supersession (admission : TurnAdmission) : Supersession where
  conversation := admission.conversation
  channel := admission.channel
  epoch := admission.epoch
  burstStartedAt := admission.burstStartedAt
  window := admission.window
  armed := !admission.window.isZero

/-- Whether a newer batch has superseded the turn, with the handle after the check: past
the window it is disarmed for good. There is no answer once the channel is closed. -/
def Supersession.superseded (handle : Supersession) (ledger : TurnLedger) (now : Timestamp) :
    Option (Supersession × Bool) :=
  (ledger.subscribed handle.conversation handle.channel).map fun entry =>
    if handle.armed then
      -- instants are the date library's, whose range is far inside the machine's
      if handle.window.asMillisSigned < now.millis - handle.burstStartedAt.millis then
        ({ handle with armed := false }, false)
      else (handle, handle.epoch < entry.supersede)
    else (handle, false)

theorem TurnTicket.admits_eq_some {ticket : TurnTicket} {ledger after : TurnLedger}
    {window : Duration} {admission : TurnAdmission} :
    ticket.admits ledger window = some (after, admission) ↔
      ∃ entry, ledger.conversations ticket.conversation = some entry ∧
        entry.channel = ticket.channel ∧ entry.serving = ticket.epoch ∧
        after = ledger.put ticket.conversation (some entry.enter) ∧
        admission = ⟨ticket.conversation, ticket.channel, ticket.epoch,
          entry.burstStart ticket.arrivedAt, window⟩ := by
  unfold admits
  cases found : ledger.subscribed ticket.conversation ticket.channel with
  | none =>
    refine iff_of_false (fun impossible => nomatch impossible) ?_
    rintro ⟨entry, present, channel, _⟩
    rw [TurnLedger.subscribed_eq_some.mpr ⟨present, channel⟩] at found
    cases found
  | some entry =>
    obtain ⟨present, channel⟩ := TurnLedger.subscribed_eq_some.mp found
    dsimp only
    constructor
    · intro admitted
      split at admitted
      · rename_i serves
        cases admitted
        exact ⟨entry, present, channel, serves, rfl, rfl⟩
      · cases admitted
    · rintro ⟨other, present', _, serves, rfl, rfl⟩
      cases present.symm.trans present'
      rw [if_pos serves]

end Zuihitsu.Turn
