/-
# Debouncing

Messages that come to a channel in quick succession are handed on in one batch, once none has come
for a while: each call that submits a message starts a timer and aborts the one before it. An abort
reaches a timer only in its sleep, so an old one that is awake still takes the queue, also with a
message that came after it, and leaves the new timer nothing to take.
-/

import Zuihitsu.Library.Runs
import Zuihitsu.Library.Tasks

namespace Zuihitsu.Connector.Debounce

open Zuihitsu.Library

/-- What a channel's lock guards. -/
structure ChannelDebounce (μ φ : Type) where
  queue : List μ
  onFire : Option φ
  /-- the handle of the timer that was started last -/
  timer : Option Nat

/-- Where a timer is. -/
inductive Stage where
  | sleeping
  /-- past its sleep, before the lock or waiting for it -/
  | awake
  /-- under the lock -/
  | firing
  deriving DecidableEq, Repr

/-- Who holds a channel's lock, and how far it has come. -/
inductive Lock (μ φ : Type) where
  | free
  /-- a call that has queued its message, and then aborted the old timer -/
  | submitting (reset : Bool)
  /-- a timer that has taken the queue and the callback -/
  | firing (timer : Nat) (queue : List μ) (fire : Option φ)

/-- A channel, with the timers that were started for it, what was submitted to it and what was
passed to a callback. -/
structure Channel (μ φ : Type) extends ChannelDebounce μ φ where
  lock : Lock μ φ
  timers : Tasks Stage
  spawned : Nat
  submitted : List μ
  fired : List (φ × List μ)

/-- A channel before any message. -/
def Channel.empty {μ φ : Type} : Channel μ φ :=
  ⟨⟨[], none, none⟩, .free, fun _ => none, 0, [], []⟩

/-- What is done under a channel's lock or to its timers. -/
inductive Act (μ φ : Type) where
  | push (message : μ) (fire : φ)
  | reset
  | spawn
  | wake (timer : Nat)
  | take (timer : Nat)
  | fire (timer : Nat)

section Channel

variable {μ φ : Type}

/-- Abort a timer: it is gone if it sleeps, and goes on otherwise. -/
def abort (timers : Tasks Stage) : Option Nat → Tasks Stage
  | some timer => if timers timer = some .sleeping then timers.put timer none else timers
  | none => timers

/-- One step of a channel, or none where a lock or a timer does not let it happen. -/
def Channel.step (channel : Channel μ φ) : Act μ φ → Option (Channel μ φ)
  | .push message fire =>
    match channel.lock with
    | .free =>
      some { channel with
        queue := channel.queue ++ [message]
        onFire := some fire
        lock := .submitting false
        submitted := channel.submitted ++ [message] }
    | _ => none
  | .reset =>
    match channel.lock with
    | .submitting false =>
      some { channel with
        timer := none
        timers := abort channel.timers channel.timer
        lock := .submitting true }
    | _ => none
  | .spawn =>
    match channel.lock with
    | .submitting true =>
      some { channel with
        timer := some channel.spawned
        timers := channel.timers.put channel.spawned (some .sleeping)
        spawned := channel.spawned + 1
        lock := .free }
    | _ => none
  | .wake timer =>
    if channel.timers timer = some .sleeping then
      some { channel with timers := channel.timers.put timer (some .awake) }
    else none
  | .take timer =>
    if channel.timers timer = some .awake then
      match channel.lock with
      | .free =>
        some { channel with
          queue := []
          onFire := none
          timers := channel.timers.put timer (some .firing)
          lock := .firing timer channel.queue channel.onFire }
      | _ => none
    else none
  | .fire timer =>
    match channel.lock with
    | .firing holder queue fire =>
      if holder = timer then
        some { channel with
          timers := channel.timers.put timer none
          lock := .free
          -- without a callback the queue is dropped
          fired := match fire with
            | some fire => channel.fired ++ [(fire, queue)]
            | none => channel.fired }
      else none
    | _ => none

end Channel

/-! ### The channels together -/

/-- A call that holds the lock of the table of channels, from before it takes its channel's lock. -/
structure Call (κ μ φ : Type) where
  channel : κ
  message : μ
  fire : φ

structure State (κ μ φ : Type) where
  call : Option (Call κ μ φ)
  channels : κ → Channel μ φ

/-- No channel has had a message. -/
def State.empty {κ μ φ : Type} : State κ μ φ := ⟨none, fun _ => .empty⟩

inductive Action (κ μ φ : Type) where
  | submit (channel : κ) (message : μ) (fire : φ)
  | push
  | reset
  | spawn
  | wake (channel : κ) (timer : Nat)
  | take (channel : κ) (timer : Nat)
  | fire (channel : κ) (timer : Nat)

section System

variable {κ μ φ : Type} [DecidableEq κ]

/-- A step of one channel. -/
def State.at (state : State κ μ φ) (key : κ) (act : Act μ φ) : Option (State κ μ φ) :=
  ((state.channels key).step act).map fun channel =>
    { state with channels := Function.update state.channels key channel }

/-- One step of a call or of a timer. -/
def step (state : State κ μ φ) : Action κ μ φ → Option (State κ μ φ)
  | .submit channel message fire =>
    match state.call with
    | none => some { state with call := some ⟨channel, message, fire⟩ }
    | some _ => none
  | .push => state.call.bind fun call => state.at call.channel (.push call.message call.fire)
  | .reset => state.call.bind fun call => state.at call.channel .reset
  | .spawn => state.call.bind fun call =>
    (state.at call.channel .spawn).map fun after => { after with call := none }
  | .wake channel timer => state.at channel (.wake timer)
  | .take channel timer => state.at channel (.take timer)
  | .fire channel timer => state.at channel (.fire timer)

/-- The steps as a relation. -/
def Steps (before : State κ μ φ) (action : Action κ μ φ) (after : State κ μ φ) : Prop :=
  step before action = some after

end System

/-! ### One channel -/

section Channel

variable {μ φ : Type}

/-- What was passed to a callback. -/
def Channel.delivered (channel : Channel μ φ) : List μ := channel.fired.flatMap Prod.snd

/-- What the holder of the lock has taken and not yet passed on. -/
def Lock.taken : Lock μ φ → List μ
  | .firing _ queue _ => queue
  | _ => []

/-- A call is under the lock. -/
def Lock.Submits (lock : Lock μ φ) : Prop := ∃ reset, lock = .submitting reset

/-- A timer will still take the queue, unless it is aborted. -/
def Waits (stage : Option Stage) : Prop := stage = some .sleeping ∨ stage = some .awake

/-- What holds of a channel at all times. -/
structure Channel.Sound (channel : Channel μ φ) : Prop where
  order : channel.submitted = channel.delivered ++ channel.lock.taken ++ channel.queue
  callback : channel.onFire = none ↔ channel.queue = []
  carried : ∀ timer queue fire, channel.lock = .firing timer queue fire →
    channel.timers timer = some .firing ∧ (fire = none ↔ queue = [])
  nonempty : ∀ batch ∈ channel.fired, batch.2 ≠ []
  fresh : ∀ timer, channel.spawned ≤ timer → channel.timers timer = none
  live : channel.queue ≠ [] → channel.lock.Submits ∨
    ∃ timer, channel.timer = some timer ∧ Waits (channel.timers timer)

theorem Channel.sound_empty : (Channel.empty : Channel μ φ).Sound where
  order := rfl
  callback := ⟨fun _ => rfl, fun _ => rfl⟩
  carried := nofun
  nonempty := nofun
  fresh _ _ := rfl
  live queued := absurd rfl queued

theorem abort_of_ne {timers : Tasks Stage} {handle : Option Nat} {timer : Nat}
    (awake : timers timer ≠ some .sleeping) : abort timers handle timer = timers timer := by
  cases handle with
  | none => rfl
  | some =>
    rw [abort]
    split_ifs with sleeps
    · refine Tasks.put_other ?_
      rintro rfl
      exact awake sleeps
    · rfl

theorem abort_cases {timers : Tasks Stage} (handle : Option Nat) (timer : Nat) :
    abort timers handle timer = timers timer ∨ abort timers handle timer = none := by
  by_cases awake : timers timer = some .sleeping
  · cases handle with
    | none => exact .inl rfl
    | some other =>
      rw [abort]
      split_ifs with sleeps
      · by_cases same : timer = other
        · exact .inr (same ▸ Tasks.put_self)
        · exact .inl (Tasks.put_other same)
      · exact .inl rfl
  · exact .inl (abort_of_ne awake)

variable {channel after : Channel μ φ} {act : Act μ φ}

/-- What a step of a channel can do. -/
theorem Channel.step_cases (taken : channel.step act = some after) :
    (∃ message fire, act = .push message fire ∧ channel.lock = .free ∧
      after = { channel with
        queue := channel.queue ++ [message], onFire := some fire, lock := .submitting false,
        submitted := channel.submitted ++ [message] }) ∨
    (act = .reset ∧ channel.lock = .submitting false ∧
      after = { channel with
        timer := none, timers := abort channel.timers channel.timer, lock := .submitting true }) ∨
    (act = .spawn ∧ channel.lock = .submitting true ∧
      after = { channel with
        timer := some channel.spawned
        timers := channel.timers.put channel.spawned (some .sleeping)
        spawned := channel.spawned + 1, lock := .free }) ∨
    (∃ timer, act = .wake timer ∧ channel.timers timer = some .sleeping ∧
      after = { channel with timers := channel.timers.put timer (some .awake) }) ∨
    (∃ timer, act = .take timer ∧ channel.timers timer = some .awake ∧ channel.lock = .free ∧
      after = { channel with
        queue := [], onFire := none, timers := channel.timers.put timer (some .firing)
        lock := .firing timer channel.queue channel.onFire }) ∨
    (∃ timer queue fire, act = .fire timer ∧ channel.lock = .firing timer queue fire ∧
      after = { channel with
        timers := channel.timers.put timer none, lock := .free
        fired := match fire with
          | some fire => channel.fired ++ [(fire, queue)]
          | none => channel.fired }) := by
  cases act with
  | push message fire =>
    cases held : channel.lock <;> simp only [Channel.step, held] at taken <;> cases taken
    exact .inl ⟨message, fire, rfl, rfl, rfl⟩
  | reset =>
    cases held : channel.lock with
    | free | firing => simp [Channel.step, held] at taken
    | submitting reset =>
      cases reset <;> simp only [Channel.step, held] at taken <;> cases taken
      exact .inr (.inl ⟨rfl, rfl, rfl⟩)
  | spawn =>
    cases held : channel.lock with
    | free | firing => simp [Channel.step, held] at taken
    | submitting reset =>
      cases reset <;> simp only [Channel.step, held] at taken <;> cases taken
      exact .inr (.inr (.inl ⟨rfl, rfl, rfl⟩))
  | wake timer =>
    simp only [Channel.step, Option.ite_none_right_eq_some] at taken
    obtain ⟨sleeps, ⟨⟩⟩ := taken
    exact .inr (.inr (.inr (.inl ⟨timer, rfl, sleeps, rfl⟩)))
  | take timer =>
    simp only [Channel.step, Option.ite_none_right_eq_some] at taken
    obtain ⟨awake, taken⟩ := taken
    cases held : channel.lock <;> simp only [held] at taken <;> cases taken
    exact .inr (.inr (.inr (.inr (.inl ⟨timer, rfl, awake, rfl, rfl⟩))))
  | fire =>
    cases held : channel.lock with
    | free | submitting => simp [Channel.step, held] at taken
    | firing holder queue fire =>
      simp only [Channel.step, held, Option.ite_none_right_eq_some] at taken
      obtain ⟨rfl, ⟨⟩⟩ := taken
      exact .inr (.inr (.inr (.inr (.inr ⟨holder, queue, fire, rfl, rfl, rfl⟩))))

theorem Channel.Sound.step (sound : channel.Sound) (taken : channel.step act = some after) :
    after.Sound := by
  obtain ⟨message, fire, rfl, free, rfl⟩ | ⟨rfl, held, rfl⟩ | ⟨rfl, held, rfl⟩ |
    ⟨timer, rfl, sleeps, rfl⟩ | ⟨timer, rfl, awake, free, rfl⟩ |
    ⟨timer, queue, fire, rfl, held, rfl⟩ := Channel.step_cases taken
  case inl =>
    refine { sound with order := ?_, callback := by simp, carried := nofun, live := ?_ }
    · simp [sound.order, free, Lock.taken, Channel.delivered]
    · exact fun _ => .inl ⟨false, rfl⟩
  case inr.inl =>
    refine { sound with order := ?_, carried := nofun, fresh := ?_, live := ?_ }
    · simp [sound.order, held, Lock.taken, Channel.delivered]
    · intro timer beyond
      rcases abort_cases channel.timer timer with same | gone
      · exact same.trans (sound.fresh timer beyond)
      · exact gone
    · exact fun _ => .inl ⟨true, rfl⟩
  case inr.inr.inl =>
    refine { sound with order := ?_, carried := nofun, fresh := ?_, live := ?_ }
    · simp [sound.order, held, Lock.taken, Channel.delivered]
    · intro timer beyond
      exact (Tasks.put_other (Nat.ne_of_gt beyond)).trans (sound.fresh timer (Nat.le_of_lt beyond))
    · exact fun _ => .inr ⟨channel.spawned, rfl, .inl Tasks.put_self⟩
  case inr.inr.inr.inl =>
    have moved : ∀ other, channel.timers other ≠ some .sleeping →
        channel.timers.put timer (some .awake) other = channel.timers other := by
      intro other apart
      refine Tasks.put_other ?_
      rintro rfl
      exact apart sleeps
    refine { sound with carried := ?_, fresh := ?_, live := ?_ }
    · intro holder queue fire held
      obtain ⟨firing, both⟩ := sound.carried holder queue fire held
      exact ⟨(moved holder (by simp [firing])).trans firing, both⟩
    · intro other beyond
      have unborn := sound.fresh other beyond
      exact (moved other (by simp [unborn])).trans unborn
    · intro queued
      refine (sound.live queued).imp_right ?_
      rintro ⟨other, handle, waits⟩
      refine ⟨other, handle, ?_⟩
      by_cases same : other = timer
      · exact .inr (same ▸ Tasks.put_self)
      · exact waits.imp (Tasks.put_other same).trans (Tasks.put_other same).trans
  case inr.inr.inr.inr.inl =>
    refine ⟨?_, ⟨fun _ => rfl, fun _ => rfl⟩, ?_, sound.nonempty, ?_, fun queued => absurd rfl queued⟩
    · simp [sound.order, free, Lock.taken, Channel.delivered]
    · intro holder queue fire held
      cases held
      exact ⟨Tasks.put_self, sound.callback⟩
    · intro other beyond
      refine (Tasks.put_other ?_).trans (sound.fresh other beyond)
      rintro rfl
      rw [sound.fresh other beyond] at awake
      cases awake
  case inr.inr.inr.inr.inr =>
    obtain ⟨firing, both⟩ := sound.carried timer queue fire held
    have moved : ∀ other, channel.timers other ≠ some .firing →
        channel.timers.put timer none other = channel.timers other := by
      intro other apart
      refine Tasks.put_other ?_
      rintro rfl
      exact apart firing
    refine { sound with order := ?_, carried := nofun, nonempty := ?_, fresh := ?_, live := ?_ }
    · have order := sound.order
      cases fire with
      | none => simpa [held, Lock.taken, Channel.delivered, both.mp rfl] using order
      | some => simpa [held, Lock.taken, Channel.delivered] using order
    · cases fire with
      | none => exact sound.nonempty
      | some =>
        refine List.forall_mem_append.mpr ⟨sound.nonempty, List.forall_mem_singleton.mpr ?_⟩
        exact fun none => nomatch both.mpr none
    · intro other beyond
      have unborn := sound.fresh other beyond
      exact (moved other (by simp [unborn])).trans unborn
    · intro queued
      rcases sound.live queued with ⟨reset, submitting⟩ | ⟨other, handle, waits⟩
      · rw [held] at submitting
        cases submitting
      · refine .inr ⟨other, handle, ?_⟩
        have apart : channel.timers other ≠ some .firing := by
          rcases waits with same | same <;> simp [same]
        exact waits.imp (moved other apart).trans (moved other apart).trans

/-- What was passed to a callback or is about to be. -/
def Channel.passed (channel : Channel μ φ) : List μ := channel.delivered ++ channel.lock.taken

theorem Channel.Sound.grows (sound : channel.Sound) (taken : channel.step act = some after) :
    channel.submitted.length ≤ after.submitted.length ∧
      channel.passed.length ≤ after.passed.length ∧
      channel.delivered.length ≤ after.delivered.length := by
  obtain ⟨message, fire, rfl, free, rfl⟩ | ⟨rfl, held, rfl⟩ | ⟨rfl, held, rfl⟩ |
    ⟨timer, rfl, sleeps, rfl⟩ | ⟨timer, rfl, awake, free, rfl⟩ |
    ⟨timer, queue, fire, rfl, held, rfl⟩ := Channel.step_cases taken
  case inr.inr.inr.inr.inr =>
    have both := (sound.carried timer queue fire held).2
    cases fire with
    | none => simp [Channel.passed, Channel.delivered, held, Lock.taken, both.mp rfl]
    | some => simp [Channel.passed, Channel.delivered, held, Lock.taken]
  all_goals simp [Channel.passed, Channel.delivered, Lock.taken, *]

theorem Channel.Sound.step_awake (sound : channel.Sound) (taken : channel.step act = some after)
    {timer : Nat} (awake : channel.timers timer = some .awake) :
    after.timers timer = some .awake ∨ after.submitted.length ≤ after.passed.length := by
  obtain ⟨message, fire, rfl, free, rfl⟩ | ⟨rfl, held, rfl⟩ | ⟨rfl, held, rfl⟩ |
    ⟨other, rfl, sleeps, rfl⟩ | ⟨other, rfl, awake', free, rfl⟩ |
    ⟨other, queue, fire, rfl, held, rfl⟩ := Channel.step_cases taken
  case inl => exact .inl awake
  case inr.inl => exact .inl ((abort_of_ne (by simp [awake])).trans awake)
  case inr.inr.inl =>
    have apart : timer ≠ channel.spawned := by
      rintro rfl
      rw [sound.fresh _ (Nat.le_refl _)] at awake
      cases awake
    exact .inl ((Tasks.put_other apart).trans awake)
  case inr.inr.inr.inl =>
    have apart : timer ≠ other := by
      rintro rfl
      rw [sleeps] at awake
      cases awake
    exact .inl ((Tasks.put_other apart).trans awake)
  case inr.inr.inr.inr.inl =>
    refine .inr (Nat.le_of_eq ?_)
    simp [sound.order, free, Channel.passed, Channel.delivered, Lock.taken]
  case inr.inr.inr.inr.inr =>
    have apart : timer ≠ other := by
      rintro rfl
      rw [(sound.carried timer queue fire held).1] at awake
      cases awake
    exact .inl ((Tasks.put_other apart).trans awake)

theorem Channel.Sound.step_firing (sound : channel.Sound) (taken : channel.step act = some after)
    {timer : Nat} {queue : List μ} {fire : Option φ}
    (held : channel.lock = .firing timer queue fire) :
    after.lock = .firing timer queue fire ∨ after.delivered = channel.passed := by
  obtain ⟨message, fire', rfl, free, rfl⟩ | ⟨rfl, held', rfl⟩ | ⟨rfl, held', rfl⟩ |
    ⟨other, rfl, sleeps, rfl⟩ | ⟨other, rfl, awake', free, rfl⟩ |
    ⟨other, queue', fire', rfl, held', rfl⟩ := Channel.step_cases taken
  case inr.inr.inr.inl => exact .inl held
  case inr.inr.inr.inr.inr =>
    have both := (sound.carried other queue' fire' held').2
    refine .inr ?_
    cases fire' with
    | none => simp [Channel.passed, Channel.delivered, held', Lock.taken, both.mp rfl]
    | some => simp [Channel.passed, Channel.delivered, held', Lock.taken]
  all_goals simp_all

theorem Channel.Sound.step_sleeping (sound : channel.Sound) (taken : channel.step act = some after)
    (apart : ¬channel.lock.Submits) {timer : Nat} (sleeps : channel.timers timer = some .sleeping) :
    after.timers timer = some .sleeping ∨ after.timers timer = some .awake := by
  obtain ⟨message, fire, rfl, free, rfl⟩ | ⟨rfl, held, rfl⟩ | ⟨rfl, held, rfl⟩ |
    ⟨other, rfl, sleeps', rfl⟩ | ⟨other, rfl, awake, free, rfl⟩ |
    ⟨other, queue, fire, rfl, held, rfl⟩ := Channel.step_cases taken
  case inl => exact .inl sleeps
  case inr.inl => exact absurd ⟨false, held⟩ apart
  case inr.inr.inl => exact absurd ⟨true, held⟩ apart
  case inr.inr.inr.inl =>
    by_cases same : timer = other
    · exact .inr (same ▸ Tasks.put_self)
    · exact .inl ((Tasks.put_other same).trans sleeps)
  case inr.inr.inr.inr.inl =>
    have other' : timer ≠ other := by
      rintro rfl
      rw [sleeps] at awake
      cases awake
    exact .inl ((Tasks.put_other other').trans sleeps)
  case inr.inr.inr.inr.inr =>
    have other' : timer ≠ other := by
      rintro rfl
      rw [(sound.carried timer queue fire held).1] at sleeps
      cases sleeps
    exact .inl ((Tasks.put_other other').trans sleeps)

theorem Channel.step_submits (taken : channel.step act = some after)
    (apart : ¬channel.lock.Submits) :
    ¬after.lock.Submits ∨ channel.submitted.length < after.submitted.length := by
  obtain ⟨message, fire, rfl, free, rfl⟩ | ⟨rfl, held, rfl⟩ | ⟨rfl, held, rfl⟩ |
    ⟨other, rfl, sleeps, rfl⟩ | ⟨other, rfl, awake, free, rfl⟩ |
    ⟨other, queue, fire, rfl, held, rfl⟩ := Channel.step_cases taken
  case inl => exact .inr (by simp)
  case inr.inl => exact absurd ⟨false, held⟩ apart
  case inr.inr.inl => exact absurd ⟨true, held⟩ apart
  case inr.inr.inr.inl => exact .inl apart
  all_goals
    refine .inl ?_
    rintro ⟨reset, ⟨⟩⟩

theorem Channel.submits_of_step (taken : channel.step act = some after)
    (submits : after.lock.Submits) :
    (channel.lock.Submits ∨ ∃ message fire, act = .push message fire) ∧ act ≠ .spawn := by
  obtain ⟨message, fire, rfl, free, rfl⟩ | ⟨rfl, held, rfl⟩ | ⟨rfl, held, rfl⟩ |
    ⟨other, rfl, sleeps, rfl⟩ | ⟨other, rfl, awake, free, rfl⟩ |
    ⟨other, queue, fire, rfl, held, rfl⟩ := Channel.step_cases taken
  case inl => exact ⟨.inr ⟨message, fire, rfl⟩, nofun⟩
  case inr.inl => exact ⟨.inl ⟨false, held⟩, nofun⟩
  case inr.inr.inr.inl => exact ⟨.inl submits, nofun⟩
  all_goals
    obtain ⟨reset, ⟨⟩⟩ := submits

end Channel

/-! ### A channel's run -/

section Run

variable {μ φ : Type}

/-- The steps of one channel. -/
def Channel.Steps (before : Channel μ φ) (act : Act μ φ) (after : Channel μ φ) : Prop :=
  before.step act = some after

/-- A timer that is not aborted runs, in the end, and a call leaves the lock. -/
structure Fair (run : Run Channel.Steps (Channel.empty : Channel μ φ)) : Prop where
  timers : ∀ time timer, (run.state time).timers timer ≠ none →
    ∃ later, time ≤ later ∧ (run.state later).timers timer = none
  calls : ∀ time, ∃ later, time ≤ later ∧ ¬(run.state later).lock.Submits

variable {run : Run Channel.Steps (Channel.empty : Channel μ φ)} {time later place : Nat}

theorem sound_at (time : Nat) : (run.state time).Sound :=
  run.invariant Channel.Sound Channel.sound_empty (fun _ _ _ taken sound => sound.step taken) time

theorem submitted_mono (after : time ≤ later) :
    (run.state time).submitted.length ≤ (run.state later).submitted.length := by
  refine run.stays (fun channel => (run.state time).submitted.length ≤ channel.submitted.length)
    after (fun middle _ _ taken reached => ?_) (Nat.le_refl _)
  exact Nat.le_trans reached ((sound_at middle).grows taken).1

theorem Fair.delivers (fair : Fair run) (here : place < (run.state time).passed.length) :
    ∃ later, time ≤ later ∧ place < (run.state later).delivered.length := by
  cases held : (run.state time).lock with
  | free | submitting =>
    refine ⟨time, Nat.le_refl _, ?_⟩
    simpa [Channel.passed, held, Lock.taken] using here
  | firing timer queue fire =>
    have working := ((sound_at time).carried timer queue fire held).1
    obtain ⟨later, after, gone⟩ := fair.timers time timer (by simp [working])
    have left : ¬((run.state later).lock = .firing timer queue fire ∧
        place < (run.state later).passed.length) := by
      rintro ⟨still, _⟩
      rw [((sound_at later).carried timer queue fire still).1] at gone
      cases gone
    refine run.leads (fun channel => channel.lock = .firing timer queue fire ∧
      place < channel.passed.length) (fun channel => place < channel.delivered.length)
      (fun middle act _ taken still => ?_) ⟨later, after, left⟩ ⟨held, here⟩
    rcases (sound_at middle).step_firing taken still.1 with kept | passed
    · exact .inl ⟨kept, Nat.lt_of_lt_of_le still.2 ((sound_at middle).grows taken).2.1⟩
    · exact .inr (passed ▸ still.2)

theorem Fair.delivers_of_awake (fair : Fair run) {timer : Nat}
    (awake : (run.state time).timers timer = some .awake)
    (here : place < (run.state time).submitted.length) :
    ∃ later, time ≤ later ∧ place < (run.state later).delivered.length := by
  obtain ⟨later, after, gone⟩ := fair.timers time timer (by simp [awake])
  obtain ⟨middle, since, passed⟩ : ∃ later, time ≤ later ∧
      place < (run.state later).passed.length := by
    refine run.leads (fun channel => channel.timers timer = some .awake ∧
      place < channel.submitted.length) (fun channel => place < channel.passed.length)
      (fun middle act _ taken still => ?_) ⟨later, after, by simp [gone]⟩ ⟨awake, here⟩
    have grown := ((sound_at middle).grows taken).1
    rcases (sound_at middle).step_awake taken still.1 with kept | swept
    · exact .inl ⟨kept, Nat.lt_of_lt_of_le still.2 grown⟩
    · exact .inr (Nat.lt_of_lt_of_le still.2 (Nat.le_trans grown swept))
  obtain ⟨last, following, delivered⟩ := fair.delivers passed
  exact ⟨last, Nat.le_trans since following, delivered⟩

theorem Fair.delivered_or (fair : Fair run) (here : place < (run.state time).submitted.length) :
    (∃ later, time ≤ later ∧ place < (run.state later).delivered.length) ∨
      (∀ later, time ≤ later → ∀ timer, (run.state later).timers timer ≠ some .awake) ∧
        ∀ later, ∃ still, later ≤ still ∧
          (run.state later).submitted.length < (run.state still).submitted.length := by
  by_cases delivered : ∃ later, time ≤ later ∧ place < (run.state later).delivered.length
  · exact .inl delivered
  have asleep : ∀ later, time ≤ later → ∀ timer,
      (run.state later).timers timer ≠ some .awake := by
    intro later after timer awake
    obtain ⟨last, following, passed⟩ :=
      fair.delivers_of_awake awake (Nat.lt_of_lt_of_le here (submitted_mono after))
    exact delivered ⟨last, Nat.le_trans after following, passed⟩
  refine .inr ⟨asleep, fun later => ?_⟩
  by_contra quiet
  -- From a time on nothing is submitted and no call is under the lock, so a timer sleeps on.
  obtain ⟨calm, since, apart⟩ := fair.calls (max time later)
  have final : ∀ middle, calm ≤ middle → (run.state middle).submitted.length ≤
      (run.state later).submitted.length :=
    fun middle after => Nat.le_of_not_lt fun more => quiet ⟨middle, by omega, more⟩
  have out : ∀ middle, calm ≤ middle → ¬(run.state middle).lock.Submits := by
    intro middle after
    refine run.stays (fun channel => ¬channel.lock.Submits) after
      (fun middle _ after taken still => ?_) apart
    rcases Channel.step_submits taken still with kept | more
    · exact kept
    · have bound := final (middle + 1) (by omega)
      have grown : (run.state later).submitted.length ≤ (run.state middle).submitted.length :=
        submitted_mono (by omega)
      exact absurd more (by omega)
  have untaken : ¬place < (run.state calm).passed.length := by
    intro passed
    obtain ⟨last, following, arrived⟩ := fair.delivers passed
    exact delivered ⟨last, by omega, arrived⟩
  have queued : (run.state calm).queue ≠ [] := by
    intro none
    have order := (@sound_at _ _ run calm).order
    rw [none, List.append_nil] at order
    have grown : (run.state time).submitted.length ≤ (run.state calm).submitted.length :=
      submitted_mono (by omega)
    rw [order] at grown
    exact untaken (Nat.lt_of_lt_of_le here grown)
  rcases (sound_at calm).live queued with submits | ⟨timer, _, sleeps | awake⟩
  · exact apart submits
  · obtain ⟨last, following, gone⟩ := fair.timers calm timer (by simp [sleeps])
    have kept : (run.state last).timers timer = some .sleeping := by
      refine run.stays (fun channel => channel.timers timer = some .sleeping) following
        (fun middle _ after taken still => ?_) sleeps
      rcases (sound_at middle).step_sleeping taken (out middle after) still with kept | awake
      · exact kept
      · exact absurd awake (asleep (middle + 1) (by omega) timer)
    rw [gone] at kept
    cases kept
  · exact asleep calm (by omega) timer awake

end Run

/-! ### Every interleaving -/

section Interleaving

variable {κ μ φ : Type} [DecidableEq κ]

/-- An interleaving of calls that submit with the timers they start. -/
abbrev Interleaving (κ μ φ : Type) [DecidableEq κ] := Run Steps (State.empty : State κ μ φ)

/-- A call that is under a channel's lock holds the table's. -/
def State.Held (state : State κ μ φ) : Prop :=
  ∀ key, (state.channels key).lock.Submits → ∃ call, state.call = some call ∧ call.channel = key

/-- A timer that is not aborted runs, in the end, and a call ends. -/
structure FairInterleaving (run : Interleaving κ μ φ) : Prop where
  timers : ∀ time key timer, ((run.state time).channels key).timers timer ≠ none →
    ∃ later, time ≤ later ∧ ((run.state later).channels key).timers timer = none
  calls : ∀ time, ∃ later, time ≤ later ∧ (run.state later).call = none

theorem State.at_eq_some {state after : State κ μ φ} {key : κ} {act : Act μ φ} :
    state.at key act = some after ↔ ∃ channel, (state.channels key).step act = some channel ∧
      after = { state with channels := Function.update state.channels key channel } := by
  rw [State.at, Option.map_eq_some_iff]
  exact exists_congr fun _ => and_congr_right fun _ => eq_comm

theorem step_channel {before after : State κ μ φ} {action : Action κ μ φ}
    (taken : Steps before action after) (key : κ) :
    after.channels key = before.channels key ∨
      ∃ act, (before.channels key).Steps act (after.channels key) := by
  have moved : ∀ {other act state}, before.at other act = some state →
      state.channels key = before.channels key ∨
        ∃ act, (before.channels key).Steps act (state.channels key) := by
    intro other act state taken
    obtain ⟨channel, stepped, rfl⟩ := State.at_eq_some.mp taken
    by_cases same : key = other
    · subst same
      refine .inr ⟨act, ?_⟩
      dsimp only
      rwa [Function.update_self]
    · exact .inl (Function.update_of_ne same ..)
  unfold Steps step at taken
  cases action with
  | submit =>
    cases held : before.call <;> rw [held] at taken <;> cases taken
    exact .inl rfl
  | push | reset =>
    obtain ⟨call, _, taken⟩ := Option.bind_eq_some_iff.mp taken
    exact moved taken
  | spawn =>
    obtain ⟨call, _, taken⟩ := Option.bind_eq_some_iff.mp taken
    obtain ⟨state, stepped, rfl⟩ := Option.map_eq_some_iff.mp taken
    have inner := moved stepped
    exact inner
  | wake | take | fire => exact moved taken

omit [DecidableEq κ] in
theorem State.held_empty : (State.empty : State κ μ φ).Held := by
  rintro key ⟨reset, ⟨⟩⟩

theorem State.Held.step {before after : State κ μ φ} {action : Action κ μ φ} (held : before.Held)
    (taken : Steps before action after) : after.Held := by
  have moved : ∀ {key act state}, before.at key act = some state → ∀ other,
      (state.channels other).lock.Submits → state.call = before.call ∧
        ((before.channels other).lock.Submits ∧ (other = key → act ≠ .spawn) ∨
          other = key ∧ ∃ message fire, act = .push message fire) := by
    intro key act state taken other submits
    obtain ⟨channel, stepped, rfl⟩ := State.at_eq_some.mp taken
    refine ⟨rfl, ?_⟩
    by_cases same : other = key
    · subst same
      dsimp only at submits
      rw [Function.update_self] at submits
      obtain ⟨earlier | pushed, apart⟩ := Channel.submits_of_step stepped submits
      · exact .inl ⟨earlier, fun _ => apart⟩
      · exact .inr ⟨rfl, pushed⟩
    · dsimp only at submits
      rw [Function.update_of_ne same] at submits
      exact .inl ⟨submits, fun equal => absurd equal same⟩
  unfold Steps Debounce.step at taken
  intro key submits
  cases action with
  | submit =>
    cases none : before.call with
    | none =>
      rw [none] at taken
      cases taken
      obtain ⟨call, here, _⟩ := held key submits
      rw [none] at here
      cases here
    | some =>
      rw [none] at taken
      cases taken
  | push | reset =>
    obtain ⟨call, here, taken⟩ := Option.bind_eq_some_iff.mp taken
    obtain ⟨same, ⟨earlier, _⟩ | ⟨rfl, _⟩⟩ := moved taken key submits
    · exact same ▸ held key earlier
    · exact ⟨call, same.trans here, rfl⟩
  | spawn =>
    obtain ⟨call, here, taken⟩ := Option.bind_eq_some_iff.mp taken
    obtain ⟨state, stepped, rfl⟩ := Option.map_eq_some_iff.mp taken
    obtain ⟨_, ⟨earlier, apart⟩ | ⟨_, _, _, ⟨⟩⟩⟩ := moved stepped key submits
    obtain ⟨call', here', equal⟩ := held key earlier
    rw [here] at here'
    cases here'
    exact absurd rfl (apart equal.symm)
  | wake | take | fire =>
    obtain ⟨same, ⟨earlier, _⟩ | ⟨_, _, _, ⟨⟩⟩⟩ := moved taken key submits
    exact same ▸ held key earlier

/-- The run of one channel. -/
def channelRun (run : Interleaving κ μ φ) (key : κ) :
    Run Channel.Steps (Channel.empty : Channel μ φ) :=
  run.part (fun state => state.channels key) fun _ _ _ taken => step_channel taken key

theorem FairInterleaving.channel {run : Interleaving κ μ φ} (fair : FairInterleaving run) (key : κ) :
    Fair (channelRun run key) where
  timers time := fair.timers time key
  calls time := by
    obtain ⟨later, after, ended⟩ := fair.calls time
    refine ⟨later, after, fun submits => ?_⟩
    have held : (run.state later).Held :=
      run.invariant State.Held State.held_empty (fun _ _ _ taken held => held.step taken) later
    obtain ⟨call, here, _⟩ := held key submits
    rw [ended] at here
    cases here

/-- In every interleaving the batches of a channel are, in order, what was submitted to it, but
for what a timer has just taken and what is still queued; no batch is empty; and while no call is
under the lock, what is queued has a callback and a timer that will take it. Where the timers that
are not aborted run, a message is passed on, or else submissions to its channel go on forever and
abort each of its timers in its sleep. -/
theorem interleaving_delivers (run : Interleaving κ μ φ) :
    (∀ time key,
      ((run.state time).channels key).submitted =
        ((run.state time).channels key).delivered ++ ((run.state time).channels key).lock.taken ++
          ((run.state time).channels key).queue ∧
      (∀ batch ∈ ((run.state time).channels key).fired, batch.2 ≠ []) ∧
      (¬((run.state time).channels key).lock.Submits → ((run.state time).channels key).queue ≠ [] →
        ((run.state time).channels key).onFire ≠ none ∧
          ∃ timer, ((run.state time).channels key).timer = some timer ∧
            Waits (((run.state time).channels key).timers timer)) ∧
      (¬((run.state time).channels key).lock.Submits →
        (∀ timer, ((run.state time).channels key).timers timer = none) →
          ((run.state time).channels key).submitted =
            ((run.state time).channels key).delivered)) ∧
    (FairInterleaving run → ∀ time key place,
      place < ((run.state time).channels key).submitted.length →
        (∃ later, time ≤ later ∧ place < ((run.state later).channels key).delivered.length) ∨
        (∀ later, time ≤ later → ∀ timer,
          ((run.state later).channels key).timers timer ≠ some .awake) ∧
        ∀ later, ∃ still, later ≤ still ∧ ((run.state later).channels key).submitted.length <
          ((run.state still).channels key).submitted.length) := by
  refine ⟨fun time key => ?_, fun fair time key place here =>
    @Fair.delivered_or _ _ _ time place (fair.channel key) here⟩
  have sound : ((run.state time).channels key).Sound := @sound_at _ _ (channelRun run key) time
  refine ⟨sound.order, sound.nonempty, fun apart queued => ?_, fun apart ended => ?_⟩
  · rcases sound.live queued with submits | waiting
    · exact absurd submits apart
    · exact ⟨fun none => queued (sound.callback.mp none), waiting⟩
  · have empty : ((run.state time).channels key).queue = [] := by
      by_contra queued
      rcases sound.live queued with submits | ⟨timer, _, waits⟩
      · exact apart submits
      · rw [ended timer] at waits
        rcases waits with ⟨⟨⟩⟩ | ⟨⟨⟩⟩
    have untaken : ((run.state time).channels key).lock.taken = [] := by
      cases held : ((run.state time).channels key).lock with
      | free | submitting => rfl
      | firing timer queue fire =>
        have working := (sound.carried timer queue fire held).1
        rw [ended timer] at working
        cases working
    rw [sound.order, empty, untaken, List.append_nil, List.append_nil]

end Interleaving

/-! A channel that never goes quiet: each message aborts the timer of the one before it, so that
nothing is ever passed on. -/

namespace Busy

/-- The channel with a further message queued. -/
def pushed (channel : Channel Unit Unit) : Channel Unit Unit :=
  { channel with
    queue := channel.queue ++ [()], onFire := some (), lock := .submitting false
    submitted := channel.submitted ++ [()] }

/-- The old timer aborted. -/
def restarted (channel : Channel Unit Unit) : Channel Unit Unit :=
  { channel with
    timer := none, timers := abort channel.timers channel.timer, lock := .submitting true }

/-- The new timer started. -/
def started (channel : Channel Unit Unit) : Channel Unit Unit :=
  { channel with
    timer := some channel.spawned, timers := channel.timers.put channel.spawned (some .sleeping)
    spawned := channel.spawned + 1, lock := .free }

/-- The channel after so many messages. -/
def channel : Nat → Channel Unit Unit
  | 0 => .empty
  | messages + 1 => started (restarted (pushed (channel messages)))

/-- The run, four steps a message. -/
def state (time : Nat) : State Unit Unit Unit :=
  match time % 4 with
  | 0 => ⟨none, fun _ => channel (time / 4)⟩
  | 1 => ⟨some ⟨(), (), ()⟩, fun _ => channel (time / 4)⟩
  | 2 => ⟨some ⟨(), (), ()⟩, fun _ => pushed (channel (time / 4))⟩
  | _ => ⟨some ⟨(), (), ()⟩, fun _ => restarted (pushed (channel (time / 4)))⟩

theorem channel_free (messages : Nat) : (channel messages).lock = .free := by
  cases messages <;> rfl

theorem channel_fired (messages : Nat) : (channel messages).fired = [] := by
  induction messages with
  | zero => rfl
  | succ messages ih => exact ih

theorem abort_alone {timers : Tasks Stage} {handle : Option Nat}
    (alone : ∀ timer, timers timer = none ∨ handle = some timer ∧ timers timer = some .sleeping)
    (timer : Nat) : abort timers handle timer = none := by
  rcases alone timer with gone | ⟨rfl, sleeps⟩
  · rcases abort_cases handle timer with same | aborted
    · exact same.trans gone
    · exact aborted
  · rw [abort, if_pos sleeps, Tasks.put_self]

theorem channel_timers (messages timer : Nat) :
    (channel messages).timers timer = none ∨
      (channel messages).timer = some timer ∧ (channel messages).timers timer = some .sleeping := by
  induction messages generalizing timer with
  | zero => exact .inl rfl
  | succ messages ih =>
    by_cases last : timer = (channel messages).spawned
    · exact .inr ⟨congrArg some last.symm, last ▸ Tasks.put_self⟩
    · exact .inl ((Tasks.put_other last).trans (abort_alone ih timer))

theorem state_four (messages : Nat) : state (4 * messages) = ⟨none, fun _ => channel messages⟩ := by
  have parts : 4 * messages % 4 = 0 ∧ 4 * messages / 4 = messages := by omega
  simp [state, parts]

theorem state_four_one (messages : Nat) :
    state (4 * messages + 1) = ⟨some ⟨(), (), ()⟩, fun _ => channel messages⟩ := by
  have parts : (4 * messages + 1) % 4 = 1 ∧ (4 * messages + 1) / 4 = messages := by omega
  simp [state, parts]

theorem state_four_two (messages : Nat) :
    state (4 * messages + 2) = ⟨some ⟨(), (), ()⟩, fun _ => pushed (channel messages)⟩ := by
  have parts : (4 * messages + 2) % 4 = 2 ∧ (4 * messages + 2) / 4 = messages := by omega
  simp [state, parts]

theorem state_four_three (messages : Nat) :
    state (4 * messages + 3) = ⟨some ⟨(), (), ()⟩, fun _ => restarted (pushed (channel messages))⟩ := by
  have parts : (4 * messages + 3) % 4 = 3 ∧ (4 * messages + 3) / 4 = messages := by omega
  simp [state, parts]

theorem at_eq (call : Option (Call Unit Unit Unit)) {one other : Channel Unit Unit}
    {act : Act Unit Unit} (taken : one.step act = some other) :
    State.at (⟨call, fun _ => one⟩ : State Unit Unit Unit) () act =
      some ⟨call, fun _ => other⟩ := by
  refine State.at_eq_some.mpr ⟨other, taken, ?_⟩
  rw [State.mk.injEq]
  exact ⟨rfl, funext fun _ => rfl⟩

theorem state_step (time : Nat) : ∃ action, Steps (state time) action (state (time + 1)) := by
  obtain ⟨messages, part, small, rfl⟩ : ∃ messages part, part < 4 ∧ time = 4 * messages + part :=
    ⟨time / 4, time % 4, by omega, by omega⟩
  have free := channel_free messages
  obtain rfl | rfl | rfl | rfl : part = 0 ∨ part = 1 ∨ part = 2 ∨ part = 3 := by omega
  · rw [Nat.add_zero, state_four, state_four_one]
    exact ⟨.submit () () (), rfl⟩
  · rw [state_four_one, state_four_two]
    refine ⟨.push, at_eq _ ?_⟩
    simp only [Channel.step, free]
    rfl
  · rw [state_four_two, state_four_three]
    have taken : (pushed (channel messages)).step .reset =
        some (restarted (pushed (channel messages))) := rfl
    exact ⟨.reset, at_eq _ taken⟩
  · have next : 4 * messages + 3 + 1 = 4 * (messages + 1) := by omega
    rw [state_four_three, next, state_four]
    have taken : (restarted (pushed (channel messages))).step .spawn =
        some (channel (messages + 1)) := rfl
    have ended := congrArg (Option.map fun after : State Unit Unit Unit => { after with call := none })
      (at_eq (some ⟨(), (), ()⟩) taken)
    exact ⟨.spawn, ended⟩

def run : Interleaving Unit Unit Unit where
  state := state
  begins := rfl
  follows time := .inr (state_step time)

theorem run_fair : FairInterleaving run where
  timers time key timer _ := by
    refine ⟨4 * time + 3, by omega, ?_⟩
    have reached : run.state (4 * time + 3) = _ := state_four_three time
    rw [reached]
    exact abort_alone (channel_timers time) timer
  calls time := by
    refine ⟨4 * time, by omega, ?_⟩
    have reached : run.state (4 * time) = _ := state_four time
    rw [reached]

/-- Nothing of what a busy channel is sent is ever passed on, though every timer that is not
aborted runs. -/
theorem busy_starves :
    ∃ run : Interleaving Unit Unit Unit, FairInterleaving run ∧
      (∃ time, 0 < ((run.state time).channels ()).submitted.length) ∧
      ∀ time, ((run.state time).channels ()).delivered = [] := by
  refine ⟨run, run_fair, ⟨2, Nat.one_pos⟩, fun time => ?_⟩
  have unfired : ((run.state time).channels ()).fired = [] := by
    change ((state time).channels ()).fired = []
    unfold state
    split <;> exact channel_fired _
  rw [Channel.delivered, unfired, List.flatMap_nil]

end Busy

end Zuihitsu.Connector.Debounce
