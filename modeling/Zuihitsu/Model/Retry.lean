/-
# Retries and the circuit breaker

Every call of the model is gated on one breaker, once, when it is made; what its attempts come
to is reported to the breaker for as long as its stream lives. A stream starts no attempt before
it is polled, and backs off between attempts, so a call can outlive the breaker it was gated on.
-/

import Zuihitsu.Library.Tasks
import Zuihitsu.Library.Trace
import Zuihitsu.Model.Response

namespace Zuihitsu.Model.Retry

open Zuihitsu.Library

/-! ### The breaker -/

/-- The policy. -/
structure ResilienceConfig where
  maxAttempts : Nat
  backoffBaseMs : Nat
  backoffMaxMs : Nat
  breakerFailureThreshold : Nat
  breakerOpenSeconds : Nat
  deriving DecidableEq, Repr

/-- The state of the breaker. Instants are counted in nanoseconds. -/
inductive State where
  | closed
  | opened (since : Nat)
  | halfOpen
  deriving DecidableEq, Repr

/-- The breaker. -/
structure Breaker where
  state : State
  consecutiveFailures : Nat
  lastFailure : Option String
  deriving DecidableEq, Repr

/-- How long an open circuit fails fast. -/
def ResilienceConfig.openFor (config : ResilienceConfig) : Nat :=
  config.breakerOpenSeconds * 1000000000

/-- How many failures in a row open the circuit. -/
def ResilienceConfig.failureThreshold (config : ResilienceConfig) : Nat :=
  max config.breakerFailureThreshold 1

/-- Armed while the half-open probe is unresolved. -/
structure ProbeGuard where
  armed : Bool
  deriving DecidableEq, Repr

namespace Breaker

/-- The backend answered. -/
def recordReachable (breaker : Breaker) : Breaker :=
  { breaker with consecutiveFailures := 0, state := .closed }

/-- The backend failed, and whether the circuit is open now. -/
def recordTransientFailure (config : ResilienceConfig) (now : Nat) (breaker : Breaker)
    (error : ModelError) : Breaker × Bool :=
  let failures := min (breaker.consecutiveFailures + 1) (2 ^ 32 - 1)
  let breaker := { breaker with
    consecutiveFailures := failures, lastFailure := some error.display }
  match breaker.state with
  | .halfOpen => ({ breaker with state := .opened now }, true)
  | .closed =>
    if config.failureThreshold ≤ failures then ({ breaker with state := .opened now }, true)
    else (breaker, false)
  -- Another call has opened it; the window starts anew.
  | .opened _ => ({ breaker with state := .opened now }, true)

/-- Gate a call: passed when the circuit is closed, and as the probe when its window has lapsed. -/
def admitCall (config : ResilienceConfig) (modelId : String) (now : Nat) (breaker : Breaker) :
    Breaker × Except ModelError (Option ProbeGuard) :=
  match breaker.state with
  | .closed => (breaker, .ok none)
  | .opened since =>
    if config.openFor ≤ now - since then
      ({ breaker with state := .halfOpen }, .ok (some ⟨true⟩))
    else (breaker, .error (.circuitOpen modelId))
  | .halfOpen => (breaker, .error (.circuitOpen modelId))

/-- A guard dropped unresolved opens the circuit that waits for a probe. -/
def dropGuard (now : Nat) (probe : Option ProbeGuard) (breaker : Breaker) : Breaker :=
  match probe with
  | some ⟨true⟩ =>
    if breaker.state = .halfOpen then { breaker with state := .opened now } else breaker
  | some ⟨false⟩ | none => breaker

end Breaker

/-! ### A call -/

/-- Where the stream of a call is suspended: not polled yet, in an attempt, at the mark that voids
one, in the backoff, past its terminal, or dropped. -/
inductive Place where
  | unpolled
  | attempting
  | restarting
  | sleeping (due : Nat)
  | ended
  | dropped
  deriving DecidableEq, Repr

/-- A call: its guard, its attempt and backoff, what the attempt's own stream has given, what the
consumer has received, and since when it waits for its attempt, where it does. -/
structure Call where
  place : Place
  probe : Option ProbeGuard := none
  attempt : Nat := 1
  backoff : Nat := 0
  given : List GenerateDelta := []
  received : List (Except ModelError GenerateDelta) := []
  waiting : Nat := 0

/-- Jitter a delay into its upper half, both in milliseconds. -/
def jittered (delay nanos : Nat) : Nat :=
  if delay / 2 = 0 then delay else delay / 2 + nanos % (delay / 2 + 1)

/-- Whether a fragment is the terminal. -/
def isFinished : GenerateDelta → Bool
  | .finished _ => true
  | .reasoning _ | .reply _ | .restarted .. => false

/-- What is done to a stream: it is polled, where an attempt is under way with what the stream of
the attempt answers, or let go. Polling a stream past its terminal lets its guard go as well. -/
inductive Poll where
  | begin
  | next (answer : Option (Except ModelError GenerateDelta))
  | resume (nanos : Nat)
  | wake
  | drop
  deriving DecidableEq

namespace Call

/-- The guard stands down. -/
def disarm (call : Call) : Call := { call with probe := call.probe.map fun _ => ⟨false⟩ }

/-- Hand an item to the consumer. -/
def hand (call : Call) (item : Except ModelError GenerateDelta) : Call :=
  { call with received := call.received ++ [item] }

/-- Hand over the terminal. -/
def finish (call : Call) (item : Except ModelError GenerateDelta) : Call :=
  { call.hand item with place := .ended }

/-- Start an attempt at the backend. -/
def start (call : Call) : Call := { call with place := .attempting, given := [] }

/-- The attempt failed transiently: the call restarts, or gives up. -/
def retry (config : ResilienceConfig) (now : Nat) (opened : Bool) (error : ModelError)
    (call : Call) : Call :=
  if opened || decide (max config.maxAttempts 1 ≤ call.attempt) then
    call.disarm.finish (.error error)
  else
    { call.disarm.hand (.ok (.restarted call.attempt error.display)) with
      place := .restarting, waiting := now }

/-- The stream of the attempt answers. -/
def answer (config : ResilienceConfig) (modelId : String) (now : Nat) (breaker : Breaker)
    (call : Call) : Option (Except ModelError GenerateDelta) → Breaker × Call
  | some (.ok delta) =>
    let call := { call with given := call.given ++ [delta] }
    if isFinished delta then (breaker.recordReachable, call.disarm.finish (.ok delta))
    else (breaker, call.hand (.ok delta))
  | some (.error error) =>
    if error.isTransient then
      let (breaker, opened) := breaker.recordTransientFailure config now error
      (breaker, call.retry config now opened error)
    -- A failure that is not transient still proves that the backend answered.
    else (breaker.recordReachable, call.disarm.finish (.error error))
  -- An end without a terminal says nothing of the backend, and the guard stays armed.
  | none =>
    (breaker, call.finish (.error
      (.backend modelId "the stream ended without a terminal response" false)))

/-- What is done to a stream, where it can be. -/
def poll (config : ResilienceConfig) (modelId : String) (now : Nat) (breaker : Breaker)
    (call : Call) : Poll → Option (Breaker × Call)
  | .begin => if call.place = .unpolled then some (breaker, call.start) else none
  | .next given =>
    if call.place = .attempting then some (call.answer config modelId now breaker given) else none
  | .resume nanos =>
    if call.place = .restarting then
      some (breaker, { call with
        place := .sleeping (now + jittered call.backoff nanos * 1000000) })
    else none
  | .wake =>
    match call.place with
    | .sleeping due =>
      if due ≤ now then
        some (breaker, { call.start with
          backoff := min (call.backoff * 2) config.backoffMaxMs, attempt := call.attempt + 1 })
      else none
    | _ => none
  | .drop => some (breaker.dropGuard now call.probe, { call.disarm with place := .dropped })

/-- The call is a probe that is not resolved yet. -/
def Unresolved (call : Call) : Prop := call.probe = some ⟨true⟩

/-- The call is to start an attempt. -/
def Waits (call : Call) : Prop :=
  call.place = .unpolled ∨ call.place = .restarting ∨ ∃ due, call.place = .sleeping due

/-- Received of attempts that were voided: nothing, or what ends in the mark that voids it. -/
def Voided (received : List (Except ModelError GenerateDelta)) : Prop :=
  received = [] ∨ ∃ earlier attempt cause, received = earlier ++ [.ok (.restarted attempt cause)]

/-- A response the consumer received ends what one attempt gave, and all of what the consumer
received after the last voided attempt is what this attempt gave. -/
def Single (call : Call) : Prop :=
  ∀ response, .ok (.finished response) ∈ call.received → ∃ voided own, Voided voided ∧
    call.given = own ++ [.finished response] ∧ call.received = voided ++ call.given.map .ok

end Call

namespace Call

/-- No response was received. -/
def Unanswered (call : Call) : Prop :=
  ∀ response, .ok (.finished response) ∉ call.received

/-- What was received, by the place of the call: no response before it ends, only voided attempts
before the next starts, and in an attempt what it gave after these. -/
def Whole (call : Call) : Prop :=
  match call.place with
  | .unpolled | .restarting | .sleeping _ => call.Unanswered ∧ Voided call.received
  | .attempting => call.Unanswered ∧
    ∃ voided, Voided voided ∧ call.received = voided ++ call.given.map .ok
  | .ended | .dropped => call.Single

end Call

/-! ### The model and its runs -/

/-- The model: the breaker, the clock and the calls so far. -/
structure RetryingModel where
  modelId : String
  breaker : Breaker
  now : Nat
  calls : Tasks Call
  next : Nat

/-- What happens: time goes by, a call is made, or something is done to the stream of one. -/
inductive Move where
  | pass (elapsed : Nat)
  | generateStream
  | stream (number : Nat) (poll : Poll)
  deriving DecidableEq

namespace RetryingModel

/-- A new model. -/
def new (modelId : String) (now : Nat) : RetryingModel where
  modelId := modelId
  breaker := ⟨.closed, 0, none⟩
  now := now
  calls := fun _ => none
  next := 0

/-- Make a call. One that is not admitted is a stream of the refusal alone. -/
def generateStream (config : ResilienceConfig) (model : RetryingModel) : RetryingModel :=
  match model.breaker.admitCall config model.modelId model.now with
  | (breaker, .ok probe) =>
    { model with
      breaker := breaker
      calls := model.calls.put model.next (some {
        place := .unpolled
        probe := probe
        backoff := min config.backoffBaseMs config.backoffMaxMs
        waiting := model.now })
      next := model.next + 1 }
  | (breaker, .error error) =>
    { model with
      breaker := breaker
      calls := model.calls.put model.next (some { place := .ended, received := [.error error] })
      next := model.next + 1 }

/-- Take a step, where it can be taken. -/
def step (config : ResilienceConfig) (model : RetryingModel) : Move → Option RetryingModel
  | .pass elapsed => some { model with now := model.now + elapsed }
  | .generateStream => some (model.generateStream config)
  | .stream number poll => do
    let call ← model.calls number
    let (breaker, call) ← call.poll config model.modelId model.now model.breaker poll
    some { model with breaker := breaker, calls := model.calls.put number (some call) }

/-- Take steps, where they can all be taken. -/
def runs (config : ResilienceConfig) (model : RetryingModel) (moves : List Move) :
    Option RetryingModel :=
  moves.foldlM (step config) model

/-- A step of a run. -/
def Steps (config : ResilienceConfig) (model : RetryingModel) (move : Move)
    (after : RetryingModel) : Prop :=
  model.step config move = some after

/-- The circuit is open and its window has not lapsed. -/
def FailsFast (config : ResilienceConfig) (model : RetryingModel) : Prop :=
  ∃ since, model.breaker.state = .opened since ∧ model.now - since < config.openFor

/-- The move starts an attempt at the backend. -/
def Starts : Move → Prop
  | .stream _ .begin | .stream _ .wake => True
  | _ => False

/-- While the breaker is half open at most one probe is unresolved. -/
def OneProbe (model : RetryingModel) : Prop :=
  model.breaker.state = .halfOpen → model.calls.AtMostOne Call.Unresolved

/-- What is to hold of every state: while the breaker is half open at most one probe is
unresolved and the last one is, and every response is of one attempt. -/
structure Safe (model : RetryingModel) : Prop where
  oneProbe : model.OneProbe
  probing : model.breaker.state = .halfOpen → ∃ number call, model.calls number = some call ∧
    call.Unresolved ∧ ∀ other later, model.calls other = some later → later.probe.isSome →
      other ≤ number
  single : ∀ number call, model.calls number = some call → call.Single

/-- What is to hold of every step: no attempt is started while the circuit fails fast. -/
def Gated (config : ResilienceConfig) (model : RetryingModel) (move : Move) : Prop :=
  Starts move → ¬model.FailsFast config

/-- A probe is admitted where none is left unresolved. -/
def ProbesAlone (config : ResilienceConfig) (model : RetryingModel) (move : Move) : Prop :=
  ∀ since, move = .generateStream → model.breaker.state = .opened since →
    config.openFor ≤ model.now - since →
    ∀ number call, model.calls number = some call → ¬call.Unresolved

/-- An attempt is started by a call that waits for it since the circuit opened, or when the
window has lapsed. -/
def WaitsOut (config : ResilienceConfig) (model : RetryingModel) (move : Move) : Prop :=
  ∀ number poll since call, move = .stream number poll → Starts move →
    model.breaker.state = .opened since → model.calls number = some call →
    since < call.waiting ∨ config.openFor ≤ model.now - since

end RetryingModel

/-! ### What a poll comes to -/

/-- The breaker and the call after a poll. -/
inductive Outcome (config : ResilienceConfig) (now : Nat) (breaker : Breaker) (call : Call) :
    Breaker → Call → Prop
  | started (attempt backoff : Nat) (waits : call.Waits) :
    Outcome config now breaker call breaker
      { call.start with attempt := attempt, backoff := backoff }
  | streamed (delta : GenerateDelta) (inside : call.place = .attempting)
    (more : isFinished delta = false) :
    Outcome config now breaker call breaker
      ({ call with given := call.given ++ [delta] }.hand (.ok delta))
  | finished (response : GenerateResponse) (inside : call.place = .attempting) :
    Outcome config now breaker call breaker.recordReachable
      ({ call with given := call.given ++ [GenerateDelta.finished response] }.disarm.finish
        (.ok (.finished response)))
  | failed (error : ModelError) (inside : call.place = .attempting) :
    Outcome config now breaker call (breaker.recordTransientFailure config now error).1
      (call.retry config now (breaker.recordTransientFailure config now error).2 error)
  | refused (error : ModelError) (inside : call.place = .attempting) :
    Outcome config now breaker call breaker.recordReachable (call.disarm.finish (.error error))
  | cut (error : ModelError) (inside : call.place = .attempting) :
    Outcome config now breaker call breaker (call.finish (.error error))
  | rested (due : Nat) (inside : call.place = .restarting) :
    Outcome config now breaker call breaker { call with place := .sleeping due }
  | dropped :
    Outcome config now breaker call (breaker.dropGuard now call.probe)
      { call.disarm with place := .dropped }

section Outcomes

variable {config : ResilienceConfig} {modelId : String} {now : Nat} {breaker breaker' : Breaker}
  {call call' : Call}

theorem outcome_of_answer {given : Option (Except ModelError GenerateDelta)}
    (inside : call.place = .attempting)
    (answered : call.answer config modelId now breaker given = (breaker', call')) :
    Outcome config now breaker call breaker' call' := by
  match given with
  | some (.ok delta) =>
    cases delta with
    | finished response =>
      cases answered
      exact .finished response inside
    | reasoning | reply | restarted =>
      cases answered
      exact .streamed _ inside rfl
  | some (.error error) =>
    rw [Call.answer] at answered
    by_cases transient : error.isTransient = true
    · rw [if_pos transient] at answered
      cases answered
      exact .failed error inside
    · rw [if_neg transient] at answered
      cases answered
      exact .refused error inside
  | none =>
    cases answered
    exact .cut _ inside

theorem outcome_of_poll {poll : Poll}
    (polled : call.poll config modelId now breaker poll = some (breaker', call')) :
    Outcome config now breaker call breaker' call' := by
  cases poll with
  | begin =>
    obtain ⟨place, rest⟩ := Option.ite_none_right_eq_some.mp polled
    cases rest
    exact .started call.attempt call.backoff (.inl place)
  | next =>
    obtain ⟨place, rest⟩ := Option.ite_none_right_eq_some.mp polled
    exact outcome_of_answer place (Option.some.inj rest)
  | resume =>
    obtain ⟨place, rest⟩ := Option.ite_none_right_eq_some.mp polled
    cases rest
    exact .rested _ place
  | wake =>
    rw [Call.poll] at polled
    cases place : call.place with
    | sleeping due =>
      rw [place] at polled
      obtain ⟨_, rest⟩ := Option.ite_none_right_eq_some.mp polled
      cases rest
      exact .started _ _ (.inr (.inr ⟨due, place⟩))
    | unpolled | attempting | restarting | ended | dropped =>
      rw [place] at polled
      cases polled
  | drop =>
    cases polled
    exact .dropped

theorem state_recordTransientFailure (error : ModelError) :
    let after := breaker.recordTransientFailure config now error
    after.1.state = .opened now ∧ after.2 = true ∨
      breaker.state = .closed ∧ after.1.state = .closed ∧ after.2 = false := by
  unfold Breaker.recordTransientFailure
  cases breaker.state with
  | halfOpen | opened => exact .inl ⟨rfl, rfl⟩
  | closed =>
    dsimp only
    by_cases reached :
        config.failureThreshold ≤ min (breaker.consecutiveFailures + 1) (2 ^ 32 - 1)
    · rw [if_pos reached]
      exact .inl ⟨rfl, rfl⟩
    · rw [if_neg reached]
      exact .inr ⟨rfl, rfl, rfl⟩

@[simp] theorem not_unresolved_disarm : ¬call.disarm.Unresolved := by
  rcases call with ⟨_, _ | _⟩ <;> simp [Call.disarm, Call.Unresolved]

@[simp] theorem probe_disarm : call.disarm.probe.isSome = call.probe.isSome := by
  simp [Call.disarm]

theorem probe_retry (opened : Bool) (error : ModelError) :
    (call.retry config now opened error).probe = call.disarm.probe := by
  unfold Call.retry
  split <;> rfl

theorem single_finish_error (unanswered : call.Unanswered) (error : ModelError) :
    (call.finish (.error error)).Single := by
  intro response member
  rcases List.mem_append.mp member with earlier | last
  · exact absurd earlier (unanswered response)
  · cases List.mem_singleton.mp last

namespace Outcome

theorem halfOpen (outcome : Outcome config now breaker call breaker' call')
    (half : breaker'.state = .halfOpen) :
    breaker.state = .halfOpen ∧ (call'.Unresolved ↔ call.Unresolved) := by
  cases outcome with
  | started | streamed | cut | rested => exact ⟨half, .rfl⟩
  | finished | refused => cases half
  | failed error =>
    rcases @state_recordTransientFailure config now breaker error with ⟨opened, _⟩ | ⟨_, closed, _⟩
    · cases opened.symm.trans half
    · cases closed.symm.trans half
  | dropped =>
    -- An armed guard would have opened the circuit.
    have resting : breaker.state = .halfOpen ∧ ¬call.Unresolved := by
      unfold Breaker.dropGuard at half
      unfold Call.Unresolved
      split at half
      · split_ifs at half
        contradiction
      · exact ⟨half, by simp [*]⟩
      · exact ⟨half, by simp [*]⟩
    exact ⟨resting.1, iff_of_false not_unresolved_disarm resting.2⟩

theorem unresolved (outcome : Outcome config now breaker call breaker' call')
    (probing : call'.Unresolved) : call.Unresolved := by
  cases outcome with
  | started | streamed | cut | rested => exact probing
  | finished | refused | dropped => exact absurd probing not_unresolved_disarm
  | failed =>
    unfold Call.Unresolved at probing
    rw [probe_retry] at probing
    exact absurd probing not_unresolved_disarm

theorem isSome_probe (outcome : Outcome config now breaker call breaker' call') :
    call'.probe.isSome = call.probe.isSome := by
  cases outcome with
  | started | streamed | cut | rested => rfl
  | finished | refused | dropped => exact probe_disarm
  | failed => rw [probe_retry, probe_disarm]

theorem opened (outcome : Outcome config now breaker call breaker' call') {since : Nat}
    (shut : breaker'.state = .opened since) : breaker.state = .opened since ∨ since = now := by
  cases outcome with
  | started | streamed | cut | rested => exact .inl shut
  | finished | refused => cases shut
  | failed error =>
    rcases @state_recordTransientFailure config now breaker error with ⟨now, _⟩ | ⟨_, closed, _⟩
    · exact .inr (State.opened.inj (shut.symm.trans now))
    · cases closed.symm.trans shut
  | dropped =>
    unfold Breaker.dropGuard at shut
    split at shut
    · split_ifs at shut
      · exact .inr (State.opened.inj shut).symm
      · exact .inl shut
    · exact .inl shut
    · exact .inl shut

theorem waits (outcome : Outcome config now breaker call breaker' call') (waits : call'.Waits) :
    call.Waits ∧ call'.waiting = call.waiting ∨
      call'.waiting = now ∧ breaker'.state = .closed := by
  cases outcome with
  | started => simp [Call.Waits, Call.start] at waits
  | streamed _ inside => simp [Call.Waits, Call.hand, inside] at waits
  | finished | refused | cut => simp [Call.Waits, Call.finish] at waits
  | rested _ inside => exact .inl ⟨.inr (.inl inside), rfl⟩
  | dropped => simp [Call.Waits] at waits
  | failed error =>
    rcases @state_recordTransientFailure config now breaker error with ⟨_, opened⟩ | ⟨_, closed, _⟩
    · simp [Call.retry, opened, Call.Waits, Call.finish] at waits
    · unfold Call.retry at waits ⊢
      split_ifs at waits ⊢
      · simp [Call.Waits, Call.finish] at waits
      · exact .inr ⟨rfl, closed⟩

theorem whole (outcome : Outcome config now breaker call breaker' call') (whole : call.Whole) :
    call'.Whole := by
  cases outcome with
  | started attempt backoff waits =>
    have rest : call.Unanswered ∧ Call.Voided call.received := by
      rcases waits with place | place | ⟨due, place⟩ <;>
        simpa only [Call.Whole, place] using whole
    exact ⟨rest.1, call.received, rest.2, by simp [Call.start]⟩
  | streamed delta inside more =>
    simp only [Call.Whole, inside] at whole
    obtain ⟨unanswered, voided, before, received⟩ := whole
    simp only [Call.Whole, Call.hand, inside]
    refine ⟨?_, voided, before, by simp [received]⟩
    intro response member
    rcases List.mem_append.mp member with earlier | last
    · exact unanswered response earlier
    · cases List.mem_singleton.mp last
      cases more
  | finished response inside =>
    simp only [Call.Whole, inside] at whole
    obtain ⟨unanswered, voided, before, received⟩ := whole
    intro other member
    rcases List.mem_append.mp member with earlier | last
    · exact absurd earlier (unanswered other)
    · cases List.mem_singleton.mp last
      exact ⟨voided, call.given, before, rfl, by simp [Call.finish, Call.hand, Call.disarm, received]⟩
  | failed error inside =>
    simp only [Call.Whole, inside] at whole
    have unanswered := whole.1
    unfold Call.retry
    split_ifs
    · exact single_finish_error unanswered error
    · refine ⟨?_, .inr ⟨call.received, call.attempt, error.display, rfl⟩⟩
      intro response member
      rcases List.mem_append.mp member with earlier | last
      · exact unanswered response earlier
      · cases List.mem_singleton.mp last
  | refused error inside | cut error inside =>
    simp only [Call.Whole, inside] at whole
    exact single_finish_error whole.1 error
  | rested due inside =>
    simp only [Call.Whole, inside] at whole
    exact whole
  | dropped =>
    show Call.Single _
    cases place : call.place with
    | ended | dropped =>
      simp only [Call.Whole, place] at whole
      exact whole
    | unpolled | attempting | restarting | sleeping =>
      simp only [Call.Whole, place] at whole
      exact fun response member => absurd member (whole.1 response)

end Outcome

end Outcomes

/-! ### What every run keeps -/

namespace RetryingModel

/-- What every state of a run meets. -/
structure Sound (model : RetryingModel) : Prop where
  numbered : ∀ number call, model.calls number = some call → number < model.next
  probing : model.breaker.state = .halfOpen → ∃ number call, model.calls number = some call ∧
    call.Unresolved ∧ ∀ other later, model.calls other = some later → later.probe.isSome →
      other ≤ number
  whole : ∀ number call, model.calls number = some call → call.Whole
  since : ∀ number call, model.calls number = some call → call.Waits →
    call.waiting ≤ model.now ∧
      ∀ since, model.breaker.state = .opened since → call.waiting ≤ since

section Runs

variable {config : ResilienceConfig} {model after : RetryingModel} {move : Move}

theorem sound_new (modelId : String) (now : Nat) : (new modelId now).Sound where
  numbered _ _ none := nomatch none
  probing half := nomatch half
  whole _ _ none := nomatch none
  since _ _ none := nomatch none

/-- What a step does to the stream of a call. -/
theorem step_stream {number : Nat} {poll : Poll}
    (stepped : model.Steps config (.stream number poll) after) :
    ∃ call breaker' call', model.calls number = some call ∧
      Outcome config model.now model.breaker call breaker' call' ∧
      after = { model with
        breaker := breaker', calls := model.calls.put number (some call') } := by
  simp only [Steps, step, Option.bind_eq_bind, Option.bind_eq_some_iff, Prod.exists] at stepped
  obtain ⟨call, there, breaker', call', polled, same⟩ := stepped
  exact ⟨call, breaker', call', there, outcome_of_poll polled, (Option.some.inj same).symm⟩

/-- A call is passed by a closed circuit, is the probe once the window has lapsed, or fails
fast. -/
theorem admitCall_cases (config : ResilienceConfig) (modelId : String) (now : Nat)
    (breaker : Breaker) :
    (breaker.state = .closed ∧ breaker.admitCall config modelId now = (breaker, .ok none)) ∨
      (∃ since, breaker.state = .opened since ∧ config.openFor ≤ now - since ∧
        breaker.admitCall config modelId now =
          ({ breaker with state := .halfOpen }, .ok (some ⟨true⟩))) ∨
      (∀ since, breaker.state = .opened since → now - since < config.openFor) ∧
        breaker.admitCall config modelId now = (breaker, .error (.circuitOpen modelId)) := by
  unfold Breaker.admitCall
  cases breaker.state with
  | closed => exact .inl ⟨rfl, rfl⟩
  | halfOpen => exact .inr (.inr ⟨fun _ opened => (nomatch opened), rfl⟩)
  | opened since =>
    by_cases lapsed : config.openFor ≤ now - since
    · exact .inr (.inl ⟨since, rfl, lapsed, if_pos lapsed⟩)
    · refine .inr (.inr ⟨fun other opened => ?_, if_neg lapsed⟩)
      cases opened
      exact not_le.mp lapsed

/-- What a call does: it is admitted to a closed circuit, as the probe, or it is refused. -/
theorem generateStream_cases (config : ResilienceConfig) (model : RetryingModel) :
    ∃ breaker' call, model.generateStream config = { model with
        breaker := breaker', calls := model.calls.put model.next (some call)
        next := model.next + 1 } ∧ call.Whole ∧ (call.Waits → call.waiting = model.now) ∧
      ((model.breaker.state = .closed ∧ breaker' = model.breaker ∧ call.probe = none) ∨
        (∃ since, model.breaker.state = .opened since ∧ config.openFor ≤ model.now - since ∧
          breaker'.state = .halfOpen ∧ call.Unresolved) ∨
        (breaker' = model.breaker ∧ call.probe = none ∧ ¬call.Waits ∧
          ∀ since, model.breaker.state = .opened since →
            model.now - since < config.openFor)) := by
  unfold generateStream
  rcases admitCall_cases config model.modelId model.now model.breaker with
    ⟨closed, admitted⟩ | ⟨since, opened, lapsed, admitted⟩ | ⟨fresh, refused⟩
  · rw [admitted]
    exact ⟨_, _, rfl, ⟨fun _ => List.not_mem_nil, .inl rfl⟩, fun _ => rfl,
      .inl ⟨closed, rfl, rfl⟩⟩
  · rw [admitted]
    exact ⟨_, _, rfl, ⟨fun _ => List.not_mem_nil, .inl rfl⟩, fun _ => rfl,
      .inr (.inl ⟨since, opened, lapsed, rfl, rfl⟩)⟩
  · rw [refused]
    have idle : ∀ error, ¬Call.Waits { place := .ended, received := [.error error] } := by
      simp [Call.Waits]
    refine ⟨_, _, rfl, ?_, fun waits => absurd waits (idle _),
      .inr (.inr ⟨rfl, rfl, idle _, fresh⟩)⟩
    intro response member
    cases List.mem_singleton.mp member

theorem Sound.pass (sound : model.Sound) (elapsed : Nat) :
    Sound { model with now := model.now + elapsed } where
  numbered := sound.numbered
  probing := sound.probing
  whole := sound.whole
  since number call there waits :=
    ⟨(sound.since number call there waits).1.trans (Nat.le_add_right ..),
      (sound.since number call there waits).2⟩

theorem Sound.generateStream (sound : model.Sound) : (model.generateStream config).Sound := by
  obtain ⟨breaker', call, same, whole, waiting, admitted⟩ := generateStream_cases config model
  rw [same]
  refine ⟨?_, ?_, Tasks.forall_put (fun other here _ => sound.whole other here) ?_, ?_⟩
  · refine Tasks.forall_put (fun other here _ there => ?_) fun _ _ => Nat.lt_succ_self _
    exact Nat.lt_succ_of_lt (sound.numbered other here there)
  · intro half
    rcases admitted with ⟨closed, rfl, _⟩ | ⟨_, _, _, _, unresolved⟩ | ⟨rfl, plain, _⟩
    · cases closed.symm.trans half
    · -- The call is the probe, and the last call there is.
      refine ⟨model.next, call, Tasks.put_self, unresolved, ?_⟩
      refine Tasks.forall_put (fun other here _ there _ => ?_) fun _ _ _ => le_rfl
      exact le_of_lt (sound.numbered other here there)
    · obtain ⟨number, probe, there, unresolved, last⟩ := sound.probing half
      have apart : number ≠ model.next := ne_of_lt (sound.numbered number probe there)
      refine ⟨number, probe, (Tasks.put_other apart).trans there, unresolved, ?_⟩
      refine Tasks.forall_put (fun other here _ => last other here) fun here moved probing => ?_
      cases moved
      simp [plain] at probing
  · rintro _ ⟨⟩
    exact whole
  · refine Tasks.forall_put (fun other here _ there waits => ?_) fun here moved waits => ?_
    · refine ⟨(sound.since other here there waits).1, fun since opened => ?_⟩
      rcases admitted with ⟨_, rfl, _⟩ | ⟨_, _, _, half, _⟩ | ⟨rfl, _⟩
      · exact (sound.since other here there waits).2 since opened
      · cases half.symm.trans opened
      · exact (sound.since other here there waits).2 since opened
    · cases moved
      refine ⟨le_of_eq (waiting waits), fun since opened => ?_⟩
      rcases admitted with ⟨closed, rfl, _⟩ | ⟨_, _, _, half, _⟩ | ⟨_, _, idle, _⟩
      · cases closed.symm.trans opened
      · cases half.symm.trans opened
      · exact absurd waits idle

theorem Sound.stream (sound : model.Sound) {number : Nat} {call call' : Call}
    {breaker' : Breaker} (there : model.calls number = some call)
    (outcome : Outcome config model.now model.breaker call breaker' call') :
    Sound { model with
      breaker := breaker', calls := model.calls.put number (some call') } := by
  refine ⟨?_, ?_, Tasks.forall_put (fun other here _ => sound.whole other here) ?_, ?_⟩
  · refine Tasks.forall_put (fun other here _ => sound.numbered other here) fun _ _ => ?_
    exact sound.numbered number call there
  · intro half
    obtain ⟨was, resolved⟩ := outcome.halfOpen half
    obtain ⟨last, probe, found, unresolved, latest⟩ := sound.probing was
    have ordered : ∀ other later, model.calls.put number (some call') other = some later →
        later.probe.isSome → other ≤ last := by
      refine Tasks.forall_put (fun other here _ => latest other here) fun here moved probing => ?_
      cases moved
      exact latest number call there (outcome.isSome_probe ▸ probing)
    by_cases same : last = number
    · subst same
      cases there.symm.trans found
      exact ⟨last, call', Tasks.put_self, resolved.mpr unresolved, ordered⟩
    · exact ⟨last, probe, (Tasks.put_other same).trans found, unresolved, ordered⟩
  · rintro _ ⟨⟩
    exact outcome.whole (sound.whole number call there)
  · -- A circuit that opens just now opens after all that waits.
    have older : ∀ other here, model.calls other = some here → here.Waits →
        here.waiting ≤ model.now ∧
          ∀ since, breaker'.state = .opened since → here.waiting ≤ since := by
      intro other here found waits
      obtain ⟨past, before⟩ := sound.since other here found waits
      refine ⟨past, fun since opened => ?_⟩
      rcases outcome.opened opened with was | rfl
      · exact before since was
      · exact past
    refine Tasks.forall_put (fun other here _ => older other here) fun here moved waits => ?_
    cases moved
    rcases outcome.waits waits with ⟨waited, kept⟩ | ⟨begun, closed⟩
    · rw [kept]
      exact older number call there waited
    · exact ⟨le_of_eq begun, fun since opened => nomatch closed.symm.trans opened⟩

theorem Sound.step (sound : model.Sound) (stepped : model.Steps config move after) :
    after.Sound := by
  cases move with
  | pass elapsed =>
    cases stepped
    exact sound.pass elapsed
  | generateStream =>
    cases stepped
    exact sound.generateStream
  | stream =>
    obtain ⟨call, breaker', call', there, outcome, rfl⟩ := step_stream stepped
    exact sound.stream there outcome

end Runs

theorem trace_of_runs {config : ResilienceConfig} {model after : RetryingModel}
    {moves : List Move} (taken : model.runs config moves = some after) :
    Trace (Steps config) model moves after := by
  induction moves generalizing model with
  | nil =>
    cases taken
    exact .nil _
  | cons move rest ih =>
    rw [runs, List.foldlM_cons] at taken
    obtain ⟨middle, first, others⟩ := Option.bind_eq_some_iff.mp taken
    exact .cons first (ih others)

/-- In every run, however the probes overlap, each response a consumer received is what one attempt
gave, and a half-open circuit has an unresolved probe, whose drop opens it. -/
theorem whole_and_probed {config : ResilienceConfig} {modelId : String} {start : Nat}
    {moves : List Move} {model : RetryingModel}
    (run : (new modelId start).runs config moves = some model) :
    (∀ number call, model.calls number = some call → call.Single) ∧
      (model.breaker.state = .halfOpen → ∃ number call, model.calls number = some call ∧
        call.Unresolved ∧ ∃ after, model.step config (.stream number .drop) = some after ∧
          after.breaker.state = .opened model.now) := by
  have sound : model.Sound :=
    (trace_of_runs run).invariant Sound (fun _ _ _ stepped sound => sound.step stepped)
      (sound_new modelId start)
  refine ⟨fun number call held => ?_, fun half => ?_⟩
  · have whole := sound.whole number call held
    cases place : call.place with
    | ended | dropped =>
      simp only [Call.Whole, place] at whole
      exact whole
    | unpolled | attempting | restarting | sleeping =>
      simp only [Call.Whole, place] at whole
      exact fun response member => absurd member (whole.1 response)
  · obtain ⟨number, call, held, unresolved, _⟩ := sound.probing half
    have armed : call.probe = some ⟨true⟩ := unresolved
    refine ⟨number, call, held, unresolved, _, by rw [step, held]; rfl, ?_⟩
    simp [Breaker.dropGuard, armed, half]

/-! ### What opens the circuit -/

/-- A move reports a transient failure, that the backend answered, or neither. -/
def countFailure (failures : Nat) : Move → Nat
  | .stream _ (.next (some (.ok delta))) => if isFinished delta then 0 else failures
  | .stream _ (.next (some (.error error))) => if error.isTransient then failures + 1 else 0
  | _ => failures

/-- How many transient failures were reported since the backend answered last. -/
def failuresSince (moves : List Move) : Nat := moves.foldl countFailure 0

/-- The breaker has counted these failures, and is closed while they are too few. -/
structure Counted (config : ResilienceConfig) (failures : Nat) (breaker : Breaker) : Prop where
  count : breaker.consecutiveFailures = min failures (2 ^ 32 - 1)
  closed : breaker.state = .closed ↔ min failures (2 ^ 32 - 1) < config.failureThreshold

section Counted

variable {config : ResilienceConfig} {failures : Nat} {breaker : Breaker}

theorem failureThreshold_pos : 0 < config.failureThreshold :=
  Nat.lt_of_lt_of_le Nat.one_pos (Nat.le_max_right ..)

theorem counted_recordReachable : Counted config 0 breaker.recordReachable :=
  ⟨rfl, iff_of_true rfl failureThreshold_pos⟩

/-- What leaves the count, and a circuit that is not closed, leaves what was counted. -/
theorem Counted.of_eq (counted : Counted config failures breaker) {after : Breaker}
    (same : after.consecutiveFailures = breaker.consecutiveFailures)
    (closed : after.state = .closed ↔ breaker.state = .closed) : Counted config failures after :=
  ⟨same.trans counted.count, closed.trans counted.closed⟩

theorem Counted.recordTransientFailure (counted : Counted config failures breaker) (now : Nat)
    (error : ModelError) :
    Counted config (failures + 1) (breaker.recordTransientFailure config now error).1 := by
  have more : min (breaker.consecutiveFailures + 1) (2 ^ 32 - 1) =
      min (failures + 1) (2 ^ 32 - 1) := by
    have before := counted.count
    omega
  have grown : min failures (2 ^ 32 - 1) ≤ min (failures + 1) (2 ^ 32 - 1) := by omega
  have stays : breaker.state ≠ .closed →
      ¬min (failures + 1) (2 ^ 32 - 1) < config.failureThreshold := fun shut few =>
    shut (counted.closed.mpr (grown.trans_lt few))
  unfold Breaker.recordTransientFailure
  rw [more]
  cases state : breaker.state with
  | halfOpen | opened => exact ⟨rfl, iff_of_false nofun (stays (by rw [state]; nofun))⟩
  | closed =>
    dsimp only
    split
    · rename_i enough
      exact ⟨rfl, iff_of_false nofun enough.not_gt⟩
    · rename_i few
      exact ⟨rfl, iff_of_true rfl (not_le.mp few)⟩

theorem Counted.dropGuard (counted : Counted config failures breaker) (now : Nat)
    (probe : Option ProbeGuard) : Counted config failures (breaker.dropGuard now probe) := by
  unfold Breaker.dropGuard
  split
  · split
    · rename_i half
      exact counted.of_eq rfl (iff_of_false nofun (by rw [half]; nofun))
    · exact counted
  · exact counted
  · exact counted

theorem Counted.admitCall (counted : Counted config failures breaker) (modelId : String)
    (now : Nat) : Counted config failures (breaker.admitCall config modelId now).1 := by
  rcases admitCall_cases config modelId now breaker with
    ⟨_, admitted⟩ | ⟨since, opened, _, admitted⟩ | ⟨_, admitted⟩
  · rw [admitted]
    exact counted
  · rw [admitted]
    exact counted.of_eq rfl (iff_of_false nofun (by rw [opened]; nofun))
  · rw [admitted]
    exact counted

theorem breaker_generateStream (model : RetryingModel) : (model.generateStream config).breaker =
    (model.breaker.admitCall config model.modelId model.now).1 := by
  unfold generateStream
  split <;> simp [*]

theorem Counted.poll (counted : Counted config failures breaker) {call call' : Call}
    {breaker' : Breaker} {modelId : String} {now : Nat} {poll : Poll} (number : Nat)
    (polled : call.poll config modelId now breaker poll = some (breaker', call')) :
    Counted config (countFailure failures (.stream number poll)) breaker' := by
  cases poll with
  | begin | resume =>
    obtain ⟨_, rest⟩ := Option.ite_none_right_eq_some.mp polled
    cases rest
    exact counted
  | wake =>
    simp only [Call.poll] at polled
    split at polled
    · obtain ⟨_, rest⟩ := Option.ite_none_right_eq_some.mp polled
      cases rest
      exact counted
    · cases polled
  | drop =>
    cases polled
    exact counted.dropGuard _ _
  | next given =>
    obtain ⟨_, answered⟩ := Option.ite_none_right_eq_some.mp polled
    match given with
    | none =>
      cases answered
      exact counted
    | some (.ok delta) =>
      simp only [Call.answer, countFailure] at answered ⊢
      split at answered
      · rename_i finished
        rw [if_pos finished]
        cases answered
        exact counted_recordReachable
      · rename_i more
        rw [if_neg more]
        cases answered
        exact counted
    | some (.error error) =>
      simp only [Call.answer, countFailure] at answered ⊢
      split at answered
      · rename_i transient
        rw [if_pos transient]
        cases answered
        exact counted.recordTransientFailure now error
      · rename_i lasting
        rw [if_neg lasting]
        cases answered
        exact counted_recordReachable

theorem Counted.step {model after : RetryingModel} {move : Move}
    (counted : Counted config failures model.breaker) (stepped : model.Steps config move after) :
    Counted config (countFailure failures move) after.breaker := by
  cases move with
  | pass =>
    cases stepped
    exact counted
  | generateStream =>
    cases stepped
    rw [breaker_generateStream]
    exact counted.admitCall _ _
  | stream number poll =>
    simp only [Steps, RetryingModel.step, Option.bind_eq_bind, Option.bind_eq_some_iff, Prod.exists] at stepped
    obtain ⟨_, _, _, _, polled, same⟩ := stepped
    cases same
    exact counted.poll number polled

end Counted

/-- In every run the circuit is closed just while fewer transient failures than the threshold
were reported since the backend answered last, over all calls and however they interleave. -/
theorem closed_iff_failuresSince {config : ResilienceConfig} {modelId : String} {start : Nat}
    {moves : List Move} {model : RetryingModel}
    (run : (new modelId start).runs config moves = some model) :
    model.breaker.consecutiveFailures = min (failuresSince moves) (2 ^ 32 - 1) ∧
      (model.breaker.state = .closed ↔
        min (failuresSince moves) (2 ^ 32 - 1) < config.failureThreshold) := by
  have counted : Counted config (failuresSince moves) model.breaker := by
    refine (trace_of_runs run).history
      (fun taken model => Counted config (failuresSince taken) model.breaker) ?_ ?_
    · exact ⟨rfl, iff_of_true rfl failureThreshold_pos⟩
    · intro taken one move other _ stepped counted
      rw [failuresSince, List.foldl_append]
      exact counted.step stepped
  exact ⟨counted.count, counted.closed⟩

/-! ### How often a call reaches the backend -/

/-- The move starts an attempt of a call. -/
def startsAttempt (number : Nat) : Move → Bool
  | .stream other .begin | .stream other .wake => other = number
  | _ => false

/-- A call that has started so many attempts keeps to the policy, also in how long it sleeps. -/
structure Paced (config : ResilienceConfig) (now started : Nat) (call : Call) : Prop where
  count : started ≤ call.attempt ∧ (call.place = .unpolled → started = 0)
  attempts : 1 ≤ call.attempt ∧ call.attempt ≤ max config.maxAttempts 1
  left : (call.place = .restarting ∨ ∃ due, call.place = .sleeping due) →
    call.attempt < max config.maxAttempts 1
  backoff : call.place ≠ .ended → call.place ≠ .dropped →
    call.backoff = min (config.backoffBaseMs * 2 ^ (call.attempt - 1)) config.backoffMaxMs
  due : ∀ due, call.place = .sleeping due → due ≤ now + call.backoff * 1000000

section Paced

variable {config : ResilienceConfig} {now started : Nat} {call call' : Call}
  {breaker breaker' : Breaker}

theorem jittered_le (delay nanos : Nat) : jittered delay nanos ≤ delay := by
  unfold jittered
  split
  · exact le_rfl
  · have spread : nanos % (delay / 2 + 1) < delay / 2 + 1 := Nat.mod_lt _ (Nat.succ_pos _)
    omega

/-- A call that is over keeps to the policy. -/
theorem Paced.done (paced : Paced config now started call) (count : call'.attempt = call.attempt)
    (gone : call'.place = .ended ∨ call'.place = .dropped) : Paced config now started call' := by
  refine ⟨⟨count ▸ paced.count.1, fun place => ?_⟩, count ▸ paced.attempts, ?_, ?_, ?_⟩
  · rcases gone with gone | gone <;> simp [gone] at place
  · rcases gone with gone | gone <;> simp [gone]
  · exact fun ended dropped => absurd gone (not_or.mpr ⟨ended, dropped⟩)
  · rcases gone with gone | gone <;> simp [gone]

theorem Paced.answer (paced : Paced config now started call) (inside : call.place = .attempting)
    (modelId : String) (given : Option (Except ModelError GenerateDelta)) :
    Paced config now started (call.answer config modelId now breaker given).2 := by
  have going : ∀ {after : Call}, after.attempt = call.attempt → after.backoff = call.backoff →
      after.place = .attempting → Paced config now started after := by
    intro after count backoff place
    refine ⟨⟨count ▸ paced.count.1, ?_⟩, count ▸ paced.attempts, ?_, fun _ _ => ?_, ?_⟩
    · simp [place]
    · simp [place]
    · rw [count, backoff]
      exact paced.backoff (by simp [inside]) (by simp [inside])
    · simp [place]
  match given with
  | none => exact paced.done rfl (.inl rfl)
  | some (.ok delta) =>
    unfold Call.answer
    dsimp only
    split
    · exact paced.done rfl (.inl rfl)
    · exact going rfl rfl inside
  | some (.error error) =>
    unfold Call.answer
    dsimp only
    split
    · unfold Call.retry
      split
      · exact paced.done rfl (.inl rfl)
      · rename_i again
        simp only [Bool.or_eq_true, decide_eq_true_eq, not_or, not_le] at again
        refine ⟨⟨paced.count.1, nofun⟩, paced.attempts, fun _ => again.2, fun _ _ => ?_, nofun⟩
        exact paced.backoff (by simp [inside]) (by simp [inside])
    · exact paced.done rfl (.inl rfl)

theorem Paced.poll (paced : Paced config now started call) {modelId : String} {poll : Poll}
    (number : Nat) (polled : call.poll config modelId now breaker poll = some (breaker', call')) :
    Paced config now (started + if startsAttempt number (.stream number poll) then 1 else 0)
      call' := by
  obtain ⟨⟨count, none⟩, attempts, left, backoff, due⟩ := paced
  cases poll with
  | begin =>
    obtain ⟨place, rest⟩ := Option.ite_none_right_eq_some.mp polled
    cases rest
    refine ⟨⟨?_, nofun⟩, attempts, by simp [Call.start], fun _ _ => ?_, nofun⟩
    · simpa [startsAttempt, none place, Call.start] using attempts.1
    · exact backoff (by simp [place]) (by simp [place])
  | next given =>
    obtain ⟨place, rest⟩ := Option.ite_none_right_eq_some.mp polled
    have kept := @Paced.answer _ _ _ _ breaker
      ⟨⟨count, none⟩, attempts, left, backoff, due⟩ place modelId given
    rw [Option.some.inj rest] at kept
    exact kept
  | resume nanos =>
    obtain ⟨place, rest⟩ := Option.ite_none_right_eq_some.mp polled
    cases rest
    refine ⟨⟨count, nofun⟩, attempts, fun _ => left (.inl place), fun _ _ => ?_, ?_⟩
    · exact backoff (by simp [place]) (by simp [place])
    · rintro _ ⟨⟩
      exact Nat.add_le_add_left (Nat.mul_le_mul_right _ (jittered_le _ _)) _
  | wake =>
    unfold Call.poll at polled
    dsimp only at polled
    split at polled
    · rename_i until' place
      obtain ⟨_, rest⟩ := Option.ite_none_right_eq_some.mp polled
      cases rest
      have further := left (.inr ⟨_, place⟩)
      refine ⟨⟨?_, nofun⟩, ⟨Nat.le_add_left .., further⟩, by simp [Call.start], fun _ _ => ?_, nofun⟩
      · simpa [startsAttempt] using count
      · have doubled : 2 ^ (call.attempt + 1 - 1) = 2 ^ (call.attempt - 1) * 2 := by
          rw [← Nat.pow_succ]
          congr 1
          omega
        show min (call.backoff * 2) _ = min (_ * 2 ^ (call.attempt + 1 - 1)) _
        rw [backoff (by simp [place]) (by simp [place]), doubled, ← Nat.mul_assoc]
        omega
    · cases polled
  | drop =>
    cases polled
    exact Paced.done ⟨⟨count, none⟩, attempts, left, backoff, due⟩ rfl (.inr rfl)

/-- A new call keeps to the policy. -/
theorem generateStream_paced (config : ResilienceConfig) (model : RetryingModel) :
    ∃ breaker' call, model.generateStream config = { model with
        breaker := breaker', calls := model.calls.put model.next (some call)
        next := model.next + 1 } ∧ Paced config model.now 0 call := by
  unfold generateStream
  split
  · refine ⟨_, _, rfl, ⟨Nat.zero_le _, fun _ => rfl⟩, ⟨le_rfl, Nat.le_max_right ..⟩, ?_, ?_, nofun⟩
    · simp
    · simp
  · refine ⟨_, _, rfl, ⟨Nat.zero_le _, nofun⟩, ⟨le_rfl, Nat.le_max_right ..⟩, ?_, ?_, nofun⟩
    · simp
    · simp

/-- All calls keep to the policy, and those that were not made have started nothing. -/
structure AllPaced (config : ResilienceConfig) (moves : List Move) (model : RetryingModel) :
    Prop where
  unmade : ∀ number, model.next ≤ number →
    model.calls number = none ∧ moves.countP (startsAttempt number) = 0
  made : ∀ number call, model.calls number = some call →
    Paced config model.now (moves.countP (startsAttempt number)) call

theorem AllPaced.step {moves : List Move} {model after : RetryingModel} {move : Move}
    (paced : AllPaced config moves model) (stepped : model.Steps config move after) :
    AllPaced config (moves ++ [move]) after := by
  have counts : ∀ number, (moves ++ [move]).countP (startsAttempt number) =
      moves.countP (startsAttempt number) + if startsAttempt number move then 1 else 0 := by
    simp [List.countP_append, List.countP_singleton]
  cases move with
  | pass elapsed =>
    cases stepped
    refine ⟨fun number beyond => ⟨(paced.unmade number beyond).1, ?_⟩, fun number call held => ?_⟩
    · rw [counts, (paced.unmade number beyond).2]
      rfl
    · obtain ⟨count, attempts, left, backoff, due⟩ := paced.made number call held
      rw [counts]
      exact ⟨count, attempts, left, backoff, fun at' place =>
        (due at' place).trans (Nat.add_le_add_right (Nat.le_add_right ..) _)⟩
  | generateStream =>
    cases stepped
    obtain ⟨breaker', call, same, fresh⟩ := generateStream_paced config model
    rw [same]
    refine ⟨fun number beyond => ?_, Tasks.forall_put (fun other here _ there => ?_) ?_⟩
    · have later : model.next ≤ number := (Nat.le_succ _).trans beyond
      refine ⟨(Tasks.put_other (Nat.ne_of_gt beyond)).trans (paced.unmade number later).1, ?_⟩
      rw [counts, (paced.unmade number later).2]
      rfl
    · rw [counts]
      exact paced.made other here there
    · rintro _ ⟨⟩
      rw [counts, (paced.unmade _ le_rfl).2]
      exact fresh
  | stream number poll =>
    simp only [Steps, RetryingModel.step, Option.bind_eq_bind, Option.bind_eq_some_iff,
      Prod.exists] at stepped
    obtain ⟨call, held, breaker', call', polled, same⟩ := stepped
    cases same
    have apart : ∀ other, other ≠ number → startsAttempt other (.stream number poll) = false := by
      intro other differ
      cases poll <;> simp [startsAttempt, Ne.symm differ]
    refine ⟨fun other beyond => ?_, Tasks.forall_put (fun other here differ there => ?_) ?_⟩
    · obtain ⟨none', unstarted⟩ := paced.unmade other beyond
      have differ : other ≠ number := by
        rintro rfl
        cases none'.symm.trans held
      refine ⟨(Tasks.put_other differ).trans none', ?_⟩
      rw [counts, unstarted, apart other differ]
      rfl
    · rw [counts, apart other differ]
      exact paced.made other here there
    · rintro _ ⟨⟩
      rw [counts]
      exact (paced.made number call held).poll number polled

end Paced

/-- In every run each call starts at most the policy's attempts, and one that sleeps has another
attempt left and is due within the backoff, which doubles from attempt to attempt up to its cap. -/
theorem attempts_bounded {config : ResilienceConfig} {modelId : String} {start : Nat}
    {moves : List Move} {model : RetryingModel}
    (run : (new modelId start).runs config moves = some model) {number : Nat} {call : Call}
    (held : model.calls number = some call) :
    moves.countP (startsAttempt number) ≤ max config.maxAttempts 1 ∧
      ∀ due, call.place = .sleeping due → call.attempt < max config.maxAttempts 1 ∧
        due ≤ model.now +
          min (config.backoffBaseMs * 2 ^ (call.attempt - 1)) config.backoffMaxMs * 1000000 := by
  have all : AllPaced config moves model :=
    (trace_of_runs run).history (AllPaced config) ⟨fun _ _ => ⟨rfl, rfl⟩, fun _ _ held => by cases held⟩
      fun _ _ _ _ _ stepped paced => paced.step stepped
  obtain ⟨count, attempts, left, backoff, due⟩ := all.made number call held
  refine ⟨count.1.trans attempts.2, fun at' place => ⟨left (.inr ⟨at', place⟩), ?_⟩⟩
  rw [← backoff (by simp [place]) (by simp [place])]
  exact due at' place

/-! A call backs off while another's failure opens the circuit; it starts its next attempt at
once, and fails while the probe is in flight, so that a second probe follows the first. -/

namespace Overlap

def policy : ResilienceConfig := ⟨3, 0, 0, 2, 1⟩

def down : Poll := .next (some (.error (.backend "model" "connection refused" true)))

def opening : List Move :=
  [.generateStream, .generateStream, .stream 0 .begin, .stream 1 .begin, .stream 0 down,
    .stream 1 down, .stream 0 (.resume 0)]

def probing : List Move :=
  [.stream 0 .wake, .pass 1000000000, .generateStream, .stream 0 down, .pass 1000000000,
    .generateStream]

/-- What the two runs come to. -/
theorem reached :
    (((new "model" 0).runs policy opening).map fun model =>
      (model.breaker.state, model.now, (model.step policy (.stream 0 .wake)).isSome)) =
        some (.opened 0, 0, true) ∧
    (((new "model" 0).runs policy (opening ++ probing)).map fun model =>
      (model.breaker.state, (model.calls 2).map (·.probe), (model.calls 3).map (·.probe))) =
        some (.halfOpen, some (some ⟨true⟩), some (some ⟨true⟩)) := by
  decide +kernel

theorem opening_counted : ∃ model, (new "model" 0).runs policy opening = some model ∧
    model.breaker.consecutiveFailures = min (failuresSince opening) (2 ^ 32 - 1) ∧
      (model.breaker.state = .closed ↔ min (failuresSince opening) (2 ^ 32 - 1) < 2) := by
  obtain ⟨model, ran, _⟩ := Option.map_eq_some_iff.mp reached.1
  exact ⟨model, ran, closed_iff_failuresSince ran⟩

theorem opening_paced : ∃ model call, (new "model" 0).runs policy opening = some model ∧
    model.calls 0 = some call ∧ opening.countP (startsAttempt 0) ≤ 3 ∧
      ∀ due, call.place = .sleeping due → call.attempt < 3 ∧
        due ≤ model.now + min (0 * 2 ^ (call.attempt - 1)) 0 * 1000000 := by
  have held : (((new "model" 0).runs policy opening).bind (·.calls 0)).isSome = true := by
    decide +kernel
  obtain ⟨call, made⟩ := Option.isSome_iff_exists.mp held
  obtain ⟨model, ran, there⟩ := Option.bind_eq_some_iff.mp made
  exact ⟨model, call, ran, there, attempts_bounded ran there⟩

theorem opening_probed : ∃ model, (new "model" 0).runs policy opening = some model ∧
    (∀ number call, model.calls number = some call → call.Single) := by
  obtain ⟨model, ran, _⟩ := Option.map_eq_some_iff.mp reached.1
  exact ⟨model, ran, (whole_and_probed ran).1⟩

end Overlap

end RetryingModel

end Zuihitsu.Model.Retry
