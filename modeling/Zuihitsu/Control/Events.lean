/-
# The pushed log

A connection to the event stream yields a snapshot of the log from a horizon on and then follows
the live feed, which a thread fans out from the store behind every commit. It subscribes before it
reads, and passes over what its snapshot had already; a client that reconnects behind the last
event it saw joins on without a gap or a repeat. The horizon reaches the store as a signed number,
so one from 2^63 on asks for the whole log.
-/

import Zuihitsu.Console.Stream
import Zuihitsu.Library.Trace

namespace Zuihitsu.Control

open Zuihitsu.Core Zuihitsu.Console Zuihitsu.Library

variable {π ρ : Type}

/-! ### The store -/

/-- The position of the last event of a log, from any order. -/
def maxSeq (log : List Event) : Nat := log.foldl (fun seq event => max seq event.seq) 0

/-- The events of a commit, numbered on from the log. -/
def commit (log : List Event) (recordedAt : Timestamp) (source : EventSource)
    (payloads : List EventPayload) : List Event :=
  payloads.mapIdx fun place payload => ⟨maxSeq log + place + 1, recordedAt, source, payload⟩

/-- An unsigned number of 64 bits as a signed one. -/
def asI64 (number : Nat) : Int := if number < 2 ^ 63 then number else (number : Int) - 2 ^ 64

/-- The events from a position on. -/
def readFrom (log : List Event) (from' : Nat) : List Event :=
  log.filter fun event => asI64 from' ≤ event.seq

/-! ### A connection -/

/-- How far the handler of a connection has come: before it subscribes, before it reads, through
its snapshot, behind the live feed, done. -/
inductive Stage where
  | opening
  | subscribed (cursor : Nat)
  | yielding (rest : List Event) (cursor lastSeq : Nat)
  | following (cursor lastSeq : Nat)
  | ended

/-- A connection: its horizon, its handler, and the frames it has emitted. -/
structure Connection (π ρ : Type) where
  from' : Nat
  stage : Stage
  emitted : List (StreamFrame π ρ)

/-- The log, what the store has handed the fan-out thread, what that has broadcast, and a client:
where it started, what it has seen, and its connection. -/
structure State (π ρ : Type) where
  log : List Event
  queue : List Event
  broadcast : List Event
  start : Nat
  seen : List Event
  connection : Connection π ρ

/-- The state when the fan-out starts, over a log, and a client opens. -/
def State.opening (log : List Event) (start : Nat) : State π ρ :=
  ⟨log, [], [], start, [], start, .opening, []⟩

inductive Action (π : Type) where
  | append (recordedAt : Timestamp) (source : EventSource) (payloads : List EventPayload)
  | forward
  | subscribe
  | readSnapshot
  | yieldEvent
  | receive
  | lag
  /-- the feed is closed, or the server shuts down -/
  | close
  | progress (fragment : π)
  | progressClosed
  /-- the client or the network drops the connection -/
  | drop
  /-- the client reconnects, with so many events of the connection seen -/
  | reconnect (arrived : Nat)

/-- The handler at a stage of its own, with frames emitted. -/
def State.handle (state : State π ρ) (stage : Stage) (frames : List (StreamFrame π ρ)) : State π ρ :=
  { state with connection :=
    { state.connection with stage, emitted := state.connection.emitted ++ frames } }

/-- A client that has seen so many events of a connection asks for what follows the last. -/
def State.rejoin (state : State π ρ) (arrived : Nat) : State π ρ :=
  let seen := state.seen ++ (committedOf state.connection.emitted).take arrived
  let next := (seen.getLast?.map fun event => event.seq + 1).getD state.start
  { state with seen, connection := ⟨next, .opening, []⟩ }

/-- One step of the store, the fan-out thread, the handler or the client. -/
def step (state : State π ρ) : Action π → Option (State π ρ)
  | .append recordedAt source payloads =>
    let committed := commit state.log recordedAt source payloads
    some { state with log := state.log ++ committed, queue := state.queue ++ committed }
  | .forward =>
    match state.queue with
    | event :: queue => some { state with queue, broadcast := state.broadcast ++ [event] }
    | [] => none
  | .subscribe =>
    match state.connection.stage with
    | .opening => some (state.handle (.subscribed state.broadcast.length) [])
    | _ => none
  | .readSnapshot =>
    match state.connection.stage with
    | .subscribed cursor =>
      let snapshot := readFrom state.log state.connection.from'
      let lastSeq := (snapshot.getLast?.map Event.seq).getD (state.connection.from' - 1)
      some (state.handle (.yielding snapshot cursor lastSeq) [])
    | _ => none
  | .yieldEvent =>
    match state.connection.stage with
    | .yielding (event :: rest) cursor lastSeq =>
      some (state.handle (.yielding rest cursor lastSeq) [.event event])
    | .yielding [] cursor lastSeq => some (state.handle (.following cursor lastSeq) [])
    | _ => none
  | .receive =>
    match state.connection.stage with
    | .following cursor lastSeq =>
      match state.broadcast[cursor]? with
      | some event =>
        if event.seq ≤ lastSeq then some (state.handle (.following (cursor + 1) lastSeq) [])
        else some (state.handle (.following (cursor + 1) event.seq) [.event event])
      | none => none
    | _ => none
  | .lag =>
    match state.connection.stage with
    | .following cursor _ =>
      if cursor < state.broadcast.length then some (state.handle .ended [.streamEnd]) else none
    | _ => none
  | .close =>
    match state.connection.stage with
    | .following _ _ => some (state.handle .ended [.streamEnd])
    | _ => none
  | .progress fragment =>
    match state.connection.stage with
    | .following cursor lastSeq =>
      some (state.handle (.following cursor lastSeq) [.progress fragment])
    | _ => none
  | .progressClosed =>
    match state.connection.stage with
    | .following _ _ => some (state.handle .ended [])
    | _ => none
  | .drop => some (state.handle .ended [])
  | .reconnect arrived =>
    match state.connection.stage with
    | .ended => some (state.rejoin arrived)
    | _ => none

/-- A step reads with a horizon the store can take, or from a log without events. -/
def Meets (state : State π ρ) : Action π → Prop
  | .readSnapshot => state.connection.from' < 2 ^ 63 ∨ state.log = []
  | _ => True

/-- The steps that meet it. -/
def Steps (before : State π ρ) (action : Action π) (after : State π ρ) : Prop :=
  step before action = some after ∧ Meets before action

/-! ### What is wanted -/

/-- The events of a log from a horizon on. -/
def wanted (log : List Event) (horizon : Nat) : List Event :=
  log.filter fun event => horizon ≤ event.seq

/-- A log in the order of its positions, which start at one. -/
structure Ordered (log : List Event) : Prop where
  increasing : log.Pairwise fun one other => one.seq < other.seq
  positive : ∀ event ∈ log, 1 ≤ event.seq

/-- From past a log on, two horizons ask for the same. -/
def SameBeyond (log : List Event) (one other : Nat → Prop) : Prop :=
  ∀ seq, 1 ≤ seq → (∀ event ∈ log, event.seq < seq) → (one seq ↔ other seq)

/-- What the broadcast still has for a receiver. -/
def State.unreceived (state : State π ρ) (cursor : Nat) : List Event :=
  state.broadcast.drop cursor ++ state.queue

/-- A receiver at a place behind a last position, with so much of a snapshot to yield, has what is
wanted before it, at hand and on the way. -/
structure State.Joined (state : State π ρ) (rest : List Event) (cursor lastSeq : Nat) : Prop where
  within : cursor ≤ state.broadcast.length
  whole : committedOf state.connection.emitted ++ rest ++
    (state.unreceived cursor).filter (fun event => lastSeq < event.seq) =
      wanted state.log state.connection.from'
  beyond : SameBeyond state.log (state.connection.from' ≤ ·) (lastSeq < ·)

/-- What holds of a connection at a stage. -/
def State.Handled (state : State π ρ) : Stage → Prop
  | .opening => committedOf state.connection.emitted = []
  | .subscribed cursor =>
    committedOf state.connection.emitted = [] ∧ cursor ≤ state.broadcast.length
  | .yielding rest cursor lastSeq => state.Joined rest cursor lastSeq
  | .following cursor lastSeq => state.Joined [] cursor lastSeq
  | .ended => committedOf state.connection.emitted <+: wanted state.log state.connection.from'

/-- What holds of a state at all times. -/
structure State.Sound (state : State π ρ) : Prop where
  ordered : Ordered state.log
  fanned : ∃ earlier, state.log = earlier ++ state.broadcast ++ state.queue
  handled : state.Handled state.connection.stage
  next : state.connection.from' =
    (state.seen.getLast?.map fun event => event.seq + 1).getD state.start
  joins : wanted state.log state.start =
    state.seen ++ wanted state.log state.connection.from'
  beyond : SameBeyond state.log (state.start ≤ ·) (state.connection.from' ≤ ·)

/-! ### The log -/

section Log

variable {log more : List Event} {event : Event}

theorem le_foldl_max (log : List Event) (seq : Nat) :
    seq ≤ log.foldl (fun seq event => max seq event.seq) seq ∧
      ∀ event ∈ log, event.seq ≤ log.foldl (fun seq event => max seq event.seq) seq := by
  induction log generalizing seq with
  | nil => exact ⟨Nat.le_refl _, fun _ member => absurd member List.not_mem_nil⟩
  | cons first rest ih =>
    obtain ⟨above, all⟩ := ih (max seq first.seq)
    rw [List.foldl_cons]
    exact ⟨by omega, List.forall_mem_cons.mpr ⟨by omega, all⟩⟩

theorem le_maxSeq (member : event ∈ log) : event.seq ≤ maxSeq log := (le_foldl_max log 0).2 event member

theorem commit_spec (log : List Event) (recordedAt : Timestamp) (source : EventSource)
    (payloads : List EventPayload) :
    (commit log recordedAt source payloads).Pairwise (fun one other => one.seq < other.seq) ∧
      ∀ event ∈ commit log recordedAt source payloads, maxSeq log < event.seq := by
  unfold commit
  constructor
  · rw [List.pairwise_iff_getElem]
    intro one other within within' before
    simp only [List.getElem_mapIdx]
    omega
  · intro event member
    obtain ⟨place, within, rfl⟩ := List.mem_mapIdx.mp member
    dsimp only
    omega

theorem Ordered.append (ordered : Ordered log)
    (increasing : more.Pairwise fun one other => one.seq < other.seq)
    (past : ∀ event ∈ more, maxSeq log < event.seq) : Ordered (log ++ more) where
  increasing := List.pairwise_append.mpr ⟨ordered.increasing, increasing, fun _ member other later =>
    Nat.lt_of_le_of_lt (le_maxSeq member) (past other later)⟩
  positive := List.forall_mem_append.mpr ⟨ordered.positive, fun event member =>
    Nat.lt_of_le_of_lt (Nat.zero_le _) (past event member)⟩

theorem wanted_append (log more : List Event) (horizon : Nat) :
    wanted (log ++ more) horizon = wanted log horizon ++ wanted more horizon := List.filter_append ..

theorem SameBeyond.mono {one other : Nat → Prop} (same : SameBeyond log one other) :
    SameBeyond (log ++ more) one other :=
  fun seq positive past => same seq positive fun event member =>
    past event (List.mem_append_left _ member)

theorem SameBeyond.filter {one other : Nat → Prop} [DecidablePred one] [DecidablePred other]
    (same : SameBeyond log one other) (past : ∀ event ∈ more, maxSeq log < event.seq) :
    more.filter (fun event => one event.seq) = more.filter fun event => other event.seq := by
  refine List.filter_congr fun event member => ?_
  have later := past event member
  rw [decide_eq_decide]
  exact same event.seq (by omega) fun earlier before =>
    Nat.lt_of_le_of_lt (le_maxSeq before) later

theorem le_of_getLast?_wanted (ordered : Ordered log) {horizon : Nat} {last : Event}
    (final : (wanted log horizon).getLast? = some last) :
    last ∈ wanted log horizon ∧ ∀ event ∈ log, event.seq ≤ last.seq := by
  obtain ⟨front, split⟩ := List.getLast?_eq_some_iff.mp final
  have member : last ∈ wanted log horizon := by
    rw [split]
    simp
  have high : horizon ≤ last.seq := of_decide_eq_true (List.mem_filter.mp member).2
  refine ⟨member, fun event within => Nat.le_of_not_lt fun beyond => ?_⟩
  have among : event ∈ wanted log horizon :=
    List.mem_filter.mpr ⟨within, decide_eq_true (by omega)⟩
  have order : (wanted log horizon).Pairwise fun one other => one.seq < other.seq :=
    ordered.increasing.filter _
  rw [split] at among order
  rcases List.mem_append.mp among with before | same
  · have less := (List.pairwise_append.mp order).2.2 event before last (List.mem_singleton_self _)
    omega
  · rw [List.mem_singleton.mp same] at beyond
    omega

theorem wanted_past (ordered : Ordered log) {horizon : Nat} {front rest : List Event} {last : Event}
    (split : wanted log horizon = front ++ [last] ++ rest) :
    wanted log (last.seq + 1) = rest := by
  have high : horizon ≤ last.seq := by
    have member : last ∈ wanted log horizon := by
      rw [split]
      simp
    exact of_decide_eq_true (List.mem_filter.mp member).2
  have nested : wanted log (last.seq + 1) = wanted (wanted log horizon) (last.seq + 1) := by
    unfold wanted
    rw [List.filter_filter]
    refine List.filter_congr fun event _ => ?_
    rw [← Bool.decide_and, decide_eq_decide]
    omega
  have order : (wanted log horizon).Pairwise fun one other => one.seq < other.seq :=
    ordered.increasing.filter _
  rw [nested, split, wanted_append]
  rw [split, List.pairwise_append] at order
  have before : wanted (front ++ [last]) (last.seq + 1) = [] := by
    rw [wanted, List.filter_eq_nil_iff]
    intro event member
    rcases List.mem_append.mp member with earlier | same
    · have less := (List.pairwise_append.mp order.1).2.2 event earlier last
        (List.mem_singleton_self _)
      simp only [decide_eq_true_eq]
      omega
    · rw [List.mem_singleton.mp same]
      simp
  rw [before, List.nil_append, wanted, List.filter_eq_self]
  intro event member
  have more := order.2.2 last (by simp) event member
  exact decide_eq_true (by omega)

theorem readFrom_eq {horizon : Nat} (meets : horizon < 2 ^ 63 ∨ log = []) :
    readFrom log horizon = wanted log horizon := by
  rcases meets with small | rfl
  · unfold readFrom wanted
    refine List.filter_congr fun event _ => ?_
    rw [asI64, if_pos small, decide_eq_decide]
    omega
  · rfl

end Log

/-! ### Each step -/

section Each

variable {state after : State π ρ} {stage : Stage} {cursor lastSeq : Nat} {rest : List Event}

theorem committedOf_handle (stage : Stage) (frames : List (StreamFrame π ρ)) :
    committedOf (state.handle stage frames).connection.emitted =
      committedOf state.connection.emitted ++ committedOf frames :=
  committedOf_append ..

theorem State.Sound.handle (sound : state.Sound) {frames : List (StreamFrame π ρ)}
    (handled : (state.handle stage frames).Handled stage) : (state.handle stage frames).Sound :=
  { sound with handled }

theorem State.Handled.front (handled : state.Handled stage) :
    committedOf state.connection.emitted <+: wanted state.log state.connection.from' := by
  cases stage with
  | opening =>
    rw [show committedOf state.connection.emitted = [] from handled]
    exact List.nil_prefix
  | subscribed =>
    rw [handled.1]
    exact List.nil_prefix
  | yielding | following =>
    have whole := State.Joined.whole handled
    rw [List.append_assoc] at whole
    exact ⟨_, whole⟩
  | ended => exact handled

theorem unreceived_append (state : State π ρ) (more : List Event) (cursor : Nat) :
    State.unreceived { state with log := state.log ++ more, queue := state.queue ++ more } cursor =
      state.unreceived cursor ++ more := (List.append_assoc ..).symm

theorem State.Joined.append (joined : state.Joined rest cursor lastSeq) {more : List Event}
    (past : ∀ event ∈ more, maxSeq state.log < event.seq) :
    State.Joined { state with log := state.log ++ more, queue := state.queue ++ more }
      rest cursor lastSeq where
  within := joined.within
  whole := by
    rw [unreceived_append, List.filter_append, ← List.append_assoc, joined.whole, wanted_append,
      ← joined.beyond.filter past]
    rfl
  beyond := joined.beyond.mono

theorem State.Sound.append (sound : state.Sound) {more : List Event}
    (increasing : more.Pairwise fun one other => one.seq < other.seq)
    (past : ∀ event ∈ more, maxSeq state.log < event.seq) :
    State.Sound { state with log := state.log ++ more, queue := state.queue ++ more } where
  ordered := sound.ordered.append increasing past
  fanned := by
    obtain ⟨earlier, split⟩ := sound.fanned
    exact ⟨earlier, by rw [split, List.append_assoc (earlier ++ state.broadcast)]⟩
  handled := by
    have handled := sound.handled
    cases stage : state.connection.stage with
    | opening | subscribed =>
      rw [stage] at handled
      exact handled
    | yielding | following =>
      rw [stage] at handled
      exact State.Joined.append handled past
    | ended =>
      rw [stage] at handled
      have front : committedOf state.connection.emitted <+: _ := handled
      refine front.trans ?_
      rw [wanted_append]
      exact List.prefix_append ..
  next := sound.next
  joins := by
    rw [wanted_append, wanted_append, sound.joins, List.append_assoc]
    exact congrArg _ (congrArg _ (sound.beyond.filter past))
  beyond := sound.beyond.mono

theorem unreceived_forward {event : Event} {queue : List Event} (held : state.queue = event :: queue)
    (within : cursor ≤ state.broadcast.length) :
    State.unreceived { state with queue, broadcast := state.broadcast ++ [event] } cursor =
      state.unreceived cursor := by
  rw [State.unreceived, State.unreceived, List.drop_append_of_le_length within, held,
    List.append_assoc]
  rfl

theorem State.Joined.forward (joined : state.Joined rest cursor lastSeq) {event : Event}
    {queue : List Event} (held : state.queue = event :: queue) :
    State.Joined { state with queue, broadcast := state.broadcast ++ [event] } rest cursor lastSeq where
  within := by
    rw [List.length_append]
    exact Nat.le_trans joined.within (Nat.le_add_right ..)
  whole := by
    rw [unreceived_forward held joined.within]
    exact joined.whole
  beyond := joined.beyond

theorem State.Sound.forward (sound : state.Sound) {event : Event} {queue : List Event}
    (held : state.queue = event :: queue) :
    State.Sound { state with queue, broadcast := state.broadcast ++ [event] } where
  ordered := sound.ordered
  fanned := by
    obtain ⟨earlier, split⟩ := sound.fanned
    refine ⟨earlier, split.trans ?_⟩
    rw [held]
    simp
  handled := by
    have handled := sound.handled
    cases stage : state.connection.stage with
    | opening | ended =>
      rw [stage] at handled
      exact handled
    | subscribed =>
      rw [stage] at handled
      refine ⟨handled.1, ?_⟩
      rw [List.length_append]
      exact Nat.le_trans handled.2 (Nat.le_add_right ..)
    | yielding | following =>
      rw [stage] at handled
      exact State.Joined.forward handled held
  next := sound.next
  joins := sound.joins
  beyond := sound.beyond

theorem State.Sound.read (sound : state.Sound) (stage : state.connection.stage = .subscribed cursor)
    (meets : state.connection.from' < 2 ^ 63 ∨ state.log = []) :
    (state.handle (.yielding (readFrom state.log state.connection.from') cursor
      (((readFrom state.log state.connection.from').getLast?.map Event.seq).getD
        (state.connection.from' - 1))) []).Sound := by
  have handled := sound.handled
  rw [stage] at handled
  obtain ⟨none, within⟩ := handled
  rw [readFrom_eq meets]
  obtain ⟨earlier, split⟩ := sound.fanned
  have among : ∀ event ∈ state.unreceived cursor, event ∈ state.log := by
    intro event member
    rw [split]
    rcases List.mem_append.mp member with sent | queued
    · exact List.mem_append_left _ (List.mem_append_right _ (List.mem_of_mem_drop sent))
    · exact List.mem_append_right _ queued
  generalize shows : wanted state.log state.connection.from' = snapshot
  cases final : snapshot.getLast? with
  | none =>
    have empty : snapshot = [] := List.getLast?_eq_none_iff.mp final
    have below : ∀ event ∈ state.log, event.seq < state.connection.from' := by
      intro event member
      rw [empty, wanted, List.filter_eq_nil_iff] at shows
      have not := shows event member
      simp only [decide_eq_true_eq] at not
      omega
    refine sound.handle ⟨within, ?_, fun seq positive _ => ?_⟩
    · have passed : (state.unreceived cursor).filter
          (fun event => state.connection.from' - 1 < event.seq) = [] := by
        rw [List.filter_eq_nil_iff]
        intro event member
        have less := below event (among event member)
        have positive := sound.ordered.positive event (among event member)
        simp only [decide_eq_true_eq]
        omega
      change committedOf (state.connection.emitted ++ []) ++ snapshot ++
        (state.unreceived cursor).filter _ = wanted state.log state.connection.from'
      rw [List.append_nil, none, shows]
      exact (congrArg _ passed).trans (List.append_nil _)
    · change state.connection.from' ≤ seq ↔ state.connection.from' - 1 < seq
      omega
  | some last =>
    rw [← shows] at final
    obtain ⟨member, highest⟩ := le_of_getLast?_wanted sound.ordered final
    have reached : state.connection.from' ≤ last.seq :=
      of_decide_eq_true (List.mem_filter.mp member).2
    refine sound.handle ⟨within, ?_, fun seq _ past => ?_⟩
    · have passed : (state.unreceived cursor).filter (fun event => last.seq < event.seq) = [] := by
        rw [List.filter_eq_nil_iff]
        intro event within
        have less := highest event (among event within)
        simp only [decide_eq_true_eq]
        omega
      change committedOf (state.connection.emitted ++ []) ++ snapshot ++
        (state.unreceived cursor).filter _ = wanted state.log state.connection.from'
      rw [List.append_nil, none, shows]
      exact (congrArg _ passed).trans (List.append_nil _)
    · have beyond := past last (List.mem_filter.mp member).1
      change state.connection.from' ≤ seq ↔ last.seq < seq
      omega

theorem State.Joined.yield {event : Event} (joined : state.Joined (event :: rest) cursor lastSeq) :
    (state.handle stage [.event event]).Joined rest cursor lastSeq where
  within := joined.within
  whole := by
    rw [committedOf_handle]
    have whole := joined.whole
    rw [List.append_cons] at whole
    exact whole
  beyond := joined.beyond

theorem State.Joined.quiet (joined : state.Joined rest cursor lastSeq)
    {frames : List (StreamFrame π ρ)} (quiet : committedOf frames = []) :
    (state.handle stage frames).Joined rest cursor lastSeq where
  within := joined.within
  whole := by
    rw [committedOf_handle, quiet, List.append_nil]
    exact joined.whole
  beyond := joined.beyond

theorem unreceived_cons {event : Event} (next : state.broadcast[cursor]? = some event) :
    state.unreceived cursor = event :: state.unreceived (cursor + 1) := by
  obtain ⟨within, rfl⟩ := List.getElem?_eq_some_iff.mp next
  rw [State.unreceived, List.drop_eq_getElem_cons within]
  rfl

theorem State.Joined.pass (joined : state.Joined rest cursor lastSeq) {event : Event}
    (next : state.broadcast[cursor]? = some event) (had : event.seq ≤ lastSeq) :
    (state.handle stage []).Joined rest (cursor + 1) lastSeq where
  within := (List.getElem?_eq_some_iff.mp next).1
  whole := by
    have whole := joined.whole
    rw [unreceived_cons next, List.filter_cons_of_neg (by simp [had])] at whole
    rw [committedOf_handle]
    exact (congrArg (· ++ rest ++ _) (List.append_nil _)).trans whole
  beyond := joined.beyond

theorem State.Joined.receive (joined : state.Joined [] cursor lastSeq) (sound : state.Sound)
    {event : Event} (next : state.broadcast[cursor]? = some event) (new : ¬ event.seq ≤ lastSeq) :
    (state.handle stage [.event event]).Joined [] (cursor + 1) event.seq := by
  obtain ⟨earlier, split⟩ := sound.fanned
  have reaches : state.log =
      earlier ++ state.broadcast.take cursor ++ event :: state.unreceived (cursor + 1) := by
    rw [← unreceived_cons next, State.unreceived, split, List.append_assoc earlier,
      List.append_assoc earlier, ← List.append_assoc (state.broadcast.take cursor),
      List.take_append_drop, ← List.append_assoc]
  have order := sound.ordered.increasing
  rw [reaches] at order
  have follow : ∀ other ∈ state.unreceived (cursor + 1), event.seq < other.seq :=
    (List.pairwise_cons.mp (List.pairwise_append.mp order).2.1).1
  -- what is still to come is past the event, so past the last position before it too
  have same : (state.unreceived (cursor + 1)).filter (fun other => lastSeq < other.seq) =
      (state.unreceived (cursor + 1)).filter fun other => event.seq < other.seq := by
    refine List.filter_congr fun other member => ?_
    have later := follow other member
    rw [decide_eq_decide]
    omega
  refine ⟨(List.getElem?_eq_some_iff.mp next).1, ?_, fun seq positive past => ?_⟩
  · have whole := joined.whole
    rw [unreceived_cons next, List.filter_cons_of_pos (by simpa using new), same,
      List.append_nil, List.append_cons] at whole
    rw [committedOf_handle, List.append_nil]
    exact whole
  · have member : event ∈ state.log := by
      rw [reaches]
      simp
    have beyond := past event member
    have wanting := joined.beyond seq positive past
    change state.connection.from' ≤ seq ↔ event.seq < seq
    omega

theorem State.Sound.rejoin (sound : state.Sound) (arrived : Nat) :
    (state.rejoin arrived).Sound := by
  rw [State.rejoin]
  generalize took : state.seen ++ (committedOf state.connection.emitted).take arrived = seen
  obtain ⟨rest, split⟩ := (List.take_prefix arrived _).trans sound.handled.front
  cases final : ((committedOf state.connection.emitted).take arrived).getLast? with
  | none =>
    have nothing := List.getLast?_eq_none_iff.mp final
    rw [nothing, List.append_nil] at took
    rw [← took]
    exact ⟨sound.ordered, sound.fanned, rfl, rfl, by rw [← sound.next]; exact sound.joins,
      by rw [← sound.next]; exact sound.beyond⟩
  | some last =>
    obtain ⟨front, parts⟩ := List.getLast?_eq_some_iff.mp final
    have reached : state.connection.from' ≤ last.seq := by
      have member : last ∈ wanted state.log state.connection.from' := by
        rw [← split, parts]
        simp
      exact of_decide_eq_true (List.mem_filter.mp member).2
    have logged : last ∈ state.log := by
      have member : last ∈ wanted state.log state.connection.from' := by
        rw [← split, parts]
        simp
      exact (List.mem_filter.mp member).1
    have next : (seen.getLast?.map fun event => event.seq + 1).getD state.start = last.seq + 1 := by
      rw [← took, parts]
      simp
    rw [next]
    refine ⟨sound.ordered, sound.fanned, rfl, next.symm, ?_, fun seq positive past => ?_⟩
    · change wanted state.log state.start = seen ++ wanted state.log (last.seq + 1)
      rw [wanted_past sound.ordered (parts ▸ split.symm), sound.joins, ← took, List.append_assoc,
        split]
    · have beyond := past last logged
      have wanting := sound.beyond seq positive past
      change state.start ≤ seq ↔ last.seq + 1 ≤ seq
      omega

theorem State.Sound.ends (sound : state.Sound) {frames : List (StreamFrame π ρ)}
    (quiet : committedOf frames = []) : (state.handle .ended frames).Sound := by
  refine sound.handle ?_
  change committedOf (state.handle .ended frames).connection.emitted <+: _
  rw [committedOf_handle, quiet, List.append_nil]
  exact sound.handled.front

theorem State.Sound.step (sound : state.Sound) {action : Action π}
    (taken : Steps state action after) : after.Sound ∧ after.start = state.start := by
  obtain ⟨does, meets⟩ := taken
  have handled := sound.handled
  cases action with
  | append recordedAt source payloads =>
    cases does
    obtain ⟨increasing, past⟩ := commit_spec state.log recordedAt source payloads
    exact ⟨sound.append increasing past, rfl⟩
  | forward =>
    cases held : state.queue with
    | nil => simp only [Control.step, held, reduceCtorEq] at does
    | cons =>
      simp only [Control.step, held, Option.some.injEq] at does
      subst does
      exact ⟨sound.forward held, rfl⟩
  | drop =>
    cases does
    exact ⟨sound.ends rfl, rfl⟩
  | subscribe =>
    cases stage : state.connection.stage <;>
      simp only [Control.step, stage, reduceCtorEq, Option.some.injEq] at does
    subst does
    rw [stage] at handled
    exact ⟨sound.handle ⟨by rw [committedOf_handle, handled]; rfl, Nat.le_refl _⟩, rfl⟩
  | readSnapshot =>
    cases stage : state.connection.stage <;>
      simp only [Control.step, stage, reduceCtorEq, Option.some.injEq] at does
    subst does
    exact ⟨sound.read stage meets, rfl⟩
  | yieldEvent =>
    cases stage : state.connection.stage with
    | opening | subscribed | following | ended =>
      simp only [Control.step, stage, reduceCtorEq] at does
    | yielding rest cursor lastSeq =>
      rw [stage] at handled
      cases rest <;> simp only [Control.step, stage, Option.some.injEq] at does <;> subst does
      · exact ⟨sound.handle (State.Joined.quiet handled rfl), rfl⟩
      · exact ⟨sound.handle (State.Joined.yield handled), rfl⟩
  | receive =>
    cases stage : state.connection.stage with
    | opening | subscribed | yielding | ended =>
      simp only [Control.step, stage, reduceCtorEq] at does
    | following cursor lastSeq =>
      rw [stage] at handled
      cases next : state.broadcast[cursor]? with
      | none => simp only [Control.step, stage, next, reduceCtorEq] at does
      | some event =>
        by_cases had : event.seq ≤ lastSeq
        · simp only [Control.step, stage, next, if_pos had, Option.some.injEq] at does
          subst does
          exact ⟨sound.handle (State.Joined.pass handled next had), rfl⟩
        · simp only [Control.step, stage, next, if_neg had, Option.some.injEq] at does
          subst does
          exact ⟨sound.handle (State.Joined.receive handled sound next had), rfl⟩
  | progress =>
    cases stage : state.connection.stage <;>
      simp only [Control.step, stage, reduceCtorEq, Option.some.injEq] at does
    subst does
    rw [stage] at handled
    exact ⟨sound.handle (State.Joined.quiet handled rfl), rfl⟩
  | lag =>
    cases stage : state.connection.stage <;>
      simp only [Control.step, stage, reduceCtorEq] at does
    rw [Option.ite_none_right_eq_some] at does
    obtain ⟨-, does⟩ := does
    cases does
    exact ⟨sound.ends rfl, rfl⟩
  | close | progressClosed =>
    cases stage : state.connection.stage <;>
      simp only [Control.step, stage, reduceCtorEq, Option.some.injEq] at does
    subst does
    exact ⟨sound.ends rfl, rfl⟩
  | reconnect arrived =>
    cases stage : state.connection.stage <;>
      simp only [Control.step, stage, reduceCtorEq, Option.some.injEq] at does
    subst does
    exact ⟨sound.rejoin arrived, rfl⟩

end Each

/-! ### Every run -/

theorem State.Sound.opening {log : List Event} (ordered : Ordered log) (start : Nat) :
    (State.opening log start : State π ρ).Sound where
  ordered := ordered
  fanned := ⟨log, by simp [State.opening]⟩
  handled := rfl
  next := rfl
  joins := rfl
  beyond := fun _ _ _ => Iff.rfl

/-- On every run whose reads meet the condition, a connection has emitted what is wanted of the
log from its horizon on, in order, up to the last event emitted; and what the client saw before it
joins on from its start. Once the receiver has had all, so has the client. -/
theorem stream_gapless {log : List Event} {start : Nat} {labels : List (Action π)}
    {final : State π ρ} (ordered : Ordered log)
    (run : Trace Steps (State.opening log start) labels final) :
    Ordered final.log ∧
      committedOf final.connection.emitted <+: wanted final.log final.connection.from' ∧
      final.seen ++ committedOf final.connection.emitted <+: wanted final.log start ∧
      ∀ cursor lastSeq, final.connection.stage = .following cursor lastSeq →
        final.unreceived cursor = [] →
          final.seen ++ committedOf final.connection.emitted = wanted final.log start := by
  have holds : final.Sound ∧ final.start = start := by
    refine run.invariant (fun state => state.Sound ∧ state.start = start) ?_
      ⟨.opening ordered start, rfl⟩
    intro before label after taken held
    obtain ⟨sound, started⟩ := held.1.step taken
    exact ⟨sound, started.trans held.2⟩
  obtain ⟨sound, rfl⟩ := holds
  refine ⟨sound.ordered, sound.handled.front, ?_, fun cursor lastSeq stage drained => ?_⟩
  · rw [sound.joins]
    exact (List.prefix_append_right_inj _).mpr sound.handled.front
  · have handled := sound.handled
    rw [stage] at handled
    have whole := State.Joined.whole handled
    rw [drained, List.filter_nil, List.append_nil, List.append_nil] at whole
    rw [sound.joins, whole]

namespace Genesis

def first : Event := ⟨1, ⟨0⟩, .bootstrap, .genesisCompleted⟩

def second : Event := ⟨2, ⟨0⟩, .agent, .genesisCompleted⟩

def labels : List (Action Unit) :=
  [.subscribe, .append ⟨0⟩ .agent [.genesisCompleted], .readSnapshot, .yieldEvent, .drop,
    .reconnect 1, .subscribe, .readSnapshot, .forward, .yieldEvent, .yieldEvent, .receive]

def final : State Unit Unit :=
  ⟨[first, second], [], [second], 1, [first], ⟨2, .following 1 2, [.event second]⟩⟩

theorem ordered : Ordered [first] where
  increasing := List.pairwise_singleton _ _
  positive := List.forall_mem_singleton.mpr (Nat.le_refl 1)

theorem run : Trace Steps (State.opening [first] 1) labels final :=
  .cons ⟨rfl, trivial⟩ <| .cons ⟨rfl, trivial⟩ <| .cons ⟨rfl, .inl (by decide +kernel)⟩ <|
    .cons ⟨rfl, trivial⟩ <| .cons ⟨rfl, trivial⟩ <| .cons ⟨rfl, trivial⟩ <|
    .cons ⟨rfl, trivial⟩ <| .cons ⟨rfl, .inl (by decide +kernel)⟩ <| .cons ⟨rfl, trivial⟩ <|
    .cons ⟨rfl, trivial⟩ <| .cons ⟨rfl, trivial⟩ <| .cons ⟨rfl, trivial⟩ <| .nil _

/-- It reconnects after the first and is sent the second. -/
theorem reconnect_joins :
    final.seen ++ committedOf final.connection.emitted = wanted final.log 1 :=
  (stream_gapless ordered run).2.2.2 1 2 rfl rfl

def past : State Unit Unit :=
  ⟨[first], [], [], 2 ^ 63, [], ⟨2 ^ 63, .yielding [] 0 1, [.event first]⟩⟩

/-- Asked for from 2^63 on, a log of one event is sent, of which nothing is wanted. -/
theorem horizon_ignored :
    Trace (fun before action after => step before action = some after)
        (State.opening [first] (2 ^ 63)) [.subscribe, .readSnapshot, .yieldEvent] past ∧
      committedOf past.connection.emitted = [first] ∧
      wanted past.log past.connection.from' = [] :=
  ⟨.cons rfl (.cons rfl (.cons rfl (.nil _))), rfl, by decide +kernel⟩

end Genesis

end Zuihitsu.Control
