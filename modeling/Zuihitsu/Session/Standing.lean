/-
# What holds in any order of steps

The locks are held by one task each, a conversation has at most one open session,
and whatever may open another holds the lifecycle lock and has seen that one close.
This needs nothing of the order of the steps: a compaction that closes a session
without the lock can only leave fewer of them open.
-/

import Zuihitsu.Session.Lifecycle

namespace Zuihitsu.Session

open Zuihitsu.Core Zuihitsu.Turn Zuihitsu.Library

/-! ### The invariant -/

/-- The log is numbered by position. -/
def Positioned (log : List SessionEvent) : Prop :=
  ∀ before event after, log = before ++ event :: after → event.seq = before.length + 1

/-- A session in a task's hands is one the log has started, with its own positions. -/
def Known (log : List SessionEvent) (conversation : ConversationId) (session : OpenSession) :
    Prop :=
  session.startSeq ≤ session.sessionStartSeq ∧
    ∃ view ∈ sessionsOf log conversation, view.id = session.id ∧
      view.startSeq = session.sessionStartSeq

/-- No session of the conversation is open but this one. -/
def OnlyOpen (log : List SessionEvent) (conversation : ConversationId) (id : SessionId) : Prop :=
  ∀ view ∈ openSessions log conversation, view.id = id

/-- What a place says of the log. -/
def Place.Stands (log : List SessionEvent) : Place → Prop
  | composing conversation tail =>
    openSessions log conversation = [] ∧ ∀ turn ∈ tail, turn.2 ≤ log.length
  | joined conversation session | running conversation session
  | picked conversation session _ _ | awaiting conversation session _ _
  | flushing conversation session .checkpoint => Known log conversation session
  | listed conversation recovered _ | claiming conversation recovered _ =>
    recovered ∈ sessionsOf log conversation
  | flushing conversation session (.closing closing) | ending conversation session closing =>
    Known log conversation session ∧
      (closing = .recovery ∨ closing = .lapsed → OnlyOpen log conversation session.id)
  | queued _ | admitted _ => True

/-- What holds of every state. -/
structure Standing (state : State) : Prop where
  positions : Positioned state.log
  named : ∀ first second, ∀ one ∈ sessionsOf state.log first,
    ∀ two ∈ sessionsOf state.log second, one.id = two.id → first = second ∧ one = two
  single : ∀ conversation, ∀ one ∈ openSessions state.log conversation,
    ∀ two ∈ openSessions state.log conversation, one = two
  slots : ∀ conversation, state.tasks.AtMostOne (Place.HoldsSlot conversation)
  locks : ∀ conversation, state.tasks.AtMostOne (Place.HoldsLock conversation)
  live : ∀ conversation session, state.live conversation = some session →
    Known state.log conversation session ∧ OnlyOpen state.log conversation session.id
  places : ∀ task place, state.tasks task = some place → place.Stands state.log
  taken : ∀ conversation task place, state.tasks task = some place →
    place.HoldsSlot conversation → place.HoldsLock conversation → state.live conversation = none

/-- No other task is in the slot or under the lock, where the place is, and the map is empty
where it is in both. -/
structure State.MayMove (state : State) (task : Nat) (place : Place) : Prop where
  slot : ∀ conversation, place.HoldsSlot conversation →
    state.tasks.Alone task (Place.HoldsSlot conversation)
  lock : ∀ conversation, place.HoldsLock conversation →
    state.tasks.Alone task (Place.HoldsLock conversation)
  taken : ∀ conversation, place.HoldsSlot conversation → place.HoldsLock conversation →
    state.live conversation = none

section Log

variable {log longer : List SessionEvent} {event : SessionEvent} {conversation : ConversationId}
variable {session : OpenSession} {id : SessionId} {place : Place} {view : SessionView}

theorem positioned_nil : Positioned [] := by
  intro before event after split
  cases before <;> cases split

theorem positioned_concat (positions : Positioned log) (next : event.seq = log.length + 1) :
    Positioned (log ++ [event]) := by
  intro before inner after split
  rcases List.eq_nil_or_concat after with rfl | ⟨rest, last, rfl⟩
  · have ⟨same, here⟩ := List.append_inj' split rfl
    cases here
    exact same ▸ next
  · have whole : log ++ [event] = (before ++ inner :: rest) ++ [last] := by
      rw [split, List.concat_eq_append, List.append_assoc, List.cons_append]
    exact positions before inner rest (List.append_inj' whole rfl).1

theorem Positioned.seq_le (positions : Positioned log) (recorded : event ∈ log) :
    event.seq ≤ log.length := by
  obtain ⟨before, after, split⟩ := List.append_of_mem recorded
  have place := positions before event after split
  rw [split, List.length_append, List.length_cons]
  omega

theorem starts_startSeq (started : starts conversation event = some view) :
    view.startSeq = event.seq := by
  unfold starts at started
  split at started
  · split at started
    · cases started
      rfl
    · cases started
  · cases started

theorem Known.grow (known : Known log conversation session)
    (more : sessionsOf log conversation ⊆ sessionsOf longer conversation) :
    Known longer conversation session := by
  obtain ⟨order, view, member, named⟩ := known
  exact ⟨order, view, more member, named⟩

theorem Place.Stands.grow (stands : place.Stands log)
    (more : ∀ conversation, sessionsOf log conversation ⊆ sessionsOf longer conversation)
    (opens : ∀ conversation, place.HoldsLock conversation →
      openSessions longer conversation ⊆ openSessions log conversation)
    (longer' : log.length ≤ longer.length) : place.Stands longer := by
  cases place with
  | queued | admitted => trivial
  | composing conversation tail =>
    have ⟨nothing, within⟩ := stands
    refine ⟨?_, fun turn member => (within turn member).trans longer'⟩
    exact List.eq_nil_of_subset_nil (nothing ▸ opens conversation rfl)
  | joined conversation session => exact Known.grow stands (more conversation)
  | running conversation session => exact Known.grow stands (more conversation)
  | listed conversation recovered now => exact more conversation stands
  | claiming conversation recovered lastActivity => exact more conversation stands
  | picked conversation session trigger now => exact Known.grow stands (more conversation)
  | awaiting conversation session trigger now => exact Known.grow stands (more conversation)
  | flushing conversation session purpose =>
    cases purpose with
    | checkpoint => exact Known.grow stands (more conversation)
    | closing =>
      have ⟨known, only⟩ := stands
      refine ⟨known.grow (more conversation), fun locked view open' => ?_⟩
      exact only locked view (opens conversation ⟨rfl, by rcases locked with rfl | rfl <;> rfl⟩ open')
  | ending conversation session closing =>
    have ⟨known, only⟩ := stands
    refine ⟨known.grow (more conversation), fun locked view open' => ?_⟩
    exact only locked view (opens conversation ⟨rfl, by rcases locked with rfl | rfl <;> rfl⟩ open')

theorem mem_open_of_known (known : Known log conversation session)
    (stands : sessionIsOpen log session.id = true) :
    ∃ view ∈ openSessions log conversation, view.id = session.id ∧
      view.startSeq = session.sessionStartSeq := by
  obtain ⟨_, view, member, named, place⟩ := known
  rw [sessionIsOpen, Bool.and_eq_true, Bool.not_eq_true'] at stands
  exact ⟨view, mem_openSessions.mpr ⟨member, named ▸ stands.2⟩, named, place⟩

end Log

/-! ### Moves of the tasks and the map -/

namespace Standing

variable {state : State} {task : Nat} {place : Place} {conversation : ConversationId}
variable {session : OpenSession} {closing : Closing} {now : Timestamp}

theorem start : Standing {} where
  positions := positioned_nil
  named := by
    intro first second one member
    cases member
  single := by
    intro conversation one member
    cases member
  slots := fun _ => Tasks.atMostOne_none
  locks := fun _ => Tasks.atMostOne_none
  live := by
    intro conversation session live
    cases live
  places := by
    intro task place here
    cases here
  taken := by
    intro conversation task place here
    cases here

theorem move (standing : Standing state) (stands : place.Stands state.log)
    (may : state.MayMove task place) : Standing (state.move task (some place)) where
  positions := standing.positions
  named := standing.named
  single := standing.single
  slots conversation := by
    refine (standing.slots conversation).put fun here arrived holds => ?_
    cases arrived
    exact may.slot conversation holds
  locks conversation := by
    refine (standing.locks conversation).put fun here arrived holds => ?_
    cases arrived
    exact may.lock conversation holds
  live := standing.live
  places := by
    refine Tasks.forall_put (fun other here _ => standing.places other here) ?_
    intro here arrived
    cases arrived
    exact stands
  taken conversation := by
    refine Tasks.forall_put (fun other here _ => standing.taken conversation other here) ?_
    intro here arrived
    cases arrived
    exact may.taken conversation

theorem leave (standing : Standing state) (task : Nat) : Standing (state.move task none) where
  positions := standing.positions
  named := standing.named
  single := standing.single
  slots conversation := (standing.slots conversation).put fun _ arrived => nomatch arrived
  locks conversation := (standing.locks conversation).put fun _ arrived => nomatch arrived
  live := standing.live
  places := Tasks.forall_put (fun other here _ => standing.places other here)
    fun _ arrived => nomatch arrived
  taken conversation := Tasks.forall_put
    (fun other here _ => standing.taken conversation other here) fun _ arrived => nomatch arrived

theorem join (standing : Standing state) (known : Known state.log conversation session)
    (only : OnlyOpen state.log conversation session.id)
    (slot : state.tasks.Alone task (Place.HoldsSlot conversation)) :
    Standing (state.join task conversation session) := by
  have still : ∀ other, other ≠ conversation →
      (state.join task conversation session).live other = state.live other :=
    fun other apart => state.setLive_other conversation (some session) apart
  refine
    { positions := standing.positions
      named := standing.named
      single := standing.single
      slots := ?_
      locks := ?_
      live := ?_
      places := ?_
      taken := ?_ }
  · intro own
    refine (standing.slots own).put fun here arrived holds => ?_
    cases arrived
    cases holds
    exact slot
  · intro own
    refine (standing.locks own).put fun here arrived holds => ?_
    cases arrived
    cases holds
  · intro other current live
    rcases (State.setLive_eq_some ..).mp live with ⟨rfl, put⟩ | ⟨_, stayed⟩
    · cases put
      exact ⟨known, only⟩
    · exact standing.live other current stayed
  · refine Tasks.forall_put (fun other here _ => standing.places other here) ?_
    intro here arrived
    cases arrived
    exact known
  · intro own
    refine Tasks.forall_put (fun other here apart there inSlot locked => ?_) ?_
    · by_cases same : own = conversation
      · subst same
        exact absurd inSlot (slot other here apart there)
      · rw [still own same]
        exact standing.taken own other here there inSlot locked
    · intro here arrived _ locked
      cases arrived
      cases locked

theorem takeLive (standing : Standing state) (conversation : ConversationId) :
    Standing (state.setLive conversation none) :=
  { standing with
    live := by
      intro other current live
      rcases (State.setLive_eq_some ..).mp live with ⟨_, put⟩ | ⟨_, stayed⟩
      · cases put
      · exact standing.live other current stayed
    taken := by
      intro other task place here inSlot locked
      by_cases same : other = conversation
      · rw [same]
        exact state.setLive_self conversation none
      · rw [state.setLive_other conversation none same]
        exact standing.taken other task place here inSlot locked }

theorem hand (standing : Standing state) (handed : List Handed) :
    Standing { state with handed } := { standing with }

theorem onlyOpen (standing : Standing state) (known : Known state.log conversation session)
    (stands : sessionIsOpen state.log session.id = true) :
    OnlyOpen state.log conversation session.id := by
  obtain ⟨view, open', named, _⟩ := mem_open_of_known known stands
  intro other otherOpen
  rw [standing.single conversation other otherOpen view open', named]

/-! ### Appends -/

theorem tell (standing : Standing state) (now : Timestamp) {payload : SessionPayload}
    (silent : isStart payload = false) : Standing (state.append now [payload]) := by
  have same : ∀ conversation,
      sessionsOf (state.append now [payload]).log conversation =
        sessionsOf state.log conversation := fun _ => sessionsOf_concat silent
  have fewer : ∀ conversation,
      openSessions (state.append now [payload]).log conversation ⊆
        openSessions state.log conversation := fun _ => openSessions_subset silent
  refine
    { positions := positioned_concat standing.positions rfl
      named := ?_
      single := ?_
      slots := standing.slots
      locks := standing.locks
      live := ?_
      places := ?_
      taken := standing.taken }
  · intro first second
    rw [same first, same second]
    exact standing.named first second
  · intro conversation one first two second
    exact standing.single conversation one (fewer conversation first) two
      (fewer conversation second)
  · intro conversation session live
    have ⟨known, only⟩ := standing.live conversation session live
    refine ⟨known.grow (same conversation ▸ List.Subset.refl _), fun view member => ?_⟩
    exact only view (fewer conversation member)
  · intro task place here
    refine (standing.places task place here).grow (fun conversation => ?_)
      (fun conversation _ => fewer conversation) ?_
    · rw [same]
      exact List.Subset.refl _
    · exact Nat.le_of_lt (by simp [State.append, record])

theorem tellAll (standing : Standing state) (now : Timestamp) {payloads : List SessionPayload}
    (silent : ∀ payload ∈ payloads, isStart payload = false) :
    Standing (state.append now payloads) := by
  induction payloads generalizing state with
  | nil => exact standing
  | cons payload rest ih =>
    have first := standing.tell now (silent payload List.mem_cons_self)
    exact ih first fun payload member => silent payload (List.mem_cons_of_mem _ member)

end Standing

end Zuihitsu.Session
