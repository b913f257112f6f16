/-
# Where the log is well bracketed

A session is closed once, and everything is recorded between its two ends, as long as
nothing takes it away from a task that uses it. The lifecycle lock keeps most closes
apart. A compaction takes no lock, and the idle sweep claims a session without asking
again whether a turn has come to it, so these are where a run must take care.
-/

import Zuihitsu.Session.Upkeep

namespace Zuihitsu.Session

open Zuihitsu.Core Zuihitsu.Turn Zuihitsu.Library

/-! ### What a well bracketed log is -/

/-- Sessions of a conversation do not overlap, each ends once at most, and what a participant
or the agent contributes comes between the start and the end of the session it ran in. -/
structure WellBracketed (log : List SessionEvent) : Prop where
  apart : ∀ before first between second after conversation, ∀ one two : SessionView,
    log = before ++ first :: between ++ second :: after →
    starts conversation first = some one → starts conversation second = some two →
    ∃ event ∈ between, endsSession one.id event = true
  once : ∀ before first between second after id,
    log = before ++ first :: between ++ second :: after →
    endsSession id first = true → endsSession id second = false
  within : ∀ before event after conversation, log = before ++ event :: after →
    spokenIn event.payload.turnPayload = some conversation →
    ∃ session payload, event.payload = .turn session payload ∧
      (∃ view ∈ sessionsOf before conversation, view.id = session) ∧ isEnded before session = false

section Reading

variable {log before after : List SessionEvent} {event : SessionEvent} {id : SessionId}

theorem endsSession_iff : endsSession id event = true ↔
    ∃ conversation cause, event.payload = .sessionEnded conversation id cause := by
  unfold endsSession
  split
  · rename_i conversation ended cause payload
    rw [decide_eq_true_iff]
    constructor
    · rintro rfl
      exact ⟨conversation, cause, payload⟩
    · rintro ⟨_, _, same⟩
      exact ((SessionPayload.sessionEnded.injEq ..).mp (payload.symm.trans same)).2.1
  · rename_i other
    exact ⟨nofun, fun ⟨_, _, payload⟩ => absurd payload (other _ _ _)⟩

theorem starts_eq_some {conversation : ConversationId} {view : SessionView}
    (started : starts conversation event = some view) :
    ∃ seededFromTurn, event.payload =
      .sessionStarted conversation view.id view.startedAt seededFromTurn := by
  unfold starts at started
  split at started
  · rename_i payload
    split at started
    · rename_i same
      cases started
      exact ⟨_, same ▸ payload⟩
    · cases started
  · cases started

theorem Bracketed.leading (bracketed : Bracketed (before ++ after)) : Bracketed before := by
  intro earlier event later split
  exact bracketed earlier event (later ++ after) (by simp [split])

theorem Bracketed.started_of_ended (bracketed : Bracketed log) (ended : isEnded log id = true) :
    isStarted log id = true := by
  obtain ⟨event, recorded, ends⟩ := List.any_eq_true.mp ended
  obtain ⟨before, after, rfl⟩ := List.append_of_mem recorded
  obtain ⟨conversation, cause, payload⟩ := endsSession_iff.mp ends
  have fits := bracketed before event after rfl
  rw [payload] at fits
  obtain ⟨view, open', rfl⟩ := fits
  rw [isStarted_append, isStarted_of_mem (mem_openSessions.mp open').1, Bool.true_or]

theorem Bracketed.wellBracketed (bracketed : Bracketed log) : WellBracketed log where
  apart before first between second after conversation one two split started again := by
    obtain ⟨seeded, payload⟩ := starts_eq_some started
    obtain ⟨seeded', payload'⟩ := starts_eq_some again
    have whole : log = before ++ first :: (between ++ second :: after) := by simp [split]
    have fits := bracketed before first (between ++ second :: after) whole
    have fits' := bracketed (before ++ first :: between) second after (by simp [split])
    rw [payload] at fits
    rw [payload'] at fits'
    -- the first session has ended by the second start, and not before its own
    have listed : one ∈ sessionsOf (before ++ first :: between) conversation :=
      mem_sessionsOf.mpr ⟨first, by simp, started⟩
    have past : isEnded (before ++ first :: between) one.id = true := by
      by_contra stands
      have open' := mem_openSessions.mpr ⟨listed, Bool.eq_false_of_not_eq_true stands⟩
      rw [fits'.1] at open'
      cases open'
    have early : isEnded before one.id = false := by
      by_contra ended
      rw [whole] at bracketed
      have starts := bracketed.leading.started_of_ended (Bool.eq_true_of_not_eq_false ended)
      rw [fits.2] at starts
      cases starts
    have here : endsSession one.id first = false := by simp [endsSession, payload]
    rw [isEnded_append, early, Bool.false_or, isEnded, List.any_cons, here, Bool.false_or] at past
    exact List.any_eq_true.mp past
  once before first between second after id split ended := by
    by_contra again
    have fits := bracketed (before ++ first :: between) second after (by simp [split])
    obtain ⟨conversation, cause, payload⟩ :=
      endsSession_iff.mp (Bool.eq_true_of_not_eq_false again)
    rw [payload] at fits
    obtain ⟨view, open', rfl⟩ := fits
    have stands := (mem_openSessions.mp open').2
    simp [isEnded, ended] at stands
  within before event after conversation split spoken := by
    have fits := bracketed before event after split
    cases payload : event.payload with
    | sessionStarted | sessionEnded =>
      simp [payload, SessionPayload.turnPayload, spokenIn] at spoken
    | note =>
      rw [payload] at fits spoken
      cases fits.symm.trans spoken
    | turn session inner =>
      rw [payload] at fits spoken
      obtain ⟨view, open', named⟩ := fits conversation spoken
      obtain ⟨listed, stands⟩ := mem_openSessions.mp open'
      exact ⟨session, inner, rfl, ⟨view, listed, named⟩, named ▸ stands⟩

theorem fits_concat {payload : SessionPayload} (inside : isBoundary event.payload = false)
    (inside' : isBoundary payload = false) :
    Fits (log ++ [event]) payload ↔ Fits log payload := by
  cases payload with
  | sessionStarted | sessionEnded => cases inside'
  | turn => simp only [Fits, openSessions_concat inside]
  | note => rfl

theorem fits_turn {conversation : ConversationId} {session : OpenSession} {payload : TurnPayload}
    (known : Known log conversation session) (isOpen : sessionIsOpen log session.id = true)
    (spoken : ∀ own, spokenIn payload = some own → own = conversation) :
    Fits log (.turn session.id payload) := by
  intro own here
  obtain ⟨view, open', named, _⟩ := mem_open_of_known known isOpen
  exact spoken own here ▸ ⟨view, open', named⟩

end Reading

/-! ### What a careful run keeps -/

namespace Place

/-- The place is part of the life of the conversation's session. -/
def Engages (conversation : ConversationId) : Place → Prop
  | composing own _ | joined own _ | running own _ | flushing own _ _ | ending own _ _ =>
    own = conversation
  | _ => False

/-- The place has the session in its hands. -/
def Uses (conversation : ConversationId) (session : OpenSession) : Place → Prop
  | joined own used | running own used | flushing own used _ | ending own used _ =>
    own = conversation ∧ used = session
  | _ => False

/-- The place has seen to it that the map holds no session of the conversation. -/
def Empties (conversation : ConversationId) : Place → Prop
  | composing own _ | flushing own _ (.closing _) | ending own _ _ => own = conversation
  | _ => False

section Parts

variable {place : Place} {conversation : ConversationId} {session : OpenSession}
variable {log : List SessionEvent}

theorem Uses.engages (uses : place.Uses conversation session) : place.Engages conversation := by
  cases place <;> first | exact uses.1 | exact uses.elim

theorem Empties.engages (empties : place.Empties conversation) : place.Engages conversation := by
  cases place with
  | flushing own used purpose =>
    cases purpose with
    | checkpoint => exact empties.elim
    | closing => exact empties
  | composing | ending => exact empties
  | _ => exact empties.elim

theorem Engages.cases (engages : place.Engages conversation) :
    place.HoldsLock conversation ∨ place.InSession conversation ∨ place.Compacts conversation := by
  cases place with
  | composing => exact .inl engages
  | joined | running => exact .inr (.inl engages)
  | flushing own used purpose =>
    cases purpose with
    | checkpoint => exact .inl engages
    | closing closing =>
      cases closing with
      | recovery | lapsed | idle => exact .inl ⟨engages, rfl⟩
      | budget => exact .inr (.inr ⟨engages, .inl rfl⟩)
      | forced => exact .inr (.inr ⟨engages, .inr rfl⟩)
  | ending own used closing =>
    cases closing with
    | recovery | lapsed | idle => exact .inl ⟨engages, rfl⟩
    | budget => exact .inr (.inr ⟨engages, .inl rfl⟩)
    | forced => exact .inr (.inr ⟨engages, .inr rfl⟩)
  | _ => exact engages.elim

theorem Engages.cases_map (engages : place.Engages conversation) :
    place.Empties conversation ∨ place.InSession conversation ∨
      place.Checkpoints conversation := by
  cases place with
  | composing | ending => exact .inl engages
  | joined | running => exact .inr (.inl engages)
  | flushing own used purpose =>
    cases purpose with
    | checkpoint => exact .inr (.inr engages)
    | closing => exact .inl engages
  | _ => exact engages.elim

theorem InSession.holdsSlot (inSession : place.InSession conversation) :
    place.HoldsSlot conversation := by
  cases place <;> first | exact inSession | exact inSession.elim

theorem Checkpoints.holdsLock (checkpoints : place.Checkpoints conversation) :
    place.HoldsLock conversation := by
  cases place with
  | flushing own used purpose =>
    cases purpose with
    | checkpoint => exact checkpoints
    | closing => exact checkpoints.elim
  | _ => exact checkpoints.elim

theorem Stands.known (stands : place.Stands log) (uses : place.Uses conversation session) :
    Known log conversation session := by
  cases place with
  | joined | running =>
    obtain ⟨rfl, rfl⟩ := uses
    exact stands
  | flushing own used purpose =>
    obtain ⟨rfl, rfl⟩ := uses
    cases purpose with
    | checkpoint => exact stands
    | closing => exact stands.1
  | ending =>
    obtain ⟨rfl, rfl⟩ := uses
    exact stands.1
  | _ => exact uses.elim

end Parts

end Place

/-- The log is bracketed, one task at a time is engaged with a conversation's session, and the
sessions in the map and in the hands of the tasks are open. -/
structure Tidy (state : State) : Prop where
  bracketed : Bracketed state.log
  alone : ∀ conversation, state.tasks.AtMostOne (Place.Engages conversation)
  live : ∀ conversation session, state.live conversation = some session →
    sessionIsOpen state.log session.id = true
  used : ∀ task place conversation session, state.tasks task = some place →
    place.Uses conversation session → sessionIsOpen state.log session.id = true
  emptied : ∀ task place conversation, state.tasks task = some place →
    place.Empties conversation → state.live conversation = none

namespace Tidy

variable {state after : State} {task : Nat} {place : Place} {conversation : ConversationId}
variable {session : OpenSession} {closing : Closing} {now : Timestamp}

theorem start (settings : Settings) : Tidy { settings } where
  bracketed := bracketed_nil
  alone := fun _ => Tasks.atMostOne_none
  live := fun _ _ live => nomatch live
  used := fun _ _ _ _ here => nomatch here
  emptied := fun _ _ _ here => nomatch here

theorem move {arrives : Option Place} (tidy : Tidy state)
    (alone : ∀ here ∈ arrives, ∀ own, here.Engages own →
      state.tasks.Alone task (Place.Engages own))
    (used : ∀ here ∈ arrives, ∀ own session, here.Uses own session →
      sessionIsOpen state.log session.id = true)
    (emptied : ∀ here ∈ arrives, ∀ own, here.Empties own → state.live own = none) :
    Tidy (state.move task arrives) where
  bracketed := tidy.bracketed
  alone own := (tidy.alone own).put fun here arrived engages => alone here arrived own engages
  live := tidy.live
  used := by
    intro other here own session there
    rcases Tasks.put_eq_some.mp there with ⟨_, arrived⟩ | ⟨_, stayed⟩
    · exact used here arrived own session
    · exact tidy.used other here own session stayed
  emptied := by
    intro other here own there
    rcases Tasks.put_eq_some.mp there with ⟨_, arrived⟩ | ⟨_, stayed⟩
    · exact emptied here arrived own
    · exact tidy.emptied other here own stayed

theorem leave (tidy : Tidy state) (task : Nat) : Tidy (state.move task none) :=
  tidy.move nofun nofun nofun

theorem goOn (tidy : Tidy state) {here : Place} (there : state.tasks task = some here)
    (engages : ∀ own, place.Engages own → here.Engages own)
    (uses : ∀ own session, place.Uses own session → here.Uses own session)
    (empties : ∀ own, place.Empties own → here.Empties own) :
    Tidy (state.move task (some place)) := by
  refine tidy.move ?_ ?_ ?_
  · rintro _ ⟨⟩ own engaged
    exact (tidy.alone own).others there (engages own engaged)
  · rintro _ ⟨⟩ own session used
    exact tidy.used task here own session there (uses own session used)
  · rintro _ ⟨⟩ own emptied
    exact tidy.emptied task here own there (empties own emptied)

theorem takeLive (tidy : Tidy state) (conversation : ConversationId) :
    Tidy (state.setLive conversation none) where
  bracketed := tidy.bracketed
  alone := tidy.alone
  live := by
    intro other current live
    rcases (State.setLive_eq_some ..).mp live with ⟨_, put⟩ | ⟨_, stayed⟩
    · cases put
    · exact tidy.live other current stayed
  used := tidy.used
  emptied := by
    intro other place own there empties
    by_cases same : own = conversation
    · rw [same]
      exact state.setLive_self conversation none
    · rw [state.setLive_other conversation none same]
      exact tidy.emptied other place own there empties

theorem hand (tidy : Tidy state) (handed : List Handed) : Tidy { state with handed } :=
  { tidy with }

theorem join (tidy : Tidy state) (isOpen : sessionIsOpen state.log session.id = true)
    (alone : state.tasks.Alone task (Place.Engages conversation)) :
    Tidy (state.join task conversation session) where
  bracketed := tidy.bracketed
  alone own := by
    refine (tidy.alone own).put fun here arrived engages => ?_
    cases arrived
    cases engages
    exact alone
  live := by
    intro other current live
    rcases (State.setLive_eq_some ..).mp live with ⟨_, put⟩ | ⟨_, stayed⟩
    · cases put
      exact isOpen
    · exact tidy.live other current stayed
  used := by
    intro other here own used there uses
    rcases Tasks.put_eq_some.mp there with ⟨_, arrived⟩ | ⟨_, stayed⟩
    · cases arrived
      obtain ⟨rfl, rfl⟩ := uses
      exact isOpen
    · exact tidy.used other here own used stayed uses
  emptied := by
    intro other here own there empties
    rcases Tasks.put_eq_some.mp there with ⟨_, arrived⟩ | ⟨apart, stayed⟩
    · cases arrived
      cases empties
    · have elsewhere : own ≠ conversation := by
        rintro rfl
        exact alone other here apart stayed empties.engages
      have same := state.setLive_other conversation (some session) elsewhere
      exact same.trans (tidy.emptied other here own stayed empties)

/-! ### Appends -/

theorem tell (tidy : Tidy state) (now : Timestamp) {payload : SessionPayload}
    (inside : isBoundary payload = false) (fits : Fits state.log payload) :
    Tidy (state.append now [payload]) := by
  have same : ∀ id, sessionIsOpen (state.append now [payload]).log id =
      sessionIsOpen state.log id := fun _ => sessionIsOpen_concat inside
  exact
    { bracketed := bracketed_concat.mpr ⟨tidy.bracketed, fits⟩
      alone := tidy.alone
      live := fun own session live => (same _).trans (tidy.live own session live)
      used := fun task place own session here uses =>
        (same _).trans (tidy.used task place own session here uses)
      emptied := tidy.emptied }

theorem tellAll (tidy : Tidy state) (now : Timestamp) {payloads : List SessionPayload}
    (inside : ∀ payload ∈ payloads, isBoundary payload = false)
    (fits : ∀ payload ∈ payloads, Fits state.log payload) :
    Tidy (state.append now payloads) := by
  induction payloads generalizing state with
  | nil => exact tidy
  | cons payload rest ih =>
    have here := inside payload List.mem_cons_self
    have first := tidy.tell now here (fits payload List.mem_cons_self)
    refine ih first (fun payload member => inside payload (List.mem_cons_of_mem _ member))
      fun later member => ?_
    exact (fits_concat here (inside later (List.mem_cons_of_mem _ member))).mpr
      (fits later (List.mem_cons_of_mem _ member))

theorem starting (tidy : Tidy state) {id : SessionId} {seededFromTurn : Option TurnId}
    (nothing : openSessions state.log conversation = [])
    (fresh : isStarted state.log id = false) :
    Tidy (state.append now [.sessionStarted conversation id now seededFromTurn]) where
  bracketed := bracketed_concat.mpr ⟨tidy.bracketed, nothing, fresh⟩
  alone := tidy.alone
  live own session live := sessionIsOpen_started rfl (tidy.live own session live)
  used task place own session here uses :=
    sessionIsOpen_started rfl (tidy.used task place own session here uses)
  emptied := tidy.emptied

theorem ending (tidy : Tidy state) (standing : Standing state) {cause : SessionEndCause}
    (free : ¬ state.tasks.Has (Place.Engages conversation))
    (taken : state.live conversation = none) (known : Known state.log conversation session)
    (isOpen : sessionIsOpen state.log session.id = true) :
    Tidy (state.append now [.sessionEnded conversation session.id cause]) := by
  have apart : ∀ own other, Known state.log own other → own ≠ conversation →
      other.id ≠ session.id := by
    rintro own other ⟨_, view, listed, named, _⟩ elsewhere same
    obtain ⟨_, view', listed', named', _⟩ := known
    have unique := standing.named own conversation view listed view' listed'
      (named.trans (same.trans named'.symm))
    exact elsewhere unique.1
  obtain ⟨view, open', named, _⟩ := mem_open_of_known known isOpen
  refine
    { bracketed := bracketed_concat.mpr ⟨tidy.bracketed, view, open', named⟩
      alone := tidy.alone
      live := fun own other live => ?_
      used := fun task place own other here uses => ?_
      emptied := tidy.emptied }
  · have elsewhere : own ≠ conversation := by
      rintro rfl
      exact nomatch taken.symm.trans live
    have others := apart own other (standing.live own other live).1 elsewhere
    exact (sessionIsOpen_ended rfl others).trans (tidy.live own other live)
  · have elsewhere : own ≠ conversation := by
      rintro rfl
      exact free ⟨task, place, here, uses.engages⟩
    have others := apart own other ((standing.places task place here).known uses) elsewhere
    exact (sessionIsOpen_ended rfl others).trans (tidy.used task place own other here uses)

/-! ### Outcomes -/

theorem closes (tidy : Tidy state)
    (alone : state.tasks.Alone task (Place.Engages conversation))
    (closes : Closes state task conversation closing after) : Tidy after := by
  have cleared := tidy.takeLive conversation
  cases closes with
  | @flushed session known isOpen =>
    have moved : Tidy ((state.setLive conversation none).move task
        (some (.flushing conversation session (.closing closing)))) := by
      refine cleared.move ?_ ?_ ?_
      · rintro _ ⟨⟩ own rfl
        exact alone
      · rintro _ ⟨⟩ own used ⟨rfl, rfl⟩
        exact isOpen
      · rintro _ ⟨⟩ own rfl
        exact state.setLive_self _ none
    exact moved.hand _
  | @ended session known isOpen =>
    refine cleared.move ?_ ?_ ?_
    · rintro _ ⟨⟩ own rfl
      exact alone
    · rintro _ ⟨⟩ own used ⟨rfl, rfl⟩
      exact isOpen
    · rintro _ ⟨⟩ own rfl
      exact state.setLive_self _ none

theorem enters (tidy : Tidy state)
    (alone : state.tasks.Alone task (Place.Engages conversation))
    (enters : Enters state task conversation after) : Tidy after := by
  cases enters with
  | @joined session known only current =>
    refine tidy.join ?_ alone
    rcases current with isOpen | ⟨current, live, named⟩
    · exact isOpen
    · exact named ▸ tidy.live conversation current live
  | composing =>
    refine (tidy.takeLive conversation).move ?_ nofun ?_
    · rintro _ ⟨⟩ own rfl
      exact alone
    · rintro _ ⟨⟩ own rfl
      exact state.setLive_self _ none
  | closes _ closes => exact tidy.closes alone closes

/-! ### Steps -/

theorem quiet (tidy : Tidy state) {arrives : Option Place}
    (moves : Quiet state (state.tasks task) arrives) : Tidy (state.move task arrives) := by
  generalize state.tasks task = here at moves
  cases moves with
  | left => exact tidy.leave task
  | arrived | admitted | listed | idle | picked | due =>
    refine tidy.move ?_ ?_ ?_
    · rintro _ ⟨⟩ own ⟨⟩
    · rintro _ ⟨⟩ own session ⟨⟩
    · rintro _ ⟨⟩ own ⟨⟩

end Tidy

/-- The step takes no session away from a task that uses it: a turn does not enter while a
compaction is closing the session, the idle sweep does not claim one a turn is in or a
compaction is closing, and none is forced out under a turn or a checkpoint. -/
def Spares (state : State) : Act → Prop
  | .entered task _ => ∀ conversation, state.tasks task = some (.admitted conversation) →
    ¬ state.tasks.Has (Place.Compacts conversation)
  | .claimed task => ∀ conversation recovered lastActivity,
    state.tasks task = some (.claiming conversation recovered lastActivity) →
      ¬ state.tasks.Has (Place.InSession conversation) ∧
        ¬ state.tasks.Has (Place.Compacts conversation)
  | .forced _ conversation => state.live conversation = none ∨
    ¬ state.tasks.Has (Place.InSession conversation) ∧
      ¬ state.tasks.Has (Place.Checkpoints conversation)
  | _ => True

/-- A step that spares the sessions in use. -/
def Sparing (before : State) (act : Act) (after : State) : Prop :=
  Step before act after ∧ Spares before act

namespace Tidy

variable {state after : State} {act : Act}

theorem step (tidy : Tidy state) (standing : Standing state) (step : Step state act after)
    (spares : Spares state act) : Tidy after := by
  cases step with
  | quiet moves => exact tidy.quiet moves
  | @entered task conversation now here free =>
    refine tidy.enters (fun other place apart there engages => ?_) (ensureSession_enters standing)
    rcases engages.cases with locked | inSession | compacts
    · exact free ⟨other, place, there, locked⟩
    · exact (standing.slots conversation).others here rfl other place apart there
        inSession.holdsSlot
    · exact spares conversation here ⟨other, place, there, compacts⟩
  | @opened task conversation tail id now here fresh =>
    have nothing := (standing.places task _ here).1
    have others := (tidy.alone conversation).others here rfl
    have started := @starting (state.move task none) conversation now (tidy.leave task) id
      (tail.map (·.1)) nothing fresh.1
    have isOpen : sessionIsOpen (state.openSession task conversation id now tail).log id = true := by
      have ended := fresh.2
      simp only [isEnded] at ended
      simp [State.openSession, State.join, State.append, record, sessionIsOpen, isStarted, isEnded,
        startsSession, endsSession, ended]
    have joins := @join _ task conversation
      { id
        startedAt := now
        lastActivity := now
        startSeq := (tail.map (·.2)).getD (state.log.length + 1)
        sessionStartSeq := state.log.length + 1 } started isOpen ?_
    · rwa [append_join_of_left] at joins
    · intro other place apart there
      rw [State.append_tasks, State.move_tasks, Tasks.put_other apart] at there
      exact others other place apart there
  | @inbound task conversation session now messages here =>
    have known := standing.places task _ here
    have isOpen := tidy.used task _ conversation session here ⟨rfl, rfl⟩
    have told : Tidy (state.append now (inboundTurns conversation session.id messages)) :=
      tidy.tellAll now (List.forall_mem_map.mpr fun _ _ => rfl)
        (List.forall_mem_map.mpr fun _ _ => fits_turn known isOpen (by simp [spokenIn]))
    exact told.goOn here (fun _ engages => engages) (fun _ _ uses => uses)
      (by rintro own ⟨⟩)
  | recorded now here unspoken =>
    refine tidy.tell now rfl fun own spoken => ?_
    cases unspoken.1.symm.trans spoken
  | @withheld task conversation session now here => exact tidy.leave task
  | @completed after task conversation session now reply observed here ordinary recorded =>
    have known := standing.places task _ here
    have isOpen := tidy.used task _ conversation session here ⟨rfl, rfl⟩
    have told : Tidy after := by
      rw [recorded]
      exact tidy.tellAll now (List.forall_mem_map.mpr fun _ _ => rfl)
        (List.forall_mem_map.mpr fun _ _ => fits_turn known isOpen (by simp [spokenIn]))
    have stands : Standing after := by
      rw [recorded]
      exact standing.tellAll now (List.forall_mem_map.mpr fun _ _ => rfl)
    have still : after.tasks task = some (.running conversation session) := by
      rw [recorded]
      exact here
    split
    · rcases @endForCompaction_closes after task conversation .budget stands (.inl rfl) with
        closes | gone
      · exact told.closes ((told.alone conversation).others still rfl) closes
      · rw [gone]
        exact (told.takeLive conversation).leave task
    · exact told.leave task
  | @claimed task conversation recovered lastActivity here free stands =>
    have listed := standing.places task _ here
    obtain ⟨noTurn, noCompaction⟩ := spares conversation recovered lastActivity here
    refine tidy.closes (fun other place apart there engages => ?_)
      (claim_closes standing listed stands)
    rcases engages.cases with locked | inSession | compacts
    · exact free ⟨other, place, there, locked⟩
    · exact noTurn ⟨other, place, there, inSession⟩
    · exact noCompaction ⟨other, place, there, compacts⟩
  | @checkpointed task conversation session current trigger now here free live same waits due =>
    have known := standing.places task _ here
    have isOpen : sessionIsOpen state.log session.id = true :=
      same ▸ tidy.live conversation current live
    have moved : Tidy (state.move task (some (.flushing conversation session .checkpoint))) := by
      refine tidy.move ?_ ?_ ?_
      · rintro _ ⟨⟩ own rfl other place apart there engages
        rcases engages.cases_map with empties | inSession | checkpoints
        · cases live.symm.trans (tidy.emptied other place conversation there empties)
        · exact waits ⟨other, place, there, inSession.holdsSlot⟩
        · exact free ⟨other, place, there, checkpoints.holdsLock⟩
      · rintro _ ⟨⟩ own used ⟨rfl, rfl⟩
        exact isOpen
      · rintro _ ⟨⟩ own ⟨⟩
    exact moved.hand _
  | @replied task conversation session purpose now reply here flush =>
    have known := (standing.places task _ here).known (show Place.Uses conversation session _ from ⟨rfl, rfl⟩)
    have isOpen := tidy.used task _ conversation session here ⟨rfl, rfl⟩
    have told : Tidy (state.append now (reply.toList.map fun turn =>
        agentTurn conversation session.id turn.1 turn.2.1 (some turn.2.2))) :=
      tidy.tellAll now (List.forall_mem_map.mpr fun _ _ => rfl)
        (List.forall_mem_map.mpr fun _ _ => fits_turn known isOpen (by simp [spokenIn]))
    cases purpose with
    | checkpoint => exact told.leave task
    | closing =>
      exact told.goOn here (fun _ engages => engages) (fun _ _ uses => uses) fun _ empties => empties
  | @ended task conversation session closing now here =>
    have known := (standing.places task _ here).known (show Place.Uses conversation session _ from ⟨rfl, rfl⟩)
    have isOpen := tidy.used task _ conversation session here ⟨rfl, rfl⟩
    have taken := tidy.emptied task _ conversation here rfl
    have free : ¬ (state.move task none).tasks.Has (Place.Engages conversation) := by
      rintro ⟨other, place, there, engages⟩
      rcases Tasks.put_eq_some.mp there with ⟨_, arrived⟩ | ⟨apart, stayed⟩
      · cases arrived
      · exact (tidy.alone conversation).others here rfl other place apart stayed engages
    -- the task has left when the session ends, and what it does next is another arrival
    have past : Tidy ((state.append now
        [.sessionEnded conversation session.id closing.cause]).move task none) :=
      (tidy.leave task).ending (standing.leave task) free taken known isOpen
    by_cases locked : closing = .recovery ∨ closing = .lapsed
    · have nothing := @nothing_after_end state conversation session now closing.cause
        ((standing.places task _ here).2 locked)
      have enters := @afterClose_enters _ task conversation closing (standing.tell now rfl)
        locked taken nothing
      exact past.enters (Tasks.alone_of_free free) enters.of_left
    · cases closing with
      | recovery | lapsed => simp at locked
      | idle | budget | forced => exact past
  | @forced task conversation new =>
    cases live : state.live conversation with
    | none =>
      -- the map is empty, and there is nothing to take out
      have same : state.endForCompaction task conversation .forced = state.move task none := by
        rw [State.endForCompaction, live]
      rw [same]
      exact tidy.leave task
    | some =>
      rcases endForCompaction_closes standing (.inr rfl) with closes | gone
      · refine tidy.closes (fun other place apart there engages => ?_) closes
        rcases spares with taken | ⟨noTurn, noCheckpoint⟩
        · cases live.symm.trans taken
        · rcases engages.cases_map with empties | inSession | checkpoints
          · cases live.symm.trans (tidy.emptied other place conversation there empties)
          · exact noTurn ⟨other, place, there, inSession⟩
          · exact noCheckpoint ⟨other, place, there, checkpoints⟩
      · rw [gone]
        exact (tidy.takeLive conversation).leave task
  | @noted now payload unspoken => exact tidy.tell now rfl unspoken.1
  | restarted =>
    exact
      { bracketed := tidy.bracketed
        alone := fun _ => Tasks.atMostOne_none
        live := by rintro own session ⟨⟩
        used := by rintro task place own session ⟨⟩
        emptied := by rintro task place own ⟨⟩ }
  | configured => exact { tidy with }

end Tidy

/-! ### Runs -/

/-- After any run whose steps spare the sessions in use, the log is well bracketed and the
map holds only sessions that are open in it. -/
theorem wellBracketed_of_sparing (settings : Settings) (acts : List Act) (state : State)
    (run : Trace Sparing { settings } acts state) :
    WellBracketed state.log ∧ ∀ conversation session, state.live conversation = some session →
      ∃ view ∈ openSessions state.log conversation, view.id = session.id := by
  have ⟨standing, tidy⟩ : Standing state ∧ Tidy state := by
    refine run.invariant (fun state => Standing state ∧ Tidy state) ?_
      ⟨{ Standing.start with }, Tidy.start settings⟩
    rintro one act other ⟨step, spares⟩ ⟨standing, tidy⟩
    exact ⟨standing.step step, tidy.step standing step spares⟩
  refine ⟨tidy.bracketed.wellBracketed, fun conversation session live => ?_⟩
  obtain ⟨view, member, named, _⟩ :=
    mem_open_of_known (standing.live conversation session live).1 (tidy.live conversation session live)
  exact ⟨view, member, named⟩

/-! ### One turn and a forced compaction -/

/-- One conversation with two tasks. -/
def scene (log : List SessionEvent) (live : Option OpenSession) (turn other : Option Place)
    (handed : List Handed := []) : State where
  log
  live := Function.update (fun _ => none) ⟨1⟩ live
  tasks number := match number with
    | 0 => turn
    | 1 => other
    | _ => none
  handed

section Scene

variable {log : List SessionEvent} {live session : Option OpenSession}
variable {turn other place : Option Place} {holds : Place → Prop} {handed : List Handed}

theorem scene_start : ({} : State) = scene [] none none none := by
  have live : (fun _ => none : ConversationId → Option OpenSession) =
      Function.update (fun _ => none) ⟨1⟩ none := (Function.update_eq_self _ _).symm
  have tasks : (fun _ => none : Tasks Place) = (scene [] none none none).tasks := by
    funext number
    match number with
    | 0 | 1 | _ + 2 => rfl
  unfold scene at *
  congr

@[simp] theorem scene_turn : (scene log live turn other handed).move 0 place =
    scene log live place other handed := by
  have same : Tasks.put (scene log live turn other handed).tasks 0 place =
      (scene log live place other handed).tasks := by
    funext number
    match number with
    | 0 | 1 | _ + 2 => rfl
  rw [State.move, same]
  rfl

@[simp] theorem scene_other : (scene log live turn other handed).move 1 place =
    scene log live turn place handed := by
  have same : Tasks.put (scene log live turn other handed).tasks 1 place =
      (scene log live turn place handed).tasks := by
    funext number
    match number with
    | 0 | 1 | _ + 2 => rfl
  rw [State.move, same]
  rfl

@[simp] theorem scene_setLive : (scene log live turn other handed).setLive ⟨1⟩ session =
    scene log session turn other handed := by
  simp [scene, State.setLive]

@[simp] theorem scene_append {now : Timestamp} {payloads : List SessionPayload} :
    (scene log live turn other handed).append now payloads =
      scene (record log now payloads) live turn other handed := rfl

@[simp] theorem scene_live : (scene log live turn other handed).live ⟨1⟩ = live := by
  simp [scene]

theorem scene_free (first : ∀ place ∈ turn, ¬ holds place) (second : ∀ place ∈ other, ¬ holds place) :
    ¬ (scene log live turn other handed).tasks.Has holds := by
  rintro ⟨number, place, there, held⟩
  match number, there with
  | 0, there => exact first place there held
  | 1, there => exact second place there held
  | _ + 2, there => cases there

end Scene

namespace Cut

def session : OpenSession := ⟨⟨1⟩, ⟨0⟩, ⟨0⟩, 1, 1⟩

def started : SessionEvent := ⟨1, ⟨0⟩, .sessionStarted ⟨1⟩ ⟨1⟩ ⟨0⟩ none⟩

def message (seq : Nat) : SessionEvent :=
  ⟨seq, ⟨0⟩, .turn ⟨1⟩ (.conversationTurn ⟨1⟩ ⟨1⟩ .participant "hello" (some ⟨1⟩) none [])⟩

def hello : TurnId × MemoryId × String × List Attachment := (⟨1⟩, ⟨1⟩, "hello", [])

/-- A turn comes in and opens a session, and its messages are recorded. -/
def coming (messages : List (TurnId × MemoryId × String × List Attachment)) : List Act :=
  [.quiet 0, .quiet 0, .entered 0 ⟨0⟩, .opened 0 ⟨1⟩ ⟨0⟩, .inbound 0 ⟨0⟩ messages]

theorem come (messages : List (TurnId × MemoryId × String × List Attachment)) :
    Trace (fun before act after => Sparing before act after ∧
        ∀ own, ¬ before.tasks.Has (Place.Flushes own)) {} (coming messages)
      (scene (record [started] ⟨0⟩ (inboundTurns ⟨1⟩ ⟨1⟩ messages)) (some session)
        (some (.running ⟨1⟩ session)) none) := by
  have arrives : Step (scene [] none none none) (.quiet 0)
      (scene [] none (some (.queued ⟨1⟩)) none) := by
    simpa using @Step.quiet (scene [] none none none) 0 _ (.arrived ⟨1⟩)
  have admitted : Step (scene [] none (some (.queued ⟨1⟩)) none) (.quiet 0)
      (scene [] none (some (.admitted ⟨1⟩)) none) := by
    simpa using @Step.quiet (scene [] none (some (.queued ⟨1⟩)) none) 0 _
      (.admitted (scene_free (by simp [Place.HoldsSlot]) (by simp)))
  have enters : Step (scene [] none (some (.admitted ⟨1⟩)) none) (.entered 0 ⟨0⟩)
      (scene [] none (some (.composing ⟨1⟩ none)) none) := by
    have step := @Step.entered (scene [] none (some (.admitted ⟨1⟩)) none) 0 ⟨1⟩ ⟨0⟩ rfl
      (scene_free (by simp [Place.HoldsLock]) (by simp))
    have same : (scene [] none (some (.admitted ⟨1⟩)) none).ensureSession 0 ⟨1⟩ ⟨0⟩ =
        scene [] none (some (.composing ⟨1⟩ none)) none := scene_turn
    rwa [same] at step
  have opens : Step (scene [] none (some (.composing ⟨1⟩ none)) none) (.opened 0 ⟨1⟩ ⟨0⟩)
      (scene [started] (some session) (some (.joined ⟨1⟩ session)) none) := by
    have step := @Step.opened (scene [] none (some (.composing ⟨1⟩ none)) none) 0 ⟨1⟩ none ⟨1⟩ ⟨0⟩
      rfl ⟨rfl, rfl⟩
    simp only [State.openSession, State.join, scene_append, scene_setLive, scene_turn] at step
    exact step
  have records : Step (scene [started] (some session) (some (.joined ⟨1⟩ session)) none)
      (.inbound 0 ⟨0⟩ messages)
      (scene (record [started] ⟨0⟩ (inboundTurns ⟨1⟩ ⟨1⟩ messages)) (some session)
        (some (.running ⟨1⟩ session)) none) := by
    have step := @Step.inbound (scene [started] (some session) (some (.joined ⟨1⟩ session)) none) 0
      ⟨1⟩ session ⟨0⟩ messages rfl
    simp only [scene_append, scene_turn] at step
    exact step
  have calm : ∀ {log live place}, (∀ own, ¬ Place.Flushes own place) → ∀ own,
      ¬ (scene log live (some place) none).tasks.Has (Place.Flushes own) := by
    intro log live place still own
    exact scene_free (fun _ same => Option.some.inj same ▸ still own) (by simp)
  rw [scene_start]
  refine .cons ⟨⟨arrives, trivial⟩, fun _ => scene_free (by simp) (by simp)⟩
    (.cons ⟨⟨admitted, trivial⟩, calm (by rintro own ⟨⟩)⟩ (.cons ⟨⟨enters, ?_⟩, calm (by rintro own ⟨⟩)⟩
      (.cons ⟨⟨opens, trivial⟩, calm (by rintro own ⟨⟩)⟩ (.single ⟨⟨records, trivial⟩, calm (by rintro own ⟨⟩)⟩))))
  intro conversation _
  exact scene_free (by simp [Place.Compacts]) (by simp)

def ended (seq : Nat) : SessionEvent := ⟨seq, ⟨0⟩, .sessionEnded ⟨1⟩ ⟨1⟩ .compaction⟩

def reply (seq : Nat) : SessionEvent :=
  ⟨seq, ⟨0⟩, .turn ⟨1⟩ (.conversationTurn ⟨1⟩ ⟨1⟩ .agent "hi" none none [])⟩

def replying : Act := .finished 0 ⟨0⟩ (.completed (some (⟨1⟩, "hi", none)) none)

theorem replies (log : List SessionEvent) (live : Option OpenSession) (other : Option Place)
    (handed : List Handed) :
    Step (scene log live (some (.running ⟨1⟩ session)) other handed) replying
      (scene (log ++ [reply (log.length + 1)]) live none other handed) := by
  have step := @Step.completed (scene log live (some (.running ⟨1⟩ session)) other handed) _ 0 ⟨1⟩
    session ⟨0⟩ (some (⟨1⟩, "hi", none)) none rfl (by simp) rfl
  simp only [scene_append, scene_turn] at step
  exact step

theorem forces (log : List SessionEvent) (turn : Option Place)
    (isOpen : sessionIsOpen log ⟨1⟩ = true)
    (few : ((scene log none turn none).buffer ⟨1⟩ session).length < 4) :
    Step (scene log (some session) turn none) (.forced 1 ⟨1⟩)
      (scene log none turn (some (.ending ⟨1⟩ session .forced))) := by
  have step := @Step.forced (scene log (some session) turn none) 1 ⟨1⟩ rfl
  have short : ¬ (scene log none turn none).settings.flushMinTurns ≤
      ((scene log none turn none).buffer ⟨1⟩ session).countP fun turn =>
        session.sessionStartSeq ≤ turn.seq := by
    have counted := @List.countP_le_length _ (fun turn => session.sessionStartSeq ≤ turn.seq)
      ((scene log none turn none).buffer ⟨1⟩ session)
    change ¬ (4 : Int) ≤ _
    omega
  have stands : sessionIsOpen (scene log none turn none).log session.id = true := isOpen
  have same : (scene log (some session) turn none).endForCompaction 1 ⟨1⟩ .forced =
      scene log none turn (some (.ending ⟨1⟩ session .forced)) := by
    simp only [State.endForCompaction, scene_live, scene_setLive, State.flushAndEnd,
      State.flushOrEnd, if_pos stands, if_neg short, scene_other]
  rwa [same] at step

theorem ends (log : List SessionEvent) (turn : Option Place) :
    Step (scene log none turn (some (.ending ⟨1⟩ session .forced))) (.ended 1 ⟨0⟩)
      (scene (log ++ [ended (log.length + 1)]) none turn none) := by
  have step := @Step.ended (scene log none turn (some (.ending ⟨1⟩ session .forced))) 1 ⟨1⟩ session
    .forced ⟨0⟩ rfl
  simp only [scene_append, State.afterClose, scene_other] at step
  exact step

/-- A compaction forced under a running turn ends its session before the reply is recorded. -/
theorem reply_after_end : ∃ state,
    Trace Step {} (coming [hello] ++ [.forced 1 ⟨1⟩, .ended 1 ⟨0⟩, replying]) state ∧
      ¬ WellBracketed state.log := by
  have run : Trace Step {} (coming [hello] ++ [.forced 1 ⟨1⟩, .ended 1 ⟨0⟩, replying])
      (scene [started, message 2, ended 3, reply 4] none none none) := by
    refine ((come [hello]).mono fun _ _ _ step => step.1.1).append ?_
    exact .cons (forces _ _ rfl (by decide)) (.cons (ends _ _) (.single (replies _ _ _ _)))
  refine ⟨_, run, fun bracketed => ?_⟩
  obtain ⟨id, payload, same, _, stands⟩ :=
    bracketed.within [started, message 2, ended 3] (reply 4) [] ⟨1⟩ rfl rfl
  cases same
  exact nomatch stands

/-- A compaction forced after the reply leaves the log well bracketed. -/
theorem reply_before_end : ∃ state, Trace Sparing {}
      (coming [hello] ++ [replying, .forced 1 ⟨1⟩, .ended 1 ⟨0⟩]) state ∧
    WellBracketed state.log ∧ ∀ conversation session, state.live conversation = some session →
      ∃ view ∈ openSessions state.log conversation, view.id = session.id := by
  have run : Trace Sparing {} (coming [hello] ++ [replying, .forced 1 ⟨1⟩, .ended 1 ⟨0⟩])
      (scene [started, message 2, reply 3, ended 4] none none none) := by
    refine ((come [hello]).mono fun _ _ _ step => step.1).append (.cons ⟨replies _ _ _ _, trivial⟩ (.cons ⟨forces _ _ rfl (by decide), ?_⟩
      (.single ⟨ends _ _, trivial⟩)))
    exact .inr ⟨scene_free nofun nofun, scene_free nofun nofun⟩
  exact ⟨_, run, wellBracketed_of_sparing {} _ _ run⟩

end Cut
end Zuihitsu.Session
