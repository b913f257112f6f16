/-
# What the steps keep

Opening and closing a session come down to few outcomes: a turn is given an open
session, or nothing is open and a brief is composed, or an open session is taken out
of the map and closed. What holds in every state is kept by each outcome, and so by
each step, under any order of the steps.
-/

import Zuihitsu.Session.Standing

namespace Zuihitsu.Session

open Zuihitsu.Core Zuihitsu.Turn Zuihitsu.Library

/-! ### Outcomes -/

/-- A session is closed: it was open, it is out of the map, and the task flushes it or goes
on to end it. -/
inductive Closes (state : State) (task : Nat) (conversation : ConversationId)
    (closing : Closing) : State → Prop
  | flushed {session : OpenSession} (known : Known state.log conversation session)
      (isOpen : sessionIsOpen state.log session.id = true) :
      Closes state task conversation closing
        { (state.setLive conversation none).move task
            (some (.flushing conversation session (.closing closing))) with
          handed := state.handed ++ [⟨session.id, state.buffer conversation session⟩] }
  | ended {session : OpenSession} (known : Known state.log conversation session)
      (isOpen : sessionIsOpen state.log session.id = true) :
      Closes state task conversation closing
        ((state.setLive conversation none).move task
          (some (.ending conversation session closing)))

/-- A turn under the lock goes on: with a session, to a brief, or to a close before it. -/
inductive Enters (state : State) (task : Nat) (conversation : ConversationId) : State → Prop
  | joined {session : OpenSession} (known : Known state.log conversation session)
      (only : OnlyOpen state.log conversation session.id)
      (current : sessionIsOpen state.log session.id = true ∨
        ∃ current, state.live conversation = some current ∧ current.id = session.id) :
      Enters state task conversation (state.join task conversation session)
  | composing {tail : Option (TurnId × Nat)} (nothing : openSessions state.log conversation = [])
      (within : ∀ turn ∈ tail, turn.2 ≤ state.log.length) :
      Enters state task conversation
        ((state.setLive conversation none).move task (some (.composing conversation tail)))
  | closes {closing : Closing} {after : State}
      (locked : closing = .recovery ∨ closing = .lapsed)
      (closes : Closes state task conversation closing after) :
      Enters state task conversation after

section Outcomes

variable {state : State} {task : Nat} {conversation : ConversationId} {session : OpenSession}
variable {closing : Closing} {now : Timestamp}

theorem setLive_of_none (nothing : state.live conversation = none) :
    state.setLive conversation none = state := by
  have same : Function.update state.live conversation none = state.live := by
    rw [← nothing, Function.update_eq_self]
  rw [State.setLive, same]

theorem append_join_of_left {payloads : List SessionPayload} :
    ((state.move task none).append now payloads).join task conversation session =
      (state.append now payloads).join task conversation session := by
  simp [State.join, State.move, State.append, State.setLive, Tasks.put_put]

theorem setLive_move_of_left {current : Option OpenSession} {place : Option Place} :
    ((state.move task none).setLive conversation current).move task place =
      (state.setLive conversation current).move task place := by
  simp [State.move, State.setLive, Tasks.put_put]

theorem Closes.of_left {after : State} (closes : Closes state task conversation closing after) :
    Closes (state.move task none) task conversation closing after := by
  cases closes with
  | flushed known isOpen =>
    rw [← setLive_move_of_left]
    exact .flushed known isOpen
  | ended known isOpen =>
    rw [← setLive_move_of_left]
    exact .ended known isOpen

theorem Enters.of_left {after : State} (enters : Enters state task conversation after) :
    Enters (state.move task none) task conversation after := by
  cases enters with
  | @joined session known only current =>
    have same : (state.move task none).join task conversation session =
        state.join task conversation session := setLive_move_of_left
    rw [← same]
    exact .joined known only current
  | composing nothing within =>
    rw [← setLive_move_of_left]
    exact .composing nothing within
  | closes locked closes => exact .closes locked closes.of_left

theorem seq_le_of_buffer (positions : Positioned state.log) {startSeq sessionStartSeq : Nat}
    {tokenBudget : Int} {view : TurnView}
    (member : view ∈ boundedBufferTurns (turnLog state.log) conversation startSeq sessionStartSeq
      tokenBudget) : view.seq ≤ state.log.length := by
  have read : view ∈ turnsAfter conversation [] (since (turnLog state.log) startSeq) :=
    List.mem_of_mem_drop member
  obtain ⟨event, within, same⟩ := turnsAfter_seq read
  obtain ⟨recorded, kept, rfl⟩ := List.mem_map.mp (mem_since.mp within).1
  rw [same]
  exact positions.seq_le kept

theorem compose_enters (standing : Standing state)
    (nothing : openSessions state.log conversation = []) :
    Enters state task conversation
      ((state.setLive conversation none).compose task conversation) := by
  refine .composing nothing fun turn member => ?_
  simp only [Option.mem_def, Option.bind_eq_some_iff, Option.map_eq_some_iff] at member
  obtain ⟨previous, _, view, there, rfl⟩ := member
  exact seq_le_of_buffer standing.positions (List.mem_of_getElem? there)

theorem flushOrEnd_closes (known : Known state.log conversation session)
    (isOpen : sessionIsOpen state.log session.id = true) :
    Closes state task conversation closing
      ((state.setLive conversation none).flushOrEnd task conversation session closing) := by
  simp only [State.flushOrEnd]
  split
  · exact .flushed known isOpen
  · exact .ended known isOpen

theorem flushAndEnd_closes (known : Known state.log conversation session)
    (isOpen : sessionIsOpen state.log session.id = true) :
    Closes state task conversation closing
      ((state.setLive conversation none).flushAndEnd task conversation session closing) := by
  rw [State.flushAndEnd, State.setLive_log, if_pos isOpen]
  exact flushOrEnd_closes known isOpen

theorem flushAndEnd_closes_of_none (taken : state.live conversation = none)
    (known : Known state.log conversation session)
    (isOpen : sessionIsOpen state.log session.id = true) :
    Closes state task conversation closing
      (state.flushAndEnd task conversation session closing) := by
  have closes := @flushAndEnd_closes state task conversation session closing known isOpen
  rwa [setLive_of_none taken] at closes

theorem nothing_open (only : OnlyOpen state.log conversation session.id)
    (past : sessionIsOpen state.log session.id = false) :
    openSessions state.log conversation = [] := by
  refine List.eq_nil_iff_forall_not_mem.mpr fun view member => ?_
  have ⟨listed, stands⟩ := mem_openSessions.mp member
  have started := isStarted_of_mem listed
  rw [only view member] at started stands
  rw [sessionIsOpen, started, stands] at past
  cases past

theorem nothing_after_end {cause : SessionEndCause}
    (only : OnlyOpen state.log conversation session.id) :
    openSessions (state.append now [.sessionEnded conversation session.id cause]).log
      conversation = [] := by
  have ended := @openSessions_ended state.log
    ⟨state.log.length + 1, now, .sessionEnded conversation session.id cause⟩
    conversation session.id cause conversation rfl
  refine ended.trans (List.filter_eq_nil_iff.mpr fun view member => ?_)
  simp [only view member]

theorem takeLapsed_enters (standing : Standing state)
    (nothing : state.live conversation = none → openSessions state.log conversation = []) :
    Enters state task conversation (state.takeLapsed task conversation) := by
  unfold State.takeLapsed
  split
  · rename_i taken
    have brief := @compose_enters state task conversation standing (nothing taken)
    rwa [setLive_of_none taken] at brief
  · rename_i old live
    have ⟨known, only⟩ := standing.live conversation old live
    split
    · rename_i isOpen
      exact .closes (.inr rfl) (flushOrEnd_closes known isOpen)
    · rename_i past
      exact compose_enters standing (nothing_open only (Bool.eq_false_of_not_eq_true past))

theorem afterClose_enters (standing : Standing state)
    (locked : closing = .recovery ∨ closing = .lapsed)
    (taken : state.live conversation = none)
    (nothing : openSessions state.log conversation = []) :
    Enters state task conversation (state.afterClose task conversation closing) := by
  rcases locked with rfl | rfl
  · exact takeLapsed_enters standing fun _ => nothing
  · have brief := @compose_enters state task conversation standing nothing
    rwa [setLive_of_none taken] at brief

theorem known_of_last {recovered : SessionView} {lastActivity : Timestamp}
    (last : lastOpenSession state.log conversation = some recovered) :
    Known state.log conversation (State.recoveredSession recovered lastActivity) ∧
      sessionIsOpen state.log recovered.id = true := by
  have ⟨listed, stands⟩ := mem_openSessions.mp (List.mem_of_getLast? last)
  refine ⟨⟨Nat.le_refl _, recovered, listed, rfl, rfl⟩, ?_⟩
  rw [sessionIsOpen, isStarted_of_mem listed, stands]
  rfl

theorem ensureSession_enters (standing : Standing state) :
    Enters state task conversation (state.ensureSession task conversation now) := by
  unfold State.ensureSession
  split
  · rename_i session live
    have ⟨known, only⟩ := standing.live conversation session live
    split
    · exact .joined known only (.inr ⟨session, live, rfl⟩)
    · exact takeLapsed_enters standing fun taken => absurd (live.symm.trans taken) nofun
  · rename_i taken
    split
    · rename_i none
      exact takeLapsed_enters standing fun _ => List.getLast?_eq_none_iff.mp none
    · rename_i recovered last
      have ⟨known, isOpen⟩ := @known_of_last state conversation recovered now last
      dsimp only
      split
      · exact .joined known (standing.onlyOpen known isOpen) (.inl isOpen)
      · exact .closes (.inl rfl) (flushAndEnd_closes_of_none taken known isOpen)

theorem claim_closes {recovered : SessionView} {lastActivity : Timestamp}
    (standing : Standing state) (listed : recovered ∈ sessionsOf state.log conversation)
    (isOpen : sessionIsOpen state.log recovered.id = true) :
    Closes state task conversation .idle
      (state.claim task conversation recovered lastActivity) := by
  have rebuilt : Known state.log conversation
      (State.recoveredSession recovered lastActivity) := ⟨Nat.le_refl _, recovered, listed, rfl, rfl⟩
  unfold State.claim
  split
  · rename_i session found
    obtain ⟨live, same⟩ := Option.filter_eq_some_iff.mp found
    have named : session.id = recovered.id := of_decide_eq_true same
    exact flushAndEnd_closes (standing.live conversation session live).1 (named ▸ isOpen)
  · rename_i missing
    refine flushAndEnd_closes_of_none ?_ rebuilt isOpen
    refine Option.eq_none_iff_forall_not_mem.mpr fun session live => ?_
    obtain ⟨view, member, named, _⟩ := mem_open_of_known rebuilt isOpen
    have same := (standing.live conversation session live).2 view member
    exact Option.filter_eq_none_iff.mp missing session live
      (decide_eq_true (same.symm.trans named))

theorem endForCompaction_closes (standing : Standing state)
    (compaction : closing = .budget ∨ closing = .forced) :
    Closes state task conversation closing
        (state.endForCompaction task conversation closing) ∨
      state.endForCompaction task conversation closing =
        (state.setLive conversation none).move task none := by
  unfold State.endForCompaction
  split
  · rename_i taken
    rw [setLive_of_none taken]
    exact .inr rfl
  · rename_i session live
    by_cases isOpen : sessionIsOpen state.log session.id = true
    · exact .inl (flushAndEnd_closes (standing.live conversation session live).1 isOpen)
    · rw [State.flushAndEnd, State.setLive_log, if_neg isOpen]
      rcases compaction with rfl | rfl <;> exact .inr rfl

end Outcomes

/-! ### Each outcome keeps what holds -/

namespace Standing

variable {state after : State} {task : Nat} {conversation : ConversationId} {closing : Closing}

theorem closes (standing : Standing state)
    (slot : closing.byTurn = true → state.tasks.Alone task (Place.HoldsSlot conversation))
    (lock : closing.underLock = true → state.tasks.Alone task (Place.HoldsLock conversation))
    (closes : Closes state task conversation closing after) : Standing after := by
  have cleared := standing.takeLive conversation
  cases closes with
  | @flushed session known isOpen =>
    have moved : Standing ((state.setLive conversation none).move task
        (some (.flushing conversation session (.closing closing)))) := by
      refine cleared.move ⟨known, fun _ => standing.onlyOpen known isOpen⟩ ⟨?_, ?_, ?_⟩
      · rintro own ⟨rfl, byTurn⟩
        exact slot byTurn
      · rintro own ⟨rfl, underLock⟩
        exact lock underLock
      · rintro own ⟨rfl, _⟩ _
        exact state.setLive_self _ none
    exact moved.hand _
  | @ended session known isOpen =>
    refine cleared.move ⟨known, fun _ => standing.onlyOpen known isOpen⟩ ⟨?_, ?_, ?_⟩
    · rintro own ⟨rfl, byTurn⟩
      exact slot byTurn
    · rintro own ⟨rfl, underLock⟩
      exact lock underLock
    · rintro own ⟨rfl, _⟩ _
      exact state.setLive_self _ none

theorem enters (standing : Standing state)
    (slot : state.tasks.Alone task (Place.HoldsSlot conversation))
    (lock : state.tasks.Alone task (Place.HoldsLock conversation))
    (enters : Enters state task conversation after) : Standing after := by
  cases enters with
  | joined known only => exact standing.join known only slot
  | composing nothing within =>
    refine (standing.takeLive conversation).move ⟨nothing, within⟩ ⟨?_, ?_, ?_⟩
    · rintro own rfl
      exact slot
    · rintro own rfl
      exact lock
    · rintro own rfl _
      exact state.setLive_self _ none
  | closes _ closes => exact standing.closes (fun _ => slot) (fun _ => lock) closes

theorem starting (standing : Standing state) {id : SessionId} {now : Timestamp}
    {seededFromTurn : Option TurnId} (nothing : openSessions state.log conversation = [])
    (taken : state.live conversation = none)
    (free : ¬ state.tasks.Has (Place.HoldsLock conversation))
    (fresh : isStarted state.log id = false ∧ isEnded state.log id = false) :
    Standing (state.append now [.sessionStarted conversation id now seededFromTurn]) := by
  let view : SessionView := ⟨id, now, state.log.length + 1, seededFromTurn.isSome⟩
  let longer := (state.append now [.sessionStarted conversation id now seededFromTurn]).log
  have listed : ∀ own, sessionsOf longer own =
      sessionsOf state.log own ++ if conversation = own then [view] else [] := by
    intro own
    by_cases here : conversation = own <;>
      simp [longer, view, State.append, record, sessionsOf, starts, here]
  have opened : ∀ own, openSessions longer own =
      openSessions state.log own ++ if conversation = own then [view] else [] :=
    fun own => openSessions_started fresh.2 rfl
  have elsewhere : ∀ own, conversation ≠ own → openSessions longer own = openSessions state.log own := by
    intro own apart
    rw [opened, if_neg apart, List.append_nil]
  have more : ∀ own, sessionsOf state.log own ⊆ sessionsOf longer own := by
    intro own
    rw [listed]
    exact List.subset_append_left _ _
  have named : ∀ own, ∀ one ∈ sessionsOf state.log own, one.id ≠ id := by
    intro own one member same
    have started := isStarted_of_mem member
    rw [same, fresh.1] at started
    cases started
  refine
    { positions := positioned_concat standing.positions rfl
      named := ?_
      single := ?_
      slots := standing.slots
      locks := standing.locks
      live := ?_
      places := ?_
      taken := standing.taken }
  · intro first second one member two member' same
    rw [listed] at member member'
    rcases List.mem_append.mp member with old | new
    · rcases List.mem_append.mp member' with old' | new'
      · exact standing.named first second one old two old' same
      · split at new'
        · rw [List.mem_singleton.mp new'] at same
          exact absurd same (named first one old)
        · cases new'
    · split at new
      · rename_i here
        rw [List.mem_singleton.mp new] at same ⊢
        rcases List.mem_append.mp member' with old' | new'
        · exact absurd same.symm (named second two old')
        · split at new'
          · rename_i here'
            exact ⟨here.symm.trans here', (List.mem_singleton.mp new').symm⟩
          · cases new'
      · cases new
  · intro own
    by_cases here : conversation = own
    · rw [opened, if_pos here, ← here, nothing]
      intro one first two second
      rw [List.mem_singleton.mp first, List.mem_singleton.mp second]
    · rw [elsewhere own here]
      exact standing.single own
  · intro own session live
    have apart : conversation ≠ own := by
      rintro rfl
      cases taken.symm.trans live
    obtain ⟨known, only⟩ := standing.live own session live
    refine ⟨known.grow (more own), ?_⟩
    rw [OnlyOpen, elsewhere own apart]
    exact only
  · intro task place here
    refine (standing.places task place here).grow more (fun own locked => ?_) ?_
    · have apart : conversation ≠ own := by
        rintro rfl
        exact free ⟨task, place, here, locked⟩
      rw [elsewhere own apart]
      exact List.Subset.refl _
    · exact Nat.le_of_lt (by simp [State.append, record])

/-! ### Each step does -/

theorem mayMove (standing : Standing state) {here place : Place}
    (there : state.tasks task = some here)
    (slot : ∀ own, place.HoldsSlot own → here.HoldsSlot own)
    (lock : ∀ own, place.HoldsLock own → here.HoldsLock own) : state.MayMove task place where
  slot own holds := (standing.slots own).others there (slot own holds)
  lock own holds := (standing.locks own).others there (lock own holds)
  taken own inSlot locked :=
    standing.taken own task here there (slot own inSlot) (lock own locked)

theorem quiet (standing : Standing state) {place : Option Place}
    (moves : Quiet state (state.tasks task) place) : Standing (state.move task place) := by
  generalize here : state.tasks task = old at moves
  cases moves with
  | arrived => exact standing.move trivial ⟨nofun, nofun, nofun⟩
  | admitted free =>
    refine standing.move trivial ⟨?_, nofun, nofun⟩
    rintro own rfl
    exact Tasks.alone_of_free free
  | listed now candidate =>
    exact standing.move (mem_openSessions.mp (List.mem_of_getLast? candidate)).1
      ⟨nofun, nofun, nofun⟩
  | idle =>
    have listed := standing.places task _ here
    exact standing.move listed ⟨nofun, nofun, nofun⟩
  | picked trigger now enabled own live =>
    exact standing.move (standing.live _ _ live).1 ⟨nofun, nofun, nofun⟩
  | due =>
    have known := standing.places task _ here
    exact standing.move known ⟨nofun, nofun, nofun⟩
  | left => exact standing.leave task

theorem opens (standing : Standing state) {id : SessionId} {now : Timestamp}
    {tail : Option (TurnId × Nat)}
    (here : state.tasks task = some (.composing conversation tail))
    (fresh : isStarted state.log id = false ∧ isEnded state.log id = false) :
    Standing (state.openSession task conversation id now tail) := by
  have ⟨nothing, within⟩ := standing.places task _ here
  have slot := (standing.slots conversation).others here rfl
  have lock := (standing.locks conversation).others here rfl
  have free : ¬ (state.move task none).tasks.Has (Place.HoldsLock conversation) := by
    rintro ⟨other, place, there, holds⟩
    rcases Tasks.put_eq_some.mp there with ⟨_, arrived⟩ | ⟨apart, stayed⟩
    · cases arrived
    · exact lock other place apart stayed holds
  have started := @starting (state.move task none) conversation (standing.leave task) id now
    (tail.map (·.1)) nothing (standing.taken conversation task _ here rfl rfl) free fresh
  have openNow : openSessions (state.openSession task conversation id now tail).log conversation =
      [⟨id, now, state.log.length + 1, (tail.map (·.1)).isSome⟩] := by
    have opened := @openSessions_started state.log
      ⟨state.log.length + 1, now, .sessionStarted conversation id now (tail.map (·.1))⟩
      conversation id conversation now (tail.map (·.1)) fresh.2 rfl
    rwa [nothing, if_pos rfl] at opened
  -- the sweep of the log for the turn's own tail put no turn after the start
  have order : (tail.map (·.2)).getD (state.log.length + 1) ≤ state.log.length + 1 := by
    cases tail with
    | none => exact Nat.le_refl _
    | some turn => exact Nat.le_succ_of_le (within turn rfl)
  have joins := @join _ task conversation
    { id
      startedAt := now
      lastActivity := now
      startSeq := (tail.map (·.2)).getD (state.log.length + 1)
      sessionStartSeq := state.log.length + 1 } started ?_ ?_ ?_
  · rwa [append_join_of_left] at joins
  · have member : _ ∈ openSessions (state.openSession task conversation id now tail).log
        conversation := openNow ▸ List.mem_singleton_self _
    exact ⟨order, _, (mem_openSessions.mp member).1, rfl, rfl⟩
  · intro view member
    have member := openNow ▸ member
    rw [List.mem_singleton.mp member]
  · intro other place apart there
    rw [State.append_tasks, State.move_tasks, Tasks.put_other apart] at there
    exact slot other place apart there

theorem step {act : Act} (standing : Standing state) (step : Step state act after) :
    Standing after := by
  cases step with
  | quiet moves => exact standing.quiet moves
  | @entered task conversation now here free =>
    exact standing.enters ((standing.slots conversation).others here rfl)
      (Tasks.alone_of_free free) (ensureSession_enters standing)
  | opened now here fresh => exact standing.opens here fresh
  | @inbound task conversation session now messages here =>
    have told : Standing (state.append now (inboundTurns conversation session.id messages)) :=
      standing.tellAll now (List.forall_mem_map.mpr fun _ _ => rfl)
    have known := told.places task _ here
    exact told.move known (told.mayMove here (fun _ holds => holds) (by rintro own ⟨⟩))
  | recorded now here unspoken => exact standing.tell now rfl
  | @withheld task conversation session now here => exact standing.leave task
  | @completed after task conversation session now reply observed here ordinary recorded =>
    have told : Standing after := by
      rw [recorded]
      exact standing.tellAll now (List.forall_mem_map.mpr fun _ _ => rfl)
    have still : after.tasks task = some (.running conversation session) := by
      rw [recorded]
      exact here
    split
    · rcases @endForCompaction_closes after task conversation .budget told (.inl rfl) with
        closes | gone
      · exact told.closes (fun _ => (told.slots conversation).others still rfl)
          (fun locked => Bool.noConfusion locked) closes
      · rw [gone]
        exact (told.takeLive conversation).leave task
    · exact told.leave task
  | @claimed task conversation recovered lastActivity here free stands =>
    have listed := standing.places task _ here
    exact standing.closes (fun byTurn => Bool.noConfusion byTurn) (fun _ => Tasks.alone_of_free free)
      (claim_closes standing listed stands)
  | @checkpointed task conversation session current trigger now here free live same waits due =>
    have known := standing.places task _ here
    have moved : Standing (state.move task (some (.flushing conversation session .checkpoint))) := by
      refine standing.move known ⟨?_, ?_, ?_⟩
      · rintro own ⟨⟩
      · rintro own rfl
        exact Tasks.alone_of_free free
      · rintro own ⟨⟩
    exact moved.hand _
  | @replied task conversation session purpose now reply here flush =>
    have told : Standing (state.append now (reply.toList.map fun turn =>
        agentTurn conversation session.id turn.1 turn.2.1 (some turn.2.2))) :=
      standing.tellAll now (List.forall_mem_map.mpr fun _ _ => rfl)
    cases purpose with
    | checkpoint => exact told.leave task
    | closing =>
      have stands := told.places task _ here
      exact told.move stands (told.mayMove here (fun _ holds => holds) fun _ holds => holds)
  | @ended task conversation session closing now here =>
    have told : Standing (state.append now
        [.sessionEnded conversation session.id closing.cause]) := standing.tell now rfl
    by_cases locked : closing = .recovery ∨ closing = .lapsed
    · have both : closing.byTurn = true ∧ closing.underLock = true := by
        rcases locked with rfl | rfl <;> exact ⟨rfl, rfl⟩
      have nothing := @nothing_after_end state conversation session now closing.cause
        ((standing.places task _ here).2 locked)
      exact told.enters ((told.slots conversation).others here ⟨rfl, both.1⟩)
        ((told.locks conversation).others here ⟨rfl, both.2⟩)
        (afterClose_enters told locked
          (told.taken conversation task _ here ⟨rfl, both.1⟩ ⟨rfl, both.2⟩) nothing)
    · cases closing with
      | recovery | lapsed => simp at locked
      | idle | budget | forced => exact told.leave task
  | @forced task conversation new =>
    rcases endForCompaction_closes standing (.inr rfl) with closes | gone
    · exact standing.closes (fun byTurn => Bool.noConfusion byTurn) (fun locked => Bool.noConfusion locked) closes
    · rw [gone]
      exact (standing.takeLive conversation).leave task
  | noted now unspoken => exact standing.tell now rfl
  | restarted =>
    exact
      { positions := standing.positions
        named := standing.named
        single := standing.single
        slots := fun _ => Tasks.atMostOne_none
        locks := fun _ => Tasks.atMostOne_none
        live := by rintro own session ⟨⟩
        places := by rintro task place ⟨⟩
        taken := by rintro own task place ⟨⟩ }
  | configured => exact { standing with }

end Standing

end Zuihitsu.Session
