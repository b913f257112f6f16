/-
# Where the watermark skips nothing

A session's watermark is at its last flush turn, and the next flush is given what comes
after it. A flush reads the buffer before it runs and records its turn once it is
done, so what is recorded between the two is below the watermark and in no slice. Where
no participant and no turn of the agent is recorded while a flush of the conversation
runs, everything below the watermark was given to a flush of the session.
-/

import Zuihitsu.Session.Brackets

namespace Zuihitsu.Session

open Zuihitsu.Core Zuihitsu.Turn Zuihitsu.Library

/-! ### What a flush is given -/

/-- A turn of a participant or the agent in the conversation, other than in a flush. -/
def Contributes (conversation : ConversationId) (payload : TurnPayload) : Prop :=
  spokenIn payload = some conversation ∧ isFlushTurn payload = false

/-- A flush's turn in the conversation. -/
def Flushed (conversation : ConversationId) (payload : TurnPayload) : Prop :=
  ∃ producer, payload.turnIn = some (conversation, some producer) ∧ isFlush producer = true

/-- A flush of the session was given the turn an event records. -/
def Given (handed : List Handed) (id : SessionId) (event : SessionEvent) : Prop :=
  ∃ flush ∈ handed, flush.session = id ∧ ∃ view ∈ flush.slice, view.seq = event.seq

/-- A session a conversation is in: one that is open in the log, or the one in the map. -/
def Current (state : State) (conversation : ConversationId) (view : SessionView) : Prop :=
  view ∈ openSessions state.log conversation ∨
    view ∈ sessionsOf state.log conversation ∧
      ∃ session, state.live conversation = some session ∧ session.id = view.id

/-- What was contributed in the session before a position was given to a flush of it. -/
def Covered (state : State) (conversation : ConversationId) (view : SessionView) (stop : Nat) :
    Prop :=
  ∀ turn ∈ state.log, Contributes conversation turn.payload.turnPayload →
    view.startSeq ≤ turn.seq → turn.seq < stop → Given state.handed view.id turn

/-- What came before a flush turn was given to a flush, and while a flush runs so was all
there is. -/
structure Seen (state : State) : Prop where
  behind : ∀ conversation view, Current state conversation view → ∀ flush ∈ state.log,
    Flushed conversation flush.payload.turnPayload → Covered state conversation view flush.seq
  ahead : ∀ conversation view, Current state conversation view →
    state.tasks.Has (Place.Flushes conversation) →
      Covered state conversation view (state.log.length + 1)

section Reading

variable {state : State} {conversation : ConversationId} {view : SessionView}
variable {turn one two : SessionEvent} {log : List SessionEvent} {payload : TurnPayload}

theorem turnIn_of_spoken (spoken : spokenIn payload = some conversation) :
    ∃ producedBy, payload.turnIn = some (conversation, producedBy) := by
  cases payload with
  | conversationTurn turnConversation id role text participant producedBy attachments =>
    simp only [spokenIn] at spoken
    split at spoken
    · cases spoken
    · cases spoken
      exact ⟨producedBy, rfl⟩
  | _ => cases spoken

theorem Flushed.isFlushTurn (flushed : Flushed conversation payload) :
    isFlushTurn payload = true := by
  obtain ⟨producer, turn, flush⟩ := flushed
  cases payload with
  | conversationTurn => cases turn; exact flush
  | _ => cases turn

theorem Positioned.unique (positions : Positioned log) (first : one ∈ log) (second : two ∈ log)
    (same : one.seq = two.seq) : one = two := by
  obtain ⟨before, after, split⟩ := List.append_of_mem first
  obtain ⟨before', after', split'⟩ := List.append_of_mem second
  have place := positions before one after split
  have place' := positions before' two after' split'
  have length : before.length = before'.length := by omega
  exact (List.cons.inj (List.append_inj (split.symm.trans split') length).2).1

theorem Given.more {handed more : List Handed} {id : SessionId} (given : Given handed id turn) :
    Given (handed ++ more) id turn := by
  obtain ⟨flush, member, rest⟩ := given
  exact ⟨flush, List.mem_append_left _ member, rest⟩

theorem Current.listed (current : Current state conversation view) :
    view ∈ sessionsOf state.log conversation :=
  current.elim (fun open' => (mem_openSessions.mp open').1) fun live => live.1

theorem mem_slice {startSeq sessionStartSeq : Nat} {tokenBudget : Int} (recorded : turn ∈ log)
    (contributes : Contributes conversation turn.payload.turnPayload)
    (order : startSeq ≤ sessionStartSeq) (own : sessionStartSeq ≤ turn.seq) :
    ∃ view ∈ boundedBufferTurns (turnLog log) conversation startSeq sessionStartSeq tokenBudget,
      view.seq = turn.seq := by
  obtain ⟨producedBy, turnIn⟩ := turnIn_of_spoken contributes.1
  have since' : turn.turnEvent ∈ since (turnLog log) startSeq :=
    mem_since.mpr ⟨List.mem_map.mpr ⟨turn, recorded, rfl⟩, Nat.le_trans order own⟩
  obtain ⟨view, read, same, _⟩ := @mem_turnsAfter conversation turn.turnEvent [] _ producedBy
    since' turnIn
  have place : view.seq = turn.seq := same
  exact ⟨view, mem_boundedBufferTurns (place ▸ own) read, place⟩

theorem Seen.watermark (seen : Seen state) (standing : Standing state)
    (current : Current state conversation view) {startSeq sessionStartSeq : Nat}
    {tokenBudget : Int} (recorded : turn ∈ state.log)
    (contributes : Contributes conversation turn.payload.turnPayload)
    (own : view.startSeq ≤ turn.seq)
    (below : turn.seq ≤ flushedUpTo (boundedBufferTurns (turnLog state.log) conversation startSeq
      sessionStartSeq tokenBudget) view.startSeq) : Given state.handed view.id turn := by
  rcases @flushedUpTo_cases (boundedBufferTurns (turnLog state.log) conversation startSeq
    sessionStartSeq tokenBudget) view.startSeq with start | ⟨flush, buffered, marked, mark⟩
  · -- at the start of the session there is only the start
    exfalso
    rw [start] at below
    obtain ⟨event, recorded', started⟩ := mem_sessionsOf.mp current.listed
    have place := starts_startSeq started
    have same := standing.positions.unique recorded recorded' (by omega)
    obtain ⟨seeded, payload⟩ := starts_eq_some started
    rw [same, payload] at contributes
    cases contributes.1
  · rw [mark] at below
    obtain ⟨producer, produced, isFlush'⟩ := (Option.any_eq_true ..).mp marked
    obtain ⟨event, within, same, turnIn⟩ := turn_of_turnsAfter
      (bufferTurns_eq ▸ List.mem_of_mem_drop buffered) produced
    obtain ⟨original, kept, rfl⟩ := List.mem_map.mp (mem_since.mp within).1
    have flushed : Flushed conversation original.payload.turnPayload := ⟨producer, turnIn, isFlush'⟩
    have place : flush.seq = original.seq := same
    rcases Nat.lt_or_eq_of_le (place ▸ below) with before | here
    · exact seen.behind conversation view current original kept flushed turn recorded contributes
        own before
    · have both := standing.positions.unique recorded kept here
      rw [both, Contributes, flushed.isFlushTurn] at contributes
      cases contributes.2

end Reading

/-! ### What keeps it -/

namespace Seen

variable {state after : State} {task : Nat} {conversation : ConversationId} {closing : Closing}
variable {session : OpenSession} {now : Timestamp}

theorem start (settings : Settings) : Seen { settings } where
  behind := fun _ _ _ _ recorded => nomatch recorded
  ahead := fun _ _ _ _ _ recorded => nomatch recorded

theorem still (seen : Seen state) (log : after.log = state.log)
    (handed : after.handed = state.handed)
    (current : ∀ own view, Current after own view → Current state own view)
    (flushes : ∀ own, after.tasks.Has (Place.Flushes own) →
      state.tasks.Has (Place.Flushes own)) : Seen after where
  behind own view here flush recorded flushed := by
    rw [Covered, log, handed]
    exact seen.behind own view (current own view here) flush (log ▸ recorded) flushed
  ahead own view here running := by
    rw [Covered, log, handed]
    exact seen.ahead own view (current own view here) (flushes own running)

theorem move (seen : Seen state) {arrives : Option Place}
    (idle : ∀ place ∈ arrives, ∀ own, place.Flushes own →
      state.tasks.Has (Place.Flushes own)) : Seen (state.move task arrives) := by
  refine seen.still rfl rfl (fun _ _ current => current) ?_
  rintro own ⟨other, place, there, flushes⟩
  rcases Tasks.put_eq_some.mp there with ⟨_, arrived⟩ | ⟨_, stayed⟩
  · exact idle place arrived own flushes
  · exact ⟨other, place, stayed, flushes⟩

theorem leave (seen : Seen state) (task : Nat) : Seen (state.move task none) :=
  seen.move nofun

theorem current_of_taken {own : ConversationId} {view : SessionView}
    (current : Current (state.setLive conversation none) own view) : Current state own view := by
  rcases current with open' | ⟨listed, held, live, named⟩
  · exact .inl open'
  · rcases (State.setLive_eq_some ..).mp live with ⟨_, put⟩ | ⟨_, stayed⟩
    · cases put
    · exact .inr ⟨listed, held, stayed, named⟩

theorem takeLive (seen : Seen state) (conversation : ConversationId) :
    Seen (state.setLive conversation none) :=
  seen.still rfl rfl (fun _ _ => current_of_taken) fun _ flushes => flushes

theorem join (seen : Seen state) (known : Known state.log conversation session)
    (held : sessionIsOpen state.log session.id = true ∨
      ∃ current, state.live conversation = some current ∧ current.id = session.id) :
    Seen (state.join task conversation session) := by
  refine seen.still rfl rfl (fun own view current => ?_) ?_
  · rcases current with open' | ⟨listed, held', live, named⟩
    · exact .inl open'
    · rcases (State.setLive_eq_some ..).mp live with ⟨rfl, put⟩ | ⟨_, stayed⟩
      · cases put
        rcases held with isOpen | ⟨current, live, same⟩
        · rw [sessionIsOpen, Bool.and_eq_true, Bool.not_eq_true'] at isOpen
          exact .inl (mem_openSessions.mpr ⟨listed, named ▸ isOpen.2⟩)
        · exact .inr ⟨listed, current, live, same.trans named⟩
      · exact .inr ⟨listed, held', stayed, named⟩
  · rintro own ⟨other, place, there, flushes⟩
    rcases Tasks.put_eq_some.mp there with ⟨_, arrived⟩ | ⟨_, stayed⟩
    · cases arrived
      cases flushes
    · exact ⟨other, place, stayed, flushes⟩

/-- A flush starts, and what is given to it covers the session. -/
theorem flush (seen : Seen state) {purpose : Purpose} {slice : List TurnView}
    (log : after.log = state.log)
    (handed : after.handed = state.handed ++ [⟨session.id, slice⟩])
    (tasks : after.tasks = state.tasks.put task (some (.flushing conversation session purpose)))
    (current : ∀ own view, Current after own view → Current state own view)
    (covers : ∀ view, Current state conversation view → view.id = session.id ∧
      ∀ turn ∈ state.log, Contributes conversation turn.payload.turnPayload →
        view.startSeq ≤ turn.seq →
        Given state.handed view.id turn ∨ ∃ one ∈ slice, one.seq = turn.seq) : Seen after where
  behind own view here flush recorded flushed turn recorded' contributes start before := by
    rw [log] at recorded recorded'
    rw [handed]
    exact (seen.behind own view (current own view here) flush recorded flushed turn recorded'
      contributes start before).more
  ahead own view here running turn recorded contributes start before := by
    rw [log] at recorded before
    rw [handed]
    obtain ⟨other, place, there, flushes⟩ := running
    rw [tasks] at there
    rcases Tasks.put_eq_some.mp there with ⟨_, arrived⟩ | ⟨_, stayed⟩
    · cases arrived
      cases flushes
      obtain ⟨named, covered⟩ := covers view (current _ view here)
      rcases covered turn recorded contributes start with given | ⟨one, sliced, same⟩
      · exact given.more
      · exact ⟨_, List.mem_append_right _ (List.mem_singleton_self _), named.symm, one, sliced,
          same⟩
    · exact (seen.ahead own view (current own view here) ⟨other, place, stayed, flushes⟩ turn
        recorded contributes start before).more

theorem current_of_append {payload : SessionPayload} {own : ConversationId} {view : SessionView}
    (silent : isStart payload = false)
    (current : Current (state.append now [payload]) own view) : Current state own view := by
  rcases current with open' | ⟨listed, held, live, named⟩
  · exact .inl (openSessions_subset silent open')
  · refine .inr ⟨?_, held, live, named⟩
    have same : sessionsOf (state.append now [payload]).log own = sessionsOf state.log own :=
      sessionsOf_concat silent
    exact same ▸ listed

theorem tell (seen : Seen state) (standing : Standing state) {payload : SessionPayload}
    (silent : isStart payload = false)
    (waits : ∀ own, Contributes own payload.turnPayload →
      ¬ state.tasks.Has (Place.Flushes own))
    (runs : ∀ own, Flushed own payload.turnPayload → state.tasks.Has (Place.Flushes own)) :
    Seen (state.append now [payload]) where
  behind own view here flush recorded flushed turn recorded' contributes start before := by
    have current := current_of_append silent here
    rcases List.mem_append.mp recorded' with old | new
    · rcases List.mem_append.mp recorded with old' | new'
      · exact seen.behind own view current flush old' flushed turn old contributes start before
      · rw [List.mem_singleton.mp new'] at flushed
        exact seen.ahead own view current (runs own flushed) turn old contributes start
          (Nat.lt_succ_of_le (standing.positions.seq_le old))
    · -- what is recorded now is past every flush
      exfalso
      rw [List.mem_singleton.mp new] at before
      rcases List.mem_append.mp recorded with old' | new'
      · have place := standing.positions.seq_le old'
        dsimp only at before
        omega
      · rw [List.mem_singleton.mp new'] at before
        exact Nat.lt_irrefl _ before
  ahead own view here running turn recorded contributes start before := by
    rcases List.mem_append.mp recorded with old | new
    · exact seen.ahead own view (current_of_append silent here) running turn old contributes start
        (Nat.lt_succ_of_le (standing.positions.seq_le old))
    · rw [List.mem_singleton.mp new] at contributes
      exact absurd running (waits own contributes)

theorem tellAll (seen : Seen state) (standing : Standing state) {payloads : List SessionPayload}
    (silent : ∀ payload ∈ payloads, isStart payload = false)
    (waits : ∀ payload ∈ payloads, ∀ own, Contributes own payload.turnPayload →
      ¬ state.tasks.Has (Place.Flushes own))
    (runs : ∀ payload ∈ payloads, ∀ own, Flushed own payload.turnPayload →
      state.tasks.Has (Place.Flushes own)) : Seen (state.append now payloads) := by
  induction payloads generalizing state with
  | nil => exact seen
  | cons payload rest ih =>
    have here := silent payload List.mem_cons_self
    have first : Seen (state.append now [payload]) := seen.tell standing here
      (waits payload List.mem_cons_self) (runs payload List.mem_cons_self)
    exact ih first (standing.tell now here)
      (fun payload member => silent payload (List.mem_cons_of_mem _ member))
      (fun payload member => waits payload (List.mem_cons_of_mem _ member))
      (fun payload member => runs payload (List.mem_cons_of_mem _ member))

/-! ### Outcomes -/

theorem current_eq (standing : Standing state) (known : Known state.log conversation session)
    (isOpen : sessionIsOpen state.log session.id = true) {view : SessionView}
    (current : Current state conversation view) :
    view.id = session.id ∧ view.startSeq = session.sessionStartSeq := by
  obtain ⟨open', member, named, place⟩ := mem_open_of_known known isOpen
  have same : open' = view := by
    rcases current with open'' | ⟨listed, held, live, named'⟩
    · exact standing.single conversation open' member view open''
    · have only := (standing.live conversation held live).2 open' member
      exact (standing.named conversation conversation open' (mem_openSessions.mp member).1 view
        listed (only.trans named')).2
  exact ⟨same ▸ named, same ▸ place⟩

theorem closes (seen : Seen state) (standing : Standing state)
    (closes : Closes state task conversation closing after) : Seen after := by
  cases closes with
  | @flushed session known isOpen =>
    have taken : ∀ own view, Current (state.setLive conversation none) own view →
        Current state own view := fun _ _ => current_of_taken
    refine seen.flush rfl rfl rfl taken fun view current => ?_
    obtain ⟨named, place⟩ := current_eq standing known isOpen current
    refine ⟨named, fun turn recorded contributes own => .inr ?_⟩
    exact mem_slice recorded contributes known.1 (place ▸ own)
  | ended => exact (seen.takeLive conversation).move (by rintro _ ⟨⟩ own ⟨⟩)

theorem enters (seen : Seen state) (standing : Standing state)
    (enters : Enters state task conversation after) : Seen after := by
  cases enters with
  | joined known only held => exact seen.join known held
  | composing => exact (seen.takeLive conversation).move (by rintro _ ⟨⟩ own ⟨⟩)
  | closes _ closes => exact seen.closes standing closes

theorem opens (seen : Seen state) (standing : Standing state) {id : SessionId}
    {tail : Option (TurnId × Nat)}
    (here : state.tasks task = some (.composing conversation tail))
    (fresh : isStarted state.log id = false ∧ isEnded state.log id = false) :
    Seen (state.openSession task conversation id now tail) := by
  let event : SessionEvent :=
    ⟨state.log.length + 1, now, .sessionStarted conversation id now (tail.map (·.1))⟩
  have log : (state.openSession task conversation id now tail).log = state.log ++ [event] := rfl
  have recorded_cases : ∀ {turn own}, turn ∈ state.log ++ [event] →
      Contributes own turn.payload.turnPayload ∨ Flushed own turn.payload.turnPayload →
      turn ∈ state.log := by
    intro turn own recorded kind
    rcases List.mem_append.mp recorded with old | new
    · exact old
    · rw [List.mem_singleton.mp new] at kind
      rcases kind with contributes | ⟨_, turnIn, _⟩
      · cases contributes.1
      · cases turnIn
  -- a session is the new one, of which there is nothing yet, or was current before
  have current_cases : ∀ {own view}, Current (state.openSession task conversation id now tail) own
      view → view.startSeq = state.log.length + 1 ∨ Current state own view := by
    intro own view current
    have listed : sessionsOf (state.log ++ [event]) own = sessionsOf state.log own ++
        if conversation = own then
          [⟨id, now, state.log.length + 1, (tail.map (·.1)).isSome⟩] else [] := by
      by_cases here : conversation = own <;> simp [event, sessionsOf, starts, here]
    have opened : openSessions (state.log ++ [event]) own = openSessions state.log own ++
        if conversation = own then
          [⟨id, now, state.log.length + 1, (tail.map (·.1)).isSome⟩] else [] :=
      openSessions_started fresh.2 rfl
    have added : ∀ {rest : List SessionView}, view ∈ rest ++ (if conversation = own then
        [⟨id, now, state.log.length + 1, (tail.map (·.1)).isSome⟩] else []) →
        view ∈ rest ∨ view.startSeq = state.log.length + 1 := by
      intro rest member
      rcases List.mem_append.mp member with old | new
      · exact .inl old
      · split at new
        · rw [List.mem_singleton.mp new]
          exact .inr rfl
        · cases new
    rcases current with open' | ⟨member, session, live, named⟩
    · rcases added (opened ▸ log ▸ open') with old | new
      · exact .inr (.inl old)
      · exact .inl new
    · rcases added (listed ▸ log ▸ member) with old | new
      · rcases (State.setLive_eq_some ..).mp live with ⟨rfl, put⟩ | ⟨_, stayed⟩
        · -- the new session's name is of no session before
          cases put
          have started := isStarted_of_mem old
          rw [← named, fresh.1] at started
          cases started
        · exact .inr (.inr ⟨old, session, stayed, named⟩)
      · exact .inl new
  have flushes : ∀ own, (state.openSession task conversation id now tail).tasks.Has
      (Place.Flushes own) → state.tasks.Has (Place.Flushes own) := by
    rintro own ⟨other, place, there, flushing⟩
    rcases Tasks.put_eq_some.mp there with ⟨_, arrived⟩ | ⟨_, stayed⟩
    · cases arrived
      cases flushing
    · exact ⟨other, place, stayed, flushing⟩
  constructor
  · intro own view current flush recorded flushed turn recorded' contributes start before
    have old := recorded_cases recorded' (.inl contributes)
    rcases current_cases current with new | current
    · have place := standing.positions.seq_le old
      omega
    · exact seen.behind own view current flush (recorded_cases recorded (.inr flushed)) flushed
        turn old contributes start before
  · intro own view current running turn recorded contributes start before
    have old := recorded_cases recorded (.inl contributes)
    have place := standing.positions.seq_le old
    rcases current_cases current with new | current
    · omega
    · exact seen.ahead own view current (flushes own running) turn old contributes start
        (Nat.lt_succ_of_le place)

theorem checkpoints (seen : Seen state) (standing : Standing state) {current : OpenSession}
    (known : Known state.log conversation session)
    (live : state.live conversation = some current) (same : current.id = session.id) :
    Seen { state.move task (some (.flushing conversation session .checkpoint)) with
      handed := state.handed ++ [⟨session.id, state.delta conversation session⟩] } := by
  refine seen.flush rfl rfl rfl (fun _ _ current => current) fun view here => ?_
  have named : view.id = session.id := by
    rcases here with open' | ⟨_, held, live', named⟩
    · exact ((standing.live conversation current live).2 view open').trans same
    · cases live.symm.trans live'
      exact named.symm.trans same
  have place : view.startSeq = session.sessionStartSeq := by
    obtain ⟨_, own, listed, named', place⟩ := known
    have unique := standing.named conversation conversation view here.listed own listed
      (named.trans named'.symm)
    exact unique.2 ▸ place
  refine ⟨named, fun turn recorded contributes own => ?_⟩
  by_cases below : turn.seq ≤ state.watermark conversation session
  · refine .inl (@watermark state conversation view turn seen standing here session.startSeq
      session.sessionStartSeq state.settings.carryoverTokenBudget recorded contributes own ?_)
    rw [place]
    exact below
  · obtain ⟨one, member, seq⟩ := mem_slice recorded contributes known.1 (place ▸ own)
    refine .inr ⟨one, ?_, seq⟩
    have past : ¬ one.seq ≤ state.watermark conversation session := seq ▸ below
    have buffered : one ∈ state.buffer conversation session := member
    rw [← List.takeWhile_append_dropWhile (p := fun turn : TurnView =>
      turn.seq ≤ state.watermark conversation session) (l := state.buffer conversation session)]
      at buffered
    rcases List.mem_append.mp buffered with before | later
    · have early := @List.mem_takeWhile_imp _
        (fun turn : TurnView => turn.seq ≤ state.watermark conversation session) _ _ before
      exact absurd (of_decide_eq_true early) past
    · exact later

end Seen

/-- Nothing is contributed to a conversation while a flush of it runs. -/
def Waits (state : State) : Act → Prop
  | .inbound task _ messages => messages ≠ [] → ∀ conversation session,
    state.tasks task = some (.joined conversation session) →
      ¬ state.tasks.Has (Place.Flushes conversation)
  | .finished task _ (.completed (some _) _) => ∀ conversation session,
    state.tasks task = some (.running conversation session) →
      ¬ state.tasks.Has (Place.Flushes conversation)
  | _ => True

/-- A step that waits for the flushes. -/
def Waiting (before : State) (act : Act) (after : State) : Prop :=
  Step before act after ∧ Waits before act

section Payloads

variable {payload : TurnPayload} {own conversation : ConversationId}

theorem not_contributes (unspoken : spokenIn payload = none) : ¬ Contributes own payload :=
  fun contributes => nomatch unspoken.symm.trans contributes.1

theorem not_flushed (ordinary : isFlushTurn payload = false) : ¬ Flushed own payload :=
  fun flushed => nomatch ordinary.symm.trans flushed.isFlushTurn

end Payloads

theorem Seen.step {state after : State} {act : Act} (seen : Seen state) (standing : Standing state)
    (step : Step state act after) (waits : Waits state act) : Seen after := by
  cases step with
  | @quiet task place moves =>
    generalize state.tasks task = here at moves
    cases moves with
    | left => exact seen.leave task
    | arrived | admitted | listed | idle | picked | due =>
      exact seen.move (by rintro _ ⟨⟩ own ⟨⟩)
  | @entered task conversation now here free =>
    exact seen.enters standing (ensureSession_enters standing)
  | opened now here fresh => exact seen.opens standing here fresh
  | @inbound task conversation session now messages here =>
    have told : Seen (state.append now (inboundTurns conversation session.id messages)) := by
      refine seen.tellAll standing (List.forall_mem_map.mpr fun _ _ => rfl) ?_ ?_
      · refine List.forall_mem_map.mpr fun _ member own contributes => ?_
        cases contributes.1
        exact waits (List.ne_nil_of_mem member) conversation session here
      · exact List.forall_mem_map.mpr fun _ _ own flushed =>
          absurd flushed (not_flushed rfl)
    exact told.move (by rintro _ ⟨⟩ own ⟨⟩)
  | recorded now here unspoken =>
    exact seen.tell standing rfl (fun _ contributes => absurd contributes (not_contributes unspoken.1))
      fun _ flushed => absurd flushed (not_flushed unspoken.2)
  | @withheld task conversation session now here => exact seen.leave task
  | @completed after task conversation session now reply observed here ordinary recorded =>
    have stands : Standing after := by
      rw [recorded]
      exact standing.tellAll now (List.forall_mem_map.mpr fun _ _ => rfl)
    have told : Seen after := by
      rw [recorded]
      cases reply with
      | none => exact seen
      | some turn =>
        obtain ⟨turnId, text, producedBy⟩ := turn
        refine seen.tell standing rfl (fun own contributes => ?_) fun own flushed => ?_
        · cases contributes.1
          exact waits conversation session here
        · exact absurd flushed (not_flushed (ordinary _ rfl))
    split
    · rcases @endForCompaction_closes after task conversation .budget stands (.inl rfl) with
        closes | gone
      · exact told.closes stands closes
      · rw [gone]
        exact (told.takeLive conversation).leave task
    · exact told.leave task
  | @claimed task conversation recovered lastActivity here free stands =>
    have listed := standing.places task _ here
    exact seen.closes standing (claim_closes standing listed stands)
  | @checkpointed task conversation session current trigger now here free live same =>
    exact seen.checkpoints standing (standing.places task _ here) live same
  | @replied task conversation session purpose now reply here flush =>
    have told : Seen (state.append now (reply.toList.map fun turn =>
        agentTurn conversation session.id turn.1 turn.2.1 (some turn.2.2))) := by
      cases reply with
      | none => exact seen
      | some turn =>
        obtain ⟨turnId, text, producedBy⟩ := turn
        refine seen.tell standing rfl (fun own contributes => ?_) fun own flushed => ?_
        · cases (flush _ rfl).symm.trans contributes.2
        · obtain ⟨_, turnIn, _⟩ := flushed
          cases turnIn
          exact ⟨task, _, here, rfl⟩
    cases purpose with
    | checkpoint => exact told.leave task
    | closing => exact told.move (by rintro _ ⟨⟩ own ⟨⟩)
  | @ended task conversation session closing now here =>
    have told : Seen (state.append now [.sessionEnded conversation session.id closing.cause]) :=
      seen.tell standing rfl (fun _ contributes => absurd contributes (not_contributes rfl))
        fun _ flushed => absurd flushed (not_flushed rfl)
    have stands : Standing (state.append now
        [.sessionEnded conversation session.id closing.cause]) := standing.tell now rfl
    by_cases locked : closing = .recovery ∨ closing = .lapsed
    · have both : closing.byTurn = true ∧ closing.underLock = true := by
        rcases locked with rfl | rfl <;> exact ⟨rfl, rfl⟩
      have nothing := @nothing_after_end state conversation session now closing.cause
        ((standing.places task _ here).2 locked)
      exact told.enters stands (afterClose_enters stands locked
        (stands.taken conversation task _ here ⟨rfl, both.1⟩ ⟨rfl, both.2⟩) nothing)
    · cases closing with
      | recovery | lapsed => simp at locked
      | idle | budget | forced => exact told.leave task
  | @forced task conversation new =>
    rcases endForCompaction_closes standing (.inr rfl) with closes | gone
    · exact seen.closes standing closes
    · rw [gone]
      exact (seen.takeLive conversation).leave task
  | noted now unspoken =>
    exact seen.tell standing rfl (fun _ contributes => absurd contributes (not_contributes unspoken.1))
      fun _ flushed => absurd flushed (not_flushed unspoken.2)
  | restarted =>
    refine seen.still rfl rfl (fun own view current => ?_) ?_
    · rcases current with open' | ⟨_, _, live, _⟩
      · exact .inl open'
      · cases live
    · rintro own ⟨_, _, there, _⟩
      cases there
  | configured => exact seen.still rfl rfl (fun _ _ current => current) fun _ flushes => flushes

/-! ### Runs -/

/-- After any run in which nothing is contributed to a conversation while a flush of it runs,
every turn of a session at or below its watermark, other than a flush's, was given to a
flush of the session. -/
theorem given_below_watermark (settings : Settings) (acts : List Act) (state : State)
    (run : Trace Waiting { settings } acts state) (conversation : ConversationId)
    (view : SessionView) (current : Current state conversation view) (startSeq : Nat)
    (tokenBudget : Int) :
    ∀ turn ∈ state.log, Contributes conversation turn.payload.turnPayload →
      view.startSeq ≤ turn.seq →
      turn.seq ≤ flushedUpTo (boundedBufferTurns (turnLog state.log) conversation startSeq
        view.startSeq tokenBudget) view.startSeq →
      Given state.handed view.id turn := by
  have ⟨standing, seen⟩ : Standing state ∧ Seen state := by
    refine run.invariant (fun state => Standing state ∧ Seen state) ?_
      ⟨{ Standing.start with }, Seen.start settings⟩
    rintro one act other ⟨step, waits⟩ ⟨standing, seen⟩
    exact ⟨standing.step step, seen.step standing step waits⟩
  intro turn recorded contributes own below
  exact seen.watermark standing current recorded contributes own below

namespace Cut

def producer : ProducedBy := { modelId := "model", templateName := .flush, templateVersion := 1 }

def flushed (seq : Nat) : SessionEvent :=
  ⟨seq, ⟨0⟩, .turn ⟨1⟩ (.conversationTurn ⟨1⟩ ⟨2⟩ .agent "saved" none (some producer) [])⟩

def saving : Act := .replied 1 ⟨0⟩ (some (⟨2⟩, "saved", producer))

theorem saves (log : List SessionEvent) (live : Option OpenSession) (turn : Option Place)
    (handed : List Handed) :
    Step (scene log live turn (some (.flushing ⟨1⟩ session (.closing .forced))) handed) saving
      (scene (log ++ [flushed (log.length + 1)]) live turn
        (some (.ending ⟨1⟩ session .forced)) handed) := by
  have step := @Step.replied
    (scene log live turn (some (.flushing ⟨1⟩ session (.closing .forced))) handed) 1 ⟨1⟩ session
    (.closing .forced) ⟨0⟩ (some (⟨2⟩, "saved", producer)) rfl (by simp; rfl)
  simp only [scene_append, scene_other] at step
  exact step

theorem flushes (log : List SessionEvent) (turn : Option Place)
    (isOpen : sessionIsOpen log ⟨1⟩ = true)
    (many : (4 : Int) ≤ ((scene log none turn none).buffer ⟨1⟩ session).countP fun turn =>
      session.sessionStartSeq ≤ turn.seq) :
    Step (scene log (some session) turn none) (.forced 1 ⟨1⟩)
      (scene log none turn (some (.flushing ⟨1⟩ session (.closing .forced)))
        [⟨⟨1⟩, (scene log none turn none).buffer ⟨1⟩ session⟩]) := by
  have step := @Step.forced (scene log (some session) turn none) 1 ⟨1⟩ rfl
  have enough : (scene log none turn none).settings.flushMinTurns ≤
      ((scene log none turn none).buffer ⟨1⟩ session).countP fun turn =>
        session.sessionStartSeq ≤ turn.seq := many
  have stands : sessionIsOpen (scene log none turn none).log session.id = true := isOpen
  have same : (scene log (some session) turn none).endForCompaction 1 ⟨1⟩ .forced =
      scene log none turn (some (.flushing ⟨1⟩ session (.closing .forced)))
        [⟨⟨1⟩, (scene log none turn none).buffer ⟨1⟩ session⟩] := by
    simp only [State.endForCompaction, scene_live, scene_setLive, State.flushAndEnd,
      State.flushOrEnd, if_pos stands, if_pos enough, scene_other]
    rfl
  rwa [same] at step

/-- The reply of a turn that runs while a compaction flushes its session is below the
watermark, and no flush was given it. -/
theorem reply_in_flush : ∃ state,
    Trace Step {} (coming [hello, hello, hello, hello] ++ [.forced 1 ⟨1⟩, replying, saving]) state ∧
      ∃ view, Current state ⟨1⟩ view ∧ ∃ turn ∈ state.log,
        Contributes ⟨1⟩ turn.payload.turnPayload ∧ view.startSeq ≤ turn.seq ∧
        turn.seq ≤ flushedUpTo (boundedBufferTurns (turnLog state.log) ⟨1⟩ 1 view.startSeq 4000)
          view.startSeq ∧ ¬ Given state.handed view.id turn := by
  let log := [started, message 2, message 3, message 4, message 5]
  have run : Trace Step {}
      (coming [hello, hello, hello, hello] ++ [.forced 1 ⟨1⟩, replying, saving])
      (scene (log ++ [reply 6, flushed 7]) none none (some (.ending ⟨1⟩ session .forced))
        [⟨⟨1⟩, boundedBufferTurns (turnLog log) ⟨1⟩ 1 1 4000⟩]) := by
    refine ((come _).mono fun _ _ _ step => step.1.1).append ?_
    exact .cons (flushes _ _ rfl (by decide)) (.cons (replies _ _ _ _) (.single (saves _ _ _ _)))
  refine ⟨_, run, ⟨⟨1⟩, ⟨0⟩, 1, false⟩, .inl (by decide), reply 6, by decide, ⟨rfl, rfl⟩, by decide,
    by decide, ?_⟩
  rintro ⟨flush, member, _, view, sliced, same⟩
  rw [List.mem_singleton.mp member] at sliced
  have early : ∀ view ∈ boundedBufferTurns (turnLog log) ⟨1⟩ 1 1 4000, view.seq ≠ 6 := by decide
  exact early view sliced same

/-- Once the turn has replied, the compaction's flush is given its messages and its reply. -/
theorem reply_before_flush : ∃ state,
    Trace Waiting {} (coming [hello, hello, hello, hello] ++ [replying, .forced 1 ⟨1⟩, saving])
      state ∧
    ∀ turn ∈ state.log, Contributes ⟨1⟩ turn.payload.turnPayload → 1 ≤ turn.seq →
      turn.seq ≤ flushedUpTo (boundedBufferTurns (turnLog state.log) ⟨1⟩ 1 1 4000) 1 →
      Given state.handed ⟨1⟩ turn := by
  let log := [started, message 2, message 3, message 4, message 5, reply 6]
  have run : Trace Waiting {}
      (coming [hello, hello, hello, hello] ++ [replying, .forced 1 ⟨1⟩, saving])
      (scene (log ++ [flushed 7]) none none (some (.ending ⟨1⟩ session .forced))
        [⟨⟨1⟩, boundedBufferTurns (turnLog log) ⟨1⟩ 1 1 4000⟩]) := by
    have waits : ∀ before act after, (Sparing before act after ∧
        ∀ own, ¬ before.tasks.Has (Place.Flushes own)) → Waiting before act after := by
      rintro before act after ⟨⟨step, _⟩, calm⟩
      refine ⟨step, ?_⟩
      unfold Waits
      split
      · exact fun _ own _ _ => calm own
      · exact fun own _ _ => calm own
      · trivial
    refine ((come _).mono waits).append (.cons ⟨replies _ _ _ _, fun own _ _ => ?_⟩
      (.cons ⟨flushes _ _ rfl (by decide), trivial⟩ (.single ⟨saves _ _ _ _, trivial⟩)))
    exact scene_free (by simp [Place.Flushes]) nofun
  exact ⟨_, run, given_below_watermark {} _ _ run ⟨1⟩ ⟨⟨1⟩, ⟨0⟩, 1, false⟩ (.inl (by decide)) 1 4000⟩

end Cut

end Zuihitsu.Session
