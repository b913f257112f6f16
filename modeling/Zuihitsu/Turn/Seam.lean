/-
# The seam between two sessions

A new session reads its buffer from the oldest turn carried over, and cuts what
comes before its own start to the budget again. It gets back the tail that was cut
exactly when the position of that turn keeps apart what belongs to the tail.
-/

import Mathlib.Data.List.TakeWhile
import Zuihitsu.Turn.Carryover

namespace Zuihitsu.Turn

open Zuihitsu.Core

/-! ### Cutting a tail again -/

section Again

variable {turns : List TurnView} {tokenBudget : Int} {start : Nat}

theorem carryoverStart_le : carryoverStart turns tokenBudget ≤ turns.length - 1 := by
  rcases @carryoverStart_cases turns tokenBudget with
    ⟨_, newest⟩ | ⟨_, _, ⟨_, oldest⟩ | ⟨_, _, _, _, _, _, _, after⟩⟩
  · exact Nat.le_of_eq newest
  · rw [oldest]
    exact Nat.zero_le _
  · rw [after]
    exact Nat.min_le_right _ _

theorem mem_measuredCalls_drop {index tokens : Nat} :
    (index, tokens) ∈ measuredCalls (turns.drop start) ↔
      (start + index, tokens) ∈ measuredCalls turns := by
  rw [mem_measuredCalls, mem_measuredCalls, List.getElem?_drop]

theorem le_getLast {call last : Nat × Nat} (member : call ∈ measuredCalls turns)
    (found : (measuredCalls turns).getLast? = some last) : call.1 ≤ last.1 := by
  obtain ⟨earlier, split⟩ := List.getLast?_eq_some_iff.mp found
  have sorted := @measuredCalls_sorted turns
  rw [split] at member sorted
  rcases List.mem_append.mp member with before | here
  · exact Nat.le_of_lt ((List.pairwise_append.mp sorted).2.2 _ before _ List.mem_cons_self)
  · rw [List.mem_singleton.mp here]

theorem carryoverStart_again (cut : carryoverStart turns tokenBudget = start)
    (inside : start < turns.length) :
    carryoverStart (turns.drop start) tokenBudget = 0 ↔
      start = 0 ∨ start + 1 = turns.length ∨ ∃ call, start ≤ call ∧ Reported turns call := by
  constructor
  · intro whole
    by_cases some : ∃ call, start ≤ call ∧ Reported turns call
    · exact .inr (.inr some)
    · have none : measuredCalls (turns.drop start) = [] := by
        refine List.eq_nil_iff_forall_not_mem.mpr fun call member => some ?_
        exact ⟨start + call.1, Nat.le_add_right _ _, reported_iff.mpr
          ⟨call.2, mem_measuredCalls_drop.mp member⟩⟩
      rw [carryoverStart_none none, List.length_drop] at whole
      exact .inr (.inl (by omega))
  · rintro (rfl | single | ⟨call, from_, reported⟩)
    · exact cut
    · have upTo := @carryoverStart_le (turns.drop start) tokenBudget
      rw [List.length_drop] at upTo
      omega
    · obtain ⟨tokens, member⟩ := reported_iff.mp reported
      have listed : (call - start, tokens) ∈ measuredCalls (turns.drop start) :=
        mem_measuredCalls_drop.mpr (by rwa [Nat.add_sub_cancel' from_])
      rcases @carryoverStart_cases (turns.drop start) tokenBudget with
        ⟨none, _⟩ | ⟨last', found', ⟨_, oldest⟩ | ⟨_, past, _, _, split, _, beyond, _⟩⟩
      · rw [none] at listed
        cases listed
      · exact oldest
      · -- a call of the tail over the budget would have stopped the first cut later
        exfalso
        have overMember : (start + past.1, past.2) ∈ measuredCalls turns := by
          refine mem_measuredCalls_drop.mp ?_
          rw [split]
          exact List.mem_append_right _ List.mem_cons_self
        rcases @carryoverStart_cases turns tokenBudget with
          ⟨none, _⟩ | ⟨last, found, cases'⟩
        · rw [none] at member
          cases member
        have same : last'.2 = last.2 := by
          have lastMember := List.mem_of_getLast? found
          have place : start ≤ last.1 := Nat.le_trans from_ (le_getLast member found)
          have high := le_getLast (mem_measuredCalls_drop.mp (List.mem_of_getLast? found')) found
          have low := le_getLast (mem_measuredCalls_drop.mpr (show (start + (last.1 - start),
            last.2) ∈ measuredCalls turns by rwa [Nat.add_sub_cancel' place])) found'
          have index : start + last'.1 = last.1 := by
            dsimp only at high low
            omega
          obtain ⟨turn, at_, size⟩ := mem_measuredCalls.mp
            (mem_measuredCalls_drop.mp (List.mem_of_getLast? found'))
          obtain ⟨turn', at', size'⟩ := mem_measuredCalls.mp lastMember
          rw [index, at', Option.some_inj] at at_
          rw [← at_, size', Option.some_inj] at size
          exact size.symm
        rw [same] at beyond
        rcases cases' with ⟨all, _⟩ | ⟨older, first, next, newer, parts, within, _, place⟩
        · exact absurd (all _ overMember) (Nat.not_le_of_lt beyond)
        · have sorted := @measuredCalls_sorted turns
          rw [parts] at overMember sorted
          obtain ⟨_, laterPairs, across⟩ := List.pairwise_append.mp sorted
          have nextAfter := (List.pairwise_cons.mp laterPairs).1 next List.mem_cons_self
          have before : start + past.1 < next.1 := by
            rcases List.mem_append.mp overMember with early | rest
            · exact Nat.lt_trans (across _ early _ List.mem_cons_self) nextAfter
            · rcases List.mem_cons.mp rest with here | late
              · have index : start + past.1 = first.1 := congrArg Prod.fst here
                rw [index]
                exact nextAfter
              · exact absurd (within _ late) (Nat.not_le_of_lt beyond)
          have nextMember : next ∈ measuredCalls turns := by
            rw [parts]
            exact List.mem_append_right _ (List.mem_cons_of_mem _ List.mem_cons_self)
          obtain ⟨turn, at_, _⟩ := mem_measuredCalls.mp nextMember
          obtain ⟨inBounds, _⟩ := List.getElem?_eq_some_iff.mp at_
          rw [cut] at place
          omega

end Again

/-! ### Reading a log in two parts -/

/-- The events recorded from a position on. -/
def since (log : List TurnEvent) (seq : Nat) : List TurnEvent :=
  log.filter fun event => seq ≤ event.seq

/-- The events recorded from a position on and before another. -/
def span (log : List TurnEvent) (start stop : Nat) : List TurnEvent :=
  log.filter fun event => start ≤ event.seq && event.seq < stop

/-- A log in order of its positions. -/
def Ordered (log : List TurnEvent) : Prop :=
  log.Pairwise fun earlier later => earlier.seq < later.seq

section Parts

variable {conversation : ConversationId} {log before after : List TurnEvent} {start stop : Nat}
variable {event : TurnEvent} {view : TurnView}

theorem mem_since : event ∈ since log start ↔ event ∈ log ∧ start ≤ event.seq := by
  simp [since]

theorem mem_span : event ∈ span log start stop ↔
    event ∈ log ∧ start ≤ event.seq ∧ event.seq < stop := by
  simp [span]

theorem since_eq_span_append (ordered : Ordered log) (order : start ≤ stop) :
    since log start = span log start stop ++ since log stop := by
  induction log with
  | nil => rfl
  | cons event rest ih =>
    obtain ⟨first, later⟩ := List.pairwise_cons.mp ordered
    by_cases below : event.seq < stop
    · have late : ¬ stop ≤ event.seq := Nat.not_le_of_lt below
      by_cases from_ : start ≤ event.seq
      · simpa [since, span, below, from_, late] using ih later
      · simpa [since, span, below, from_, late] using ih later
    · -- from here on everything is past the later position
      have none : span (event :: rest) start stop = [] := by
        refine List.filter_eq_nil_iff.mpr fun other member => ?_
        have past : stop ≤ other.seq := by
          rcases List.mem_cons.mp member with rfl | further
          · exact Nat.le_of_not_lt below
          · exact Nat.le_trans (Nat.le_of_not_lt below) (Nat.le_of_lt (first other further))
        simp [Nat.not_lt_of_le past]
      have whole : since (event :: rest) start = since (event :: rest) stop := by
        refine List.filter_congr fun other member => ?_
        have past : stop ≤ other.seq := by
          rcases List.mem_cons.mp member with rfl | further
          · exact Nat.le_of_not_lt below
          · exact Nat.le_trans (Nat.le_of_not_lt below) (Nat.le_of_lt (first other further))
        simp [past, Nat.le_trans order past]
      rw [none, whole]
      rfl

theorem bufferTurns_eq : bufferTurns log conversation start =
    turnsAfter conversation [] (since log start) := rfl

theorem mem_boundedBufferTurns {sessionStart : Nat} {tokenBudget : Int}
    (own : sessionStart ≤ view.seq) (read : view ∈ bufferTurns log conversation start) :
    view ∈ boundedBufferTurns log conversation start sessionStart tokenBudget := by
  let turns := bufferTurns log conversation start
  let tail := turns.takeWhile fun turn => turn.seq < sessionStart
  have cut : carryoverStart tail tokenBudget ≤ tail.length :=
    Nat.le_trans carryoverStart_le (Nat.sub_le _ _)
  have whole : tail ++ turns.dropWhile (fun turn => turn.seq < sessionStart) = turns :=
    List.takeWhile_append_dropWhile
  change view ∈ turns.drop (carryoverStart tail tokenBudget)
  change view ∈ turns at read
  rw [← whole] at read ⊢
  rw [List.drop_append_of_le_length cut]
  rcases List.mem_append.mp read with carried | later
  · have before := @List.mem_takeWhile_imp _ (fun turn => turn.seq < sessionStart) turns view carried
    exact absurd (of_decide_eq_true before) (Nat.not_lt_of_le own)
  · exact List.mem_append_right _ later

theorem bufferTurns_split (ordered : Ordered log) (order : start ≤ stop) :
    bufferTurns log conversation start =
      turnsAfter conversation [] (span log start stop) ++
        turnsAfter conversation (span log start stop) (since log stop) := by
  rw [bufferTurns_eq, since_eq_span_append ordered order, turnsAfter_nil_left, gathered_append]
  rfl

theorem turnsAfter_sorted (ordered : Ordered after) :
    (turnsAfter conversation before after).Pairwise fun first second =>
      first.seq ≤ second.seq := by
  induction after generalizing before with
  | nil => exact List.Pairwise.nil
  | cons event rest ih =>
    obtain ⟨first, later⟩ := List.pairwise_cons.mp ordered
    rw [turnsAfter_cons]
    refine List.pairwise_append.mpr ⟨?_, ih later, ?_⟩
    · refine List.pairwise_of_forall_mem_list fun one member two member' => ?_
      rw [adds_seq member, adds_seq member']
    · intro one added two read
      obtain ⟨other, within, same⟩ := turnsAfter_seq read
      rw [adds_seq added, same]
      exact Nat.le_of_lt (first other within)

/-! ### The carried tail -/

/-- Nothing of a turn that is answered after the cut was recorded between the start and the
cut: no block, and not its first reported prompt size. -/
def KeepsTurnsWhole (conversation : ConversationId) (log : List TurnEvent) (start cut : Nat) :
    Prop :=
  ∀ turnId, answeredIn conversation turnId (span log start cut) = false →
    answeredIn conversation turnId (since log cut) = true →
    stepsIn conversation turnId (span log start cut) = [] ∧
      priceIn conversation turnId (since log start) = priceIn conversation turnId (since log cut)

theorem bufferTurns_drop_iff (ordered : Ordered log) (callsFirst : CallsFirst conversation log)
    {index : Nat} {cut : TurnView} (found : (bufferTurns log conversation start)[index]? = some cut) :
    bufferTurns log conversation cut.seq = (bufferTurns log conversation start).drop index ↔
      (∀ earlier < index, ∀ turn, (bufferTurns log conversation start)[earlier]? = some turn →
        turn.seq ≠ cut.seq) ∧ KeepsTurnsWhole conversation log start cut.seq := by
  have member := List.mem_of_getElem? found
  obtain ⟨event, recorded, place⟩ := turnsAfter_seq (bufferTurns_eq ▸ member)
  have order : start ≤ cut.seq := place ▸ (mem_since.mp recorded).2
  obtain ⟨inside, here⟩ := List.getElem?_eq_some_iff.mp found
  rw [bufferTurns_split ordered order] at found inside ⊢
  generalize front_def : turnsAfter conversation [] (span log start cut.seq) = front at *
  generalize back_def :
    turnsAfter conversation (span log start cut.seq) (since log cut.seq) = back at *
  have early : ∀ turn ∈ front, turn.seq < cut.seq := by
    intro turn within
    rw [← front_def] at within
    obtain ⟨other, recorded, same⟩ := turnsAfter_seq within
    rw [same]
    exact (mem_span.mp recorded).2.2
  have late : ∀ turn ∈ back, cut.seq ≤ turn.seq := by
    intro turn within
    rw [← back_def] at within
    obtain ⟨other, recorded, same⟩ := turnsAfter_seq within
    rw [same]
    exact (mem_since.mp recorded).2
  have past : front.length ≤ index := by
    by_contra before
    rw [List.getElem?_append_left (by omega)] at found
    exact Nat.lt_irrefl _ (early cut (List.mem_of_getElem? found))
  have sorted : back.Pairwise fun first second => first.seq ≤ second.seq := by
    rw [← back_def]
    exact turnsAfter_sorted (ordered.sublist List.filter_sublist)
  have calls : CallsFirst conversation (span log start cut.seq ++ since log cut.seq) := by
    rw [← since_eq_span_append ordered order]
    exact callsFirst.sublist List.filter_sublist
  have whole : back = bufferTurns log conversation cut.seq ↔
      KeepsTurnsWhole conversation log start cut.seq := by
    rw [← back_def, bufferTurns_eq, turnsAfter_eq_fresh_iff calls,
      ← since_eq_span_append ordered order]
    exact Iff.rfl
  have lengths : (bufferTurns log conversation cut.seq).length = back.length := by
    rw [← back_def, bufferTurns_eq]
    exact turnsAfter_length
  have first : (∀ earlier < index, ∀ turn, (front ++ back)[earlier]? = some turn →
      turn.seq ≠ cut.seq) ↔ index = front.length := by
    constructor
    · intro apart
      by_contra further
      have before : front.length < index := by omega
      rw [List.length_append] at inside
      have exists_ : 0 < back.length := by omega
      have place : (front ++ back)[front.length]? = some back[0] := by
        rw [List.getElem?_append_right (Nat.le_refl _), Nat.sub_self,
          List.getElem?_eq_getElem exists_]
      have low := late back[0] (List.getElem_mem exists_)
      rw [List.getElem?_append_right past] at found
      obtain ⟨within, at_⟩ := List.getElem?_eq_some_iff.mp found
      have high : back[0].seq ≤ back[index - front.length].seq :=
        List.pairwise_iff_getElem.mp sorted 0 (index - front.length) exists_ within (by omega)
      rw [at_] at high
      exact apart front.length before _ place (Nat.le_antisymm high low)
    · intro same earlier below turn at_
      rw [List.getElem?_append_left (by omega)] at at_
      exact Nat.ne_of_lt (early turn (List.mem_of_getElem? at_))
  rw [first, ← whole]
  constructor
  · intro rest
    have length := congrArg List.length rest
    rw [lengths, List.length_drop, List.length_append] at length
    rw [List.length_append] at inside
    have index_eq : index = front.length := by omega
    refine ⟨index_eq, ?_⟩
    rw [rest, index_eq, List.drop_left]
  · rintro ⟨rfl, same⟩
    rw [List.drop_left, same]

theorem bufferTurns_later {later : List TurnEvent} {sessionStart cut : Nat}
    (older : ∀ event ∈ log, event.seq < sessionStart)
    (newer : ∀ event ∈ later, sessionStart ≤ event.seq) (order : cut ≤ sessionStart) :
    (bufferTurns (log ++ later) conversation cut).takeWhile (fun turn => turn.seq < sessionStart) =
      bufferTurns log conversation cut := by
  have parts : bufferTurns (log ++ later) conversation cut =
      bufferTurns log conversation cut ++ turnsAfter conversation (since log cut) later := by
    have kept : since later cut = later :=
      List.filter_eq_self.mpr fun event member =>
        decide_eq_true (Nat.le_trans order (newer event member))
    rw [bufferTurns_eq, since, List.filter_append, ← since, ← since, kept, turnsAfter_nil_left,
      gathered_append]
    rfl
  rw [parts, List.takeWhile_append_of_pos]
  · cases rest : turnsAfter conversation (since log cut) later with
    | nil => simp
    | cons turn more =>
      obtain ⟨event, member, same⟩ := turnsAfter_seq (rest ▸ List.mem_cons_self)
      have late : ¬ turn.seq < sessionStart := by
        rw [same]
        exact Nat.not_lt_of_le (newer event member)
      simp [late]
  · intro turn member
    obtain ⟨event, recorded, same⟩ := turnsAfter_seq (bufferTurns_eq ▸ member)
    rw [same]
    exact decide_eq_true (older event (mem_since.mp recorded).1)

/-- The next session reads the tail back as it was cut, and keeps all of it, exactly when the
cut is the first turn at its position, splits no turn after it, and leaves a tail with a
reported call, or of one turn, or whole. -/
theorem carried_tail_iff (ordered : Ordered log) (callsFirst : CallsFirst conversation log)
    {tokenBudget : Int} {cut : TurnView} {later : List TurnEvent} {sessionStart : Nat}
    (found : (bufferTurns log conversation start)[
      carryoverStart (bufferTurns log conversation start) tokenBudget]? = some cut)
    (older : ∀ event ∈ log, event.seq < sessionStart)
    (newer : ∀ event ∈ later, sessionStart ≤ event.seq) :
    let buffer := bufferTurns log conversation start
    let index := carryoverStart buffer tokenBudget
    let seeded := bufferTurns (log ++ later) conversation cut.seq
    (seeded.takeWhile (fun turn => turn.seq < sessionStart) = buffer.drop index ∧
      boundedBufferTurns (log ++ later) conversation cut.seq sessionStart tokenBudget = seeded) ↔
    (∀ earlier < index, ∀ turn, buffer[earlier]? = some turn → turn.seq ≠ cut.seq) ∧
      KeepsTurnsWhole conversation log start cut.seq ∧
      (index = 0 ∨ index + 1 = buffer.length ∨ ∃ call, index ≤ call ∧ Reported buffer call) := by
  intro buffer index seeded
  obtain ⟨event, recorded, place⟩ := turnsAfter_seq
    (bufferTurns_eq ▸ List.mem_of_getElem? found)
  have order : cut.seq ≤ sessionStart := by
    rw [place]
    exact Nat.le_of_lt (older event (mem_since.mp recorded).1)
  have tail : seeded.takeWhile (fun turn => turn.seq < sessionStart) =
      bufferTurns log conversation cut.seq := bufferTurns_later older newer order
  obtain ⟨inside, _⟩ := List.getElem?_eq_some_iff.mp found
  have rest : bufferTurns log conversation cut.seq = buffer.drop index ↔ _ :=
    bufferTurns_drop_iff ordered callsFirst found
  rw [tail, rest, and_assoc]
  refine and_congr_right fun apart => and_congr_right fun whole => ?_
  have same := rest.mpr ⟨apart, whole⟩
  rw [← carryoverStart_again rfl inside]
  change seeded.drop (carryoverStart (seeded.takeWhile fun turn => turn.seq < sessionStart)
    tokenBudget) = seeded ↔ carryoverStart (buffer.drop index) tokenBudget = 0
  rw [tail, same]
  constructor
  · intro kept
    have some : 0 < seeded.length := by
      have fewer := (List.takeWhile_sublist (fun turn : TurnView =>
        decide (turn.seq < sessionStart)) (l := seeded)).length_le
      rw [tail, same, List.length_drop] at fewer
      have room : index < buffer.length := inside
      omega
    have length := congrArg List.length kept
    rw [List.length_drop] at length
    omega
  · intro zero
    rw [zero, List.drop_zero]

end Parts

/-! ### A session ended by a flush -/

namespace EndFlush

def log : List TurnEvent :=
  [⟨1, ⟨0⟩, .conversationTurn ⟨1⟩ ⟨1⟩ .participant "why" none none []⟩,
    ⟨2, ⟨0⟩, .modelCalled ⟨1⟩ ⟨1⟩ .step "" none (some 100)⟩,
    ⟨3, ⟨0⟩, .conversationTurn ⟨1⟩ ⟨1⟩ .agent "because" none none []⟩,
    ⟨4, ⟨0⟩, .modelCalled ⟨1⟩ ⟨2⟩ .step "" none (some 150)⟩,
    ⟨5, ⟨0⟩, .luaExecuted ⟨1⟩ ⟨2⟩ "remember()" (some "noted") none⟩,
    ⟨6, ⟨0⟩, .modelCalled ⟨1⟩ ⟨2⟩ .step "" none (some 180)⟩,
    ⟨7, ⟨0⟩, .conversationTurn ⟨1⟩ ⟨2⟩ .agent "" none (some ⟨"model", .flush, 1⟩) []⟩]

def flush : TurnView :=
  { seq := 7, turnId := ⟨2⟩, role := .agent, text := "", recordedAt := ⟨0⟩
    steps := [⟨"remember()", "noted"⟩], producedBy := some ⟨"model", .flush, 1⟩
    promptTokens := some 150 }

theorem ordered : Ordered log := by
  unfold Ordered
  decide

theorem callsFirst : CallsFirst ⟨1⟩ log := by
  simp [CallsFirst, log, TurnEvent.answers, TurnEvent.stepOf, TurnEvent.priceOf]

theorem older : ∀ event ∈ log, event.seq < 8 := by decide

/-- The cut lands on the flush turn, and reading on from its position loses its block and its
size. -/
theorem split_by_cut :
    Ordered log ∧ CallsFirst ⟨1⟩ log ∧
      (bufferTurns log ⟨1⟩ 1)[carryoverStart (bufferTurns log ⟨1⟩ 1) 10]? = some flush ∧
      (∀ event ∈ log, event.seq < 8) ∧
      (bufferTurns log ⟨1⟩ flush.seq).takeWhile (fun turn => turn.seq < 8) ≠
        (bufferTurns log ⟨1⟩ 1).drop (carryoverStart (bufferTurns log ⟨1⟩ 1) 10) := by
  refine ⟨ordered, callsFirst, by decide, older, ?_⟩
  decide

/-- A budget that affords everything cuts at the question. -/
theorem carried_whole :
    (bufferTurns log ⟨1⟩ 1).takeWhile (fun turn => turn.seq < 8) = bufferTurns log ⟨1⟩ 1 ∧
      boundedBufferTurns log ⟨1⟩ 1 8 1000 = bufferTurns log ⟨1⟩ 1 := by
  have cut : (bufferTurns log ⟨1⟩ 1)[carryoverStart (bufferTurns log ⟨1⟩ 1) 1000]? =
      some { seq := 1, turnId := ⟨1⟩, role := .participant, text := "why", recordedAt := ⟨0⟩ } := by
    decide
  have oldest : carryoverStart (bufferTurns log ⟨1⟩ 1) 1000 = 0 := by decide
  have whole : KeepsTurnsWhole ⟨1⟩ log 1 1 := by
    intro turnId _ _
    exact ⟨rfl, rfl⟩
  have carried := (@carried_tail_iff ⟨1⟩ log 1 ordered callsFirst 1000 _ [] 8 cut older
    (fun event impossible => absurd impossible List.not_mem_nil)).mpr
  rw [oldest] at carried
  exact carried ⟨fun earlier impossible => absurd impossible (Nat.not_lt_zero _), whole, .inl rfl⟩

end EndFlush

end Zuihitsu.Turn
