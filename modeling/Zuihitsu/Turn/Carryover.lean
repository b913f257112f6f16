/-
# What a new session carries over

The tail of the previous session that a budget affords, priced by the prompt sizes
the model calls reported: the difference between two of them is what the buffer
grew by in between. The cut lands just after a call, and the ends no call has
bracketed ride free.
-/

import Zuihitsu.Turn.Buffer

namespace Zuihitsu.Turn

open Zuihitsu.Core

/-! ### The cut -/

/-- The turns with a reported call, with the size it reported, oldest first. -/
def measuredCalls (turns : List TurnView) : List (Nat × Nat) :=
  turns.zipIdx.filterMap fun (turn, index) => turn.promptTokens.map fun tokens => (index, tokens)

/-- Walk back over the calls, newest first, while carrying from just after one is within the
budget: the cut so far, and whether the oldest call was reached. -/
def admitCalls (budget lastTokens : Nat) : List (Nat × Nat) → Nat × Bool → Nat × Bool
  | [], found => found
  | (index, tokens) :: older, (start, admittedOldest) =>
    if budget < lastTokens - tokens then (start, admittedOldest)
    else admitCalls budget lastTokens older (min (index + 1) start, older.isEmpty)

/-- The index of the oldest turn the carryover can afford. -/
def carryoverStart (turns : List TurnView) (tokenBudget : Int) : Nat :=
  let budget := (max tokenBudget 0).toNat
  let newest := turns.length - 1
  let measured := measuredCalls turns
  match measured.getLast? with
  | none => newest
  | some (_, lastTokens) =>
    let (start, admittedOldest) := admitCalls budget lastTokens measured.reverse (newest, false)
    if admittedOldest then 0 else start

/-- The turns from a position on, their part before the session's own start cut to the
budget. -/
def boundedBufferTurns (log : List TurnEvent) (conversation : ConversationId)
    (startSeq sessionStartSeq : Nat) (tokenBudget : Int) : List TurnView :=
  let turns := bufferTurns log conversation startSeq
  let tail := turns.takeWhile fun turn => turn.seq < sessionStartSeq
  turns.drop (carryoverStart tail tokenBudget)

section Cut

variable {budget lastTokens start : Nat} {flag : Bool} {calls : List (Nat × Nat)}
variable {turns : List TurnView} {tokenBudget : Int}

theorem admitCalls_cases :
    ((∀ call ∈ calls, lastTokens - call.2 ≤ budget) ∧
      admitCalls budget lastTokens calls (start, flag) =
        (calls.foldl (fun start call => min (call.1 + 1) start) start,
          if calls.isEmpty then flag else true)) ∨
    ∃ newer past older, calls = newer ++ past :: older ∧
      (∀ call ∈ newer, lastTokens - call.2 ≤ budget) ∧ budget < lastTokens - past.2 ∧
      admitCalls budget lastTokens calls (start, flag) =
        (newer.foldl (fun start call => min (call.1 + 1) start) start,
          if newer.isEmpty then flag else false) := by
  induction calls generalizing start flag with
  | nil => exact .inl ⟨(fun _ member => nomatch member), rfl⟩
  | cons call older ih =>
    by_cases past : budget < lastTokens - call.2
    · refine .inr ⟨[], call, older, rfl, (fun _ member => nomatch member), past, ?_⟩
      rw [admitCalls, if_pos past]
      simp
    · have within : lastTokens - call.2 ≤ budget := Nat.le_of_not_lt past
      rw [admitCalls, if_neg past]
      rcases @ih (min (call.1 + 1) start) older.isEmpty with
        ⟨all, walked⟩ | ⟨newer, first, rest, rfl, all, beyond, walked⟩
      · refine .inl ⟨List.forall_mem_cons.mpr ⟨within, all⟩, ?_⟩
        rw [walked]
        cases older <;> rfl
      · refine .inr ⟨call :: newer, first, rest, rfl, List.forall_mem_cons.mpr ⟨within, all⟩,
          beyond, ?_⟩
        rw [walked]
        cases newer <;> rfl

theorem mem_measuredCalls {index tokens : Nat} :
    (index, tokens) ∈ measuredCalls turns ↔
      ∃ turn, turns[index]? = some turn ∧ turn.promptTokens = some tokens := by
  unfold measuredCalls
  rw [List.mem_filterMap]
  constructor
  · rintro ⟨⟨turn, place⟩, member, mapped⟩
    obtain ⟨size, reported, same⟩ := Option.map_eq_some_iff.mp mapped
    obtain ⟨rfl, rfl⟩ := Prod.mk.inj same
    exact ⟨turn, List.mem_zipIdx_iff_getElem?.mp member, reported⟩
  · rintro ⟨turn, at_, reported⟩
    exact ⟨(turn, index), List.mem_zipIdx_iff_getElem?.mpr at_, by simp [reported]⟩

theorem measuredCalls_sorted : (measuredCalls turns).Pairwise fun first second =>
    first.1 < second.1 := by
  have places : turns.zipIdx.Pairwise fun first second => first.2 < second.2 := by
    refine List.pairwise_map.mp ?_
    rw [List.zipIdx_map_snd]
    exact List.pairwise_lt_range'
  refine places.filterMap _ fun first second before one isOne two isTwo => ?_
  obtain ⟨_, _, rfl⟩ := Option.map_eq_some_iff.mp isOne
  obtain ⟨_, _, rfl⟩ := Option.map_eq_some_iff.mp isTwo
  exact before

theorem foldl_min {low : Nat} (lower : ∀ call ∈ calls, low ≤ call.1 + 1) :
    min low (calls.foldl (fun start call => min (call.1 + 1) start) start) = min low start := by
  induction calls generalizing start with
  | nil => rfl
  | cons call rest ih =>
    obtain ⟨here, later⟩ := List.forall_mem_cons.mp lower
    rw [List.foldl_cons, ih later]
    omega

/-- The budget as it is compared. -/
def spendable (tokenBudget : Int) : Nat := (max tokenBudget 0).toNat

theorem carryoverStart_none (none : measuredCalls turns = []) :
    carryoverStart turns tokenBudget = turns.length - 1 := by
  simp [carryoverStart, none]

theorem carryoverStart_some {last : Nat × Nat}
    (found : (measuredCalls turns).getLast? = some last) :
    carryoverStart turns tokenBudget =
      let walked := admitCalls (spendable tokenBudget) last.2 (measuredCalls turns).reverse
        (turns.length - 1, false)
      if walked.2 then 0 else walked.1 := by
  simp only [carryoverStart, found, spendable]
  rfl

theorem carryoverStart_cases :
    (measuredCalls turns = [] ∧ carryoverStart turns tokenBudget = turns.length - 1) ∨
    ∃ last, (measuredCalls turns).getLast? = some last ∧
      (((∀ call ∈ measuredCalls turns, last.2 - call.2 ≤ spendable tokenBudget) ∧
          carryoverStart turns tokenBudget = 0) ∨
        ∃ older past call newer, measuredCalls turns = older ++ past :: call :: newer ∧
          (∀ other ∈ call :: newer, last.2 - other.2 ≤ spendable tokenBudget) ∧
          spendable tokenBudget < last.2 - past.2 ∧
          carryoverStart turns tokenBudget = min (call.1 + 1) (turns.length - 1)) := by
  cases found : (measuredCalls turns).getLast? with
  | none =>
    have none := List.getLast?_eq_none_iff.mp found
    exact .inl ⟨none, carryoverStart_none none⟩
  | some last =>
    refine .inr ⟨last, rfl, ?_⟩
    have sorted := @measuredCalls_sorted turns
    rcases @admitCalls_cases (spendable tokenBudget) last.2 (turns.length - 1) false
        (measuredCalls turns).reverse with
      ⟨all, walked⟩ | ⟨newer, past, older, split, all, beyond, walked⟩
    · refine .inl ⟨fun call member => all call (List.mem_reverse.mpr member), ?_⟩
      have some : (measuredCalls turns).reverse.isEmpty = false := by
        rw [List.isEmpty_reverse]
        exact List.isEmpty_eq_false_iff.mpr fun none => by rw [none] at found; cases found
      rw [carryoverStart_some found, walked, some]
      rfl
    · have order : measuredCalls turns = older.reverse ++ past :: newer.reverse := by
        rw [← List.reverse_reverse (measuredCalls turns), split]
        simp
      cases newest : newer.reverse with
      | nil =>
        -- the last call is never over the budget of itself
        rw [order, newest] at found
        obtain rfl : past = last := by simpa using found
        exact absurd beyond (by simp)
      | cons call rest =>
        refine .inr ⟨older.reverse, past, call, rest, by rw [order, newest], ?_, beyond, ?_⟩
        · intro other member
          rw [← newest] at member
          exact all other (List.mem_reverse.mp member)
        · have listed : newer = rest.reverse ++ [call] := by
            rw [← List.reverse_reverse newer, newest]
            simp
          rw [order, newest] at sorted
          have after := (List.pairwise_cons.mp (List.pairwise_append.mp sorted).2.1).2
          have least : ∀ other ∈ rest.reverse, call.1 + 1 ≤ other.1 + 1 := by
            intro other member
            have later := (List.pairwise_cons.mp after).1 other (List.mem_reverse.mp member)
            exact Nat.le_of_lt (Nat.succ_lt_succ later)
          have folded : newer.foldl (fun start call => min (call.1 + 1) start)
              (turns.length - 1) = min (call.1 + 1) (turns.length - 1) := by
            rw [listed, List.foldl_append]
            exact foldl_min least
          have none : newer.isEmpty = false := by
            rw [listed]
            simp
          rw [carryoverStart_some found, walked, none, folded]
          rfl

end Cut

/-! ### What the cut costs -/

/-- What a turn's first prompt was assembled from: the whole buffer, or, for a checkpoint
flush, what no flush has seen. -/
inductive PromptScope where
  | whole
  | unflushed
  deriving DecidableEq, Repr

/-- The turns a prompt was assembled from, of those before it. -/
def promptTurns (sessionStart : Nat) (before : List TurnView) : PromptScope → List TurnView
  | .whole => before
  | .unflushed => before.dropWhile fun turn => turn.seq ≤ flushedUpTo before sessionStart

/-- The size of some turns, by the size of each. -/
def bufferSize (size : TurnView → Nat) (turns : List TurnView) : Nat := (turns.map size).sum

/-- Every reported prompt is one constant prefix and the turns it was assembled from. -/
def Priced (size : TurnView → Nat) (base sessionStart : Nat)
    (history : List (TurnView × PromptScope)) : Prop :=
  ∀ earlier turn scope later tokens, history = earlier ++ (turn, scope) :: later →
    turn.promptTokens = some tokens →
    tokens = base + bufferSize size (promptTurns sessionStart (earlier.map Prod.fst) scope)

/-- A turn's first call reported its prompt's size. -/
def Reported (turns : List TurnView) (index : Nat) : Prop :=
  ∃ turn tokens, turns[index]? = some turn ∧ turn.promptTokens = some tokens

/-- The last turn whose first call reported a size. -/
def LastReported (turns : List TurnView) (index : Nat) : Prop :=
  Reported turns index ∧ ∀ other, Reported turns other → other ≤ index

/-- The turns between two places. -/
def between (turns : List TurnView) (first last : Nat) : List TurnView :=
  (turns.take last).drop first

/-- The tail from a place is within the budget, the exchange after the last reported call
apart, unless it is the newest turn alone, and no longer tail cut just after a call is. -/
def HonoursBudget (size : TurnView → Nat) (turns : List TurnView) (last start budget : Nat) :
    Prop :=
  (start + 1 = turns.length ∨ bufferSize size (between turns start last) ≤ budget) ∧
    ∀ call, Reported turns call → call + 1 < start →
      budget < bufferSize size (between turns (call + 1) last)

section Cost

variable {size : TurnView → Nat} {base sessionStart last index start budget : Nat}
variable {turns : List TurnView} {history : List (TurnView × PromptScope)} {tokenBudget : Int}

theorem bufferSize_append (first second : List TurnView) :
    bufferSize size (first ++ second) = bufferSize size first + bufferSize size second := by
  simp [bufferSize]

theorem bufferSize_between (order : index ≤ last) :
    bufferSize size (between turns index last) =
      bufferSize size (turns.take last) - bufferSize size (turns.take index) := by
  have parts : turns.take index ++ between turns index last = turns.take last := by
    rw [between]
    conv_rhs => rw [← List.take_append_drop index (turns.take last)]
    rw [List.take_take, Nat.min_eq_left order]
  rw [← parts, bufferSize_append]
  exact (Nat.add_sub_cancel_left _ _).symm

theorem bufferSize_between_anti (order : index ≤ start) :
    bufferSize size (between turns start last) ≤ bufferSize size (between turns index last) := by
  have parts : between turns index last =
      (between turns index last).take (start - index) ++ between turns start last := by
    have later : between turns start last = (between turns index last).drop (start - index) := by
      rw [between, between, List.drop_drop, Nat.add_sub_cancel' order]
    rw [later, List.take_append_drop]
  rw [parts, bufferSize_append]
  exact Nat.le_add_left _ _

theorem Priced.whole (priced : Priced size base sessionStart history)
    (scopes : ∀ item ∈ history, item.1.promptTokens.isSome = true → item.2 = .whole)
    {turn : TurnView} {tokens : Nat} (place : (history.map Prod.fst)[index]? = some turn)
    (reported : turn.promptTokens = some tokens) :
    tokens = base + bufferSize size ((history.map Prod.fst).take index) := by
  rw [List.getElem?_map] at place
  obtain ⟨⟨view, scope⟩, found, rfl⟩ := Option.map_eq_some_iff.mp place
  obtain ⟨inside, here⟩ := List.getElem?_eq_some_iff.mp found
  have split : history = history.take index ++ (view, scope) :: history.drop (index + 1) := by
    conv_lhs => rw [← List.take_append_drop index history, List.drop_eq_getElem_cons inside, here]
  have whole : scope = .whole :=
    scopes (view, scope) (List.mem_of_getElem? found) (by rw [reported]; rfl)
  have sized := priced _ view scope _ tokens split reported
  rw [whole, promptTurns, List.map_take] at sized
  exact sized

theorem Priced.growth (priced : Priced size base sessionStart history)
    (scopes : ∀ item ∈ history, item.1.promptTokens.isSome = true → item.2 = .whole)
    {call lastCall : Nat × Nat} (member : call ∈ measuredCalls (history.map Prod.fst))
    (lastMember : lastCall ∈ measuredCalls (history.map Prod.fst)) (order : call.1 ≤ lastCall.1) :
    lastCall.2 - call.2 =
      bufferSize size (between (history.map Prod.fst) call.1 lastCall.1) := by
  obtain ⟨turn, place, reported⟩ := mem_measuredCalls.mp member
  obtain ⟨lastTurn, lastPlace, lastReported⟩ := mem_measuredCalls.mp lastMember
  rw [priced.whole scopes place reported, priced.whole scopes lastPlace lastReported,
    bufferSize_between order]
  omega

theorem reported_iff :
    Reported turns index ↔ ∃ tokens, (index, tokens) ∈ measuredCalls turns := by
  constructor
  · rintro ⟨turn, tokens, place, reported⟩
    exact ⟨tokens, mem_measuredCalls.mpr ⟨turn, place, reported⟩⟩
  · rintro ⟨tokens, member⟩
    obtain ⟨turn, place, reported⟩ := mem_measuredCalls.mp member
    exact ⟨turn, tokens, place, reported⟩

theorem LastReported.eq_getLast (isLast : LastReported turns last) {lastCall : Nat × Nat}
    (found : (measuredCalls turns).getLast? = some lastCall) : lastCall.1 = last := by
  have member := List.mem_of_getLast? found
  have upTo : lastCall.1 ≤ last := isLast.2 lastCall.1 (reported_iff.mpr ⟨lastCall.2, member⟩)
  obtain ⟨tokens, listed⟩ := reported_iff.mp isLast.1
  obtain ⟨earlier, split⟩ := List.getLast?_eq_some_iff.mp found
  rw [split] at listed
  rcases List.mem_append.mp listed with before | here
  · have sorted := @measuredCalls_sorted turns
    rw [split] at sorted
    have less := (List.pairwise_append.mp sorted).2.2 _ before _ List.mem_cons_self
    exact absurd less (Nat.not_lt_of_le upTo)
  · rw [← List.mem_singleton.mp here]

/-- With every call priced by what the buffer grew by from its own turn on, the cut is the
newest turn alone, or everything when every call is within the budget, or just after a call
within it; and no older call is within it. -/
structure Affords (size : TurnView → Nat) (turns : List TurnView) (last start budget : Nat) :
    Prop where
  tail : start + 1 = turns.length ∨
    (start = 0 ∧ ∀ call, Reported turns call →
      bufferSize size (between turns call last) ≤ budget) ∨
    ∃ call, Reported turns call ∧ start = call + 1 ∧
      bufferSize size (between turns call last) ≤ budget ∧
      bufferSize size (between turns start last) ≤ budget
  older : ∀ call, Reported turns call → call + 1 < start →
    budget < bufferSize size (between turns call last)

theorem affords_of_cut (priced : Priced size base sessionStart history)
    (scopes : ∀ item ∈ history, item.1.promptTokens.isSome = true → item.2 = .whole)
    (isLast : LastReported (history.map Prod.fst) last) :
    Affords size (history.map Prod.fst) last
      (carryoverStart (history.map Prod.fst) tokenBudget) (spendable tokenBudget) := by
  generalize held : history.map Prod.fst = turns at isLast ⊢
  have price : ∀ call lastCall, call ∈ measuredCalls turns →
      (measuredCalls turns).getLast? = some lastCall →
      lastCall.2 - call.2 = bufferSize size (between turns call.1 last) := by
    intro call lastCall member found
    have place := isLast.eq_getLast found
    have order := isLast.2 call.1 (reported_iff.mpr ⟨call.2, member⟩)
    subst held
    rw [← place] at order ⊢
    exact priced.growth scopes member (List.mem_of_getLast? found) order
  rcases @carryoverStart_cases turns tokenBudget with ⟨none, _⟩ | ⟨lastCall, found, cases'⟩
  · obtain ⟨tokens, member⟩ := reported_iff.mp isLast.1
    rw [none] at member
    cases member
  rcases cases' with ⟨all, start⟩ | ⟨older, past, call, newer, split, within, beyond, start⟩
  · rw [start]
    refine ⟨.inr (.inl ⟨rfl, fun call reported => ?_⟩), fun call _ impossible => ?_⟩
    · obtain ⟨tokens, member⟩ := reported_iff.mp reported
      rw [← price _ lastCall member found]
      exact all _ member
    · exact absurd impossible (Nat.not_lt_zero _)
  · have overMember : past ∈ measuredCalls turns := by
      rw [split]
      exact List.mem_append_right _ List.mem_cons_self
    have member : call ∈ measuredCalls turns := by
      rw [split]
      exact List.mem_append_right _ (List.mem_cons_of_mem _ List.mem_cons_self)
    have sorted := @measuredCalls_sorted turns
    rw [split] at sorted
    obtain ⟨_, laterPairs, across⟩ := List.pairwise_append.mp sorted
    constructor
    · rw [start]
      rcases Nat.le_total (call.1 + 1) (turns.length - 1) with inside | outside
      · have afford : bufferSize size (between turns call.1 last) ≤ spendable tokenBudget := by
          rw [← price call lastCall member found]
          exact within call List.mem_cons_self
        refine .inr (.inr ⟨call.1, reported_iff.mpr ⟨call.2, member⟩, Nat.min_eq_left inside,
          afford, ?_⟩)
        rw [Nat.min_eq_left inside]
        exact Nat.le_trans (bufferSize_between_anti (Nat.le_succ _)) afford
      · obtain ⟨turn, place, _⟩ := mem_measuredCalls.mp member
        obtain ⟨inBounds, _⟩ := List.getElem?_eq_some_iff.mp place
        rw [Nat.min_eq_right outside]
        exact .inl (by omega)
    · -- a call before the cut is the one over the budget, or before it and costs no less
      intro earlier reported before
      obtain ⟨tokens, listed⟩ := reported_iff.mp reported
      have upTo : earlier ≤ past.1 := by
        rw [split] at listed
        rcases List.mem_append.mp listed with first | rest
        · exact Nat.le_of_lt (across _ first _ List.mem_cons_self)
        · rcases List.mem_cons.mp rest with same | later
          · exact Nat.le_of_eq (congrArg Prod.fst same)
          · have pairs := (List.pairwise_cons.mp laterPairs).2
            have from_ : call.1 ≤ earlier := by
              rcases List.mem_cons.mp later with same | further
              · exact Nat.le_of_eq (congrArg Prod.fst same).symm
              · exact Nat.le_of_lt ((List.pairwise_cons.mp pairs).1 _ further)
            have cut : earlier + 1 < call.1 + 1 :=
              Nat.lt_of_lt_of_le before (start ▸ Nat.min_le_left _ _)
            omega
      have costs := price past lastCall overMember found
      refine Nat.lt_of_lt_of_le beyond ?_
      rw [costs]
      exact bufferSize_between_anti upTo

/-- Over prompts of the whole buffer, the carryover affords what it carries and carries what
it affords; with no call reported, it is the newest turn. -/
theorem carryoverStart_affords (priced : Priced size base sessionStart history)
    (scopes : ∀ item ∈ history, item.1.promptTokens.isSome = true → item.2 = .whole) :
    ((∀ call, ¬ Reported (history.map Prod.fst) call) →
        carryoverStart (history.map Prod.fst) tokenBudget = history.length - 1) ∧
      ∀ last, LastReported (history.map Prod.fst) last →
        Affords size (history.map Prod.fst) last
          (carryoverStart (history.map Prod.fst) tokenBudget) (spendable tokenBudget) := by
  refine ⟨fun none => ?_, fun last isLast => affords_of_cut priced scopes isLast⟩
  have empty : measuredCalls (history.map Prod.fst) = [] :=
    List.eq_nil_iff_forall_not_mem.mpr fun call member =>
      none call.1 (reported_iff.mpr ⟨call.2, member⟩)
  rw [carryoverStart_none empty, List.length_map]

end Cost

/-! ### One long question and its answer -/

namespace LongQuestion

def history : List (TurnView × PromptScope) :=
  [({ seq := 1, turnId := ⟨1⟩, role := .participant, text := "why", recordedAt := ⟨0⟩ }, .whole),
    ({ seq := 2, turnId := ⟨1⟩, role := .agent, text := "because", recordedAt := ⟨0⟩,
       promptTokens := some 150 }, .whole)]

/-- The question is long. -/
def size (turn : TurnView) : Nat := if turn.role = .participant then 100 else 5

theorem priced : Priced size 50 0 history := by
  intro earlier turn scope later tokens split reported
  rcases earlier with _ | ⟨first, _ | ⟨second, rest⟩⟩
  · obtain ⟨same, _⟩ := List.cons.inj split
    cases same
    cases reported
  · obtain ⟨rfl, next⟩ := List.cons.inj split
    obtain ⟨same, _⟩ := List.cons.inj next
    cases same
    cases reported
    rfl
  · simp [history] at split

theorem whole : ∀ item ∈ history, item.1.promptTokens.isSome = true → item.2 = .whole := by
  decide

theorem lastReported : LastReported (history.map Prod.fst) 1 := by
  refine ⟨⟨_, 150, rfl, rfl⟩, fun other reported => ?_⟩
  obtain ⟨turn, _, place, _⟩ := reported
  obtain ⟨inside, _⟩ := List.getElem?_eq_some_iff.mp place
  exact Nat.le_of_lt_succ inside

/-- The oldest call is affordable, so the question before it rides free. -/
theorem over_budget :
    Priced size 50 0 history ∧
      (∀ item ∈ history, item.1.promptTokens.isSome = true → item.2 = .whole) ∧
      LastReported (history.map Prod.fst) 1 ∧
      ¬ HonoursBudget size (history.map Prod.fst) 1
        (carryoverStart (history.map Prod.fst) 10) (spendable 10) := by
  refine ⟨priced, whole, lastReported, fun honours => ?_⟩
  exact absurd honours.1 (by decide)

theorem affords : Affords size (history.map Prod.fst) 1
    (carryoverStart (history.map Prod.fst) 10) (spendable 10) :=
  (carryoverStart_affords priced whole).2 1 lastReported

end LongQuestion

end Zuihitsu.Turn
