/-
# Recurrences

The next instance of a recurrence rule, as the scheduler computes it: day and week
steps are exact milliseconds, month and year steps are the date library's, and the
scan begins at an estimate of the index. The date library is a parameter, with what
its documentation promises of a calendar.
-/

import Mathlib.Algebra.Order.Ring.Int
import Mathlib.Tactic.Linarith
import Mathlib.Tactic.Ring
import Zuihitsu.Core.Temporal
import Zuihitsu.Core.Text

namespace Zuihitsu.Schedule

open Zuihitsu.Core

/-! ### Machine integers -/

/-- A value a signed 64-bit integer holds. -/
def FitsI64 (value : Int) : Prop := -2 ^ 63 ≤ value ∧ value < 2 ^ 63

instance (value : Int) : Decidable (FitsI64 value) := inferInstanceAs (Decidable (_ ∧ _))

/-- `checked_mul`. -/
def checkedMul (left right : Int) : Option Int :=
  if FitsI64 (left * right) then some (left * right) else none

/-- `checked_add`. -/
def checkedAdd (left right : Int) : Option Int :=
  if FitsI64 (left + right) then some (left + right) else none

/-- `checked_sub`. -/
def checkedSub (left right : Int) : Option Int :=
  if FitsI64 (left - right) then some (left - right) else none

/-- The bare product. On overflow a build with overflow checks stops, and one without them
wraps. -/
def mulI64 (overflowChecks : Bool) (left right : Int) : Option Int :=
  if FitsI64 (left * right) then some (left * right)
  else if overflowChecks then none
  else some (Int.bmod (left * right) (2 ^ 64))

/-! ### The calendar -/

/-- One week in milliseconds. -/
def millisPerWeek : Int := millisPerDay * 7

/-- What the date library provides: the instants it can represent, and the shift of an
instant by months and by years. -/
structure Calendar where
  represents : Timestamp → Bool
  addCalendar : Timestamp → (months years : Int) → Option Timestamp

namespace Calendar

/-- `Timestamp::try_from_millis`. -/
def tryFromMillis (calendar : Calendar) (millis : Int) : Option Timestamp :=
  if calendar.represents ⟨millis⟩ then some ⟨millis⟩ else none

/-- Shift an instant by milliseconds. -/
def addMillis (calendar : Calendar) (start : Timestamp) (delta : Int) : Option Timestamp :=
  (checkedAdd start.millis delta).bind calendar.tryFromMillis

/-- What the date library's documentation promises. The representable instants are an
interval of 64-bit milliseconds; a shift by nothing changes nothing; a month is at least 28
days and a year at least 365; and what can be reached by a longer shift can be reached by a
shorter one, no later. -/
structure Lawful (calendar : Calendar) : Prop where
  narrow : ∀ first last : Timestamp, calendar.represents first = true →
    calendar.represents last = true → FitsI64 (last.millis - first.millis)
  fits : ∀ instant : Timestamp, calendar.represents instant = true → FitsI64 instant.millis
  between : ∀ first middle last : Timestamp, calendar.represents first = true →
    calendar.represents last = true → first.millis ≤ middle.millis →
    middle.millis ≤ last.millis → calendar.represents middle = true
  zero : ∀ start : Timestamp, calendar.represents start = true →
    calendar.addCalendar start 0 0 = some start
  represented : ∀ start shifted : Timestamp, ∀ months years : Int,
    calendar.addCalendar start months years = some shifted → calendar.represents shifted = true
  months : ∀ start shifted : Timestamp, ∀ count : Int, 0 ≤ count →
    calendar.addCalendar start count 0 = some shifted →
    start.millis + count * (28 * millisPerDay) ≤ shifted.millis
  years : ∀ start shifted : Timestamp, ∀ count : Int, 0 ≤ count →
    calendar.addCalendar start 0 count = some shifted →
    start.millis + count * (365 * millisPerDay) ≤ shifted.millis
  fewerMonths : ∀ start later : Timestamp, ∀ fewer more : Int, 0 ≤ fewer → fewer ≤ more →
    calendar.addCalendar start more 0 = some later →
    ∃ sooner, calendar.addCalendar start fewer 0 = some sooner ∧ sooner.millis ≤ later.millis
  fewerYears : ∀ start later : Timestamp, ∀ fewer more : Int, 0 ≤ fewer → fewer ≤ more →
    calendar.addCalendar start 0 more = some later →
    ∃ sooner, calendar.addCalendar start 0 fewer = some sooner ∧ sooner.millis ≤ later.millis

end Calendar

/-! ### The next instance -/

/-- The instance at an index of a rule anchored at an instant. -/
def occurrence (calendar : Calendar) (freq : Freq) (interval : Nat) (dtstart : Timestamp)
    (index : Int) : Option Timestamp :=
  (checkedMul index interval).bind fun steps =>
    match freq with
    | .daily => (checkedMul steps millisPerDay).bind (calendar.addMillis dtstart)
    | .weekly => (checkedMul steps millisPerWeek).bind (calendar.addMillis dtstart)
    | .monthly => calendar.addCalendar dtstart steps 0
    | .yearly => calendar.addCalendar dtstart 0 steps

/-- The length the estimate takes a step to have, in milliseconds. -/
def stepMillis : Freq → Int
  | .daily => millisPerDay
  | .weekly => millisPerWeek
  | .monthly => 28 * millisPerDay
  | .yearly => 365 * millisPerDay

/-- The length the estimate takes an interval to have, as the machine computes it. -/
def stride (overflowChecks : Bool) (freq : Freq) (interval : Nat) : Option Int :=
  match freq with
  | .daily => mulI64 overflowChecks interval millisPerDay
  | .weekly => mulI64 overflowChecks interval millisPerWeek
  | .monthly => (mulI64 overflowChecks interval 28).bind fun days =>
      mulI64 overflowChecks days millisPerDay
  | .yearly => (mulI64 overflowChecks interval 365).bind fun days =>
      mulI64 overflowChecks days millisPerDay

/-- Division, which truncates and stops the thread at a zero divisor. -/
def divI64 (dividend divisor : Int) : Option Int :=
  if divisor = 0 then none else some (dividend.tdiv divisor)

/-- The index the scan begins at. -/
def scanStart (overflowChecks : Bool) (freq : Freq) (interval : Nat) (elapsed : Int) :
    Option Int :=
  (stride overflowChecks freq interval).bind fun stride =>
    (divI64 elapsed stride).map fun whole => max (whole + 1) 1

/-- The most instances a scan looks at. -/
def maxRecurrenceSteps : Nat := 12_000

/-- How many indices lie between the first and its saturated sum with the bound. -/
def scanLength (first : Int) : Nat := min maxRecurrenceSteps (2 ^ 63 - 1 - first).toNat

/-- Scan a number of instances from an index for the first past an instant. -/
def scan (instance' : Int → Option Timestamp) (after : Timestamp) :
    Int → Nat → Option Timestamp
  | _, 0 => none
  | index, steps + 1 =>
    (instance' index).bind fun candidate =>
      if after.millis < candidate.millis then some candidate
      else scan instance' after (index + 1) steps

/-- The first instance of a rule after an instant, where the rule is one this build can
interpret and such an instance can be represented. The outer `none` is a stopped thread. -/
def nextOccurrence (calendar : Calendar) (overflowChecks : Bool) (rule : String)
    (dtstart after : Timestamp) : Option (Option Timestamp) :=
  match parseRrule rule with
  | none => some none
  | some (freq, interval) =>
    if after.millis < dtstart.millis then
      some (occurrence calendar freq interval dtstart 0)
    else
      match checkedSub after.millis dtstart.millis with
      | none => some none
      | some elapsed =>
        (scanStart overflowChecks freq interval elapsed).map fun first =>
          scan (occurrence calendar freq interval dtstart) after first (scanLength first)

/-! ### The instances of a rule -/

section Instances

variable {calendar : Calendar} {overflowChecks : Bool} {freq : Freq} {interval : Nat}
variable {dtstart after now instant : Timestamp} {index : Int}

theorem checkedMul_eq_some {left right product : Int} :
    checkedMul left right = some product ↔ FitsI64 (left * right) ∧ left * right = product := by
  unfold checkedMul
  split <;> simp_all

theorem addMillis_eq_some {delta : Int} :
    calendar.addMillis dtstart delta = some instant ↔
      FitsI64 (dtstart.millis + delta) ∧ calendar.represents instant = true ∧
        instant.millis = dtstart.millis + delta := by
  unfold Calendar.addMillis checkedAdd Calendar.tryFromMillis
  split
  · rename_i fits
    simp only [Option.bind_some]
    split
    · rename_i represented
      simp only [Option.some.injEq]
      constructor
      · rintro rfl
        exact ⟨fits, represented, rfl⟩
      · rintro ⟨_, _, millis⟩
        cases instant
        exact congrArg Timestamp.mk millis.symm
    · rename_i unrepresented
      constructor
      · intro impossible
        cases impossible
      · rintro ⟨_, represented, millis⟩
        cases instant
        subst millis
        exact absurd represented unrepresented
  · rename_i overflow
    simp [overflow]

theorem stepMillis_pos (freq : Freq) : 0 < stepMillis freq := by
  cases freq <;> decide

theorem occurrence_uniform (uniform : freq = .daily ∨ freq = .weekly) :
    occurrence calendar freq interval dtstart index = some instant ↔
      FitsI64 (index * interval) ∧ FitsI64 (index * interval * stepMillis freq) ∧
        FitsI64 (dtstart.millis + index * interval * stepMillis freq) ∧
        calendar.represents instant = true ∧
        instant.millis = dtstart.millis + index * interval * stepMillis freq := by
  unfold occurrence
  rcases uniform with rfl | rfl <;>
    simp only [Option.bind_eq_some_iff, checkedMul_eq_some, addMillis_eq_some, stepMillis] <;> grind

theorem occurrence_monthly :
    occurrence calendar .monthly interval dtstart index = some instant ↔
      FitsI64 (index * interval) ∧
        calendar.addCalendar dtstart (index * interval) 0 = some instant := by
  unfold occurrence
  simp only [Option.bind_eq_some_iff, checkedMul_eq_some]
  grind

theorem occurrence_yearly :
    occurrence calendar .yearly interval dtstart index = some instant ↔
      FitsI64 (index * interval) ∧
        calendar.addCalendar dtstart 0 (index * interval) = some instant := by
  unfold occurrence
  simp only [Option.bind_eq_some_iff, checkedMul_eq_some]
  grind

theorem occurrence_represents (laws : calendar.Lawful)
    (arises : occurrence calendar freq interval dtstart index = some instant) :
    calendar.represents instant = true := by
  cases freq with
  | daily => exact ((occurrence_uniform (.inl rfl)).mp arises).2.2.2.1
  | weekly => exact ((occurrence_uniform (.inr rfl)).mp arises).2.2.2.1
  | monthly => exact laws.represented _ _ _ _ (occurrence_monthly.mp arises).2
  | yearly => exact laws.represented _ _ _ _ (occurrence_yearly.mp arises).2

theorem occurrence_spaced (laws : calendar.Lawful) (counted : 0 ≤ index)
    (arises : occurrence calendar freq interval dtstart index = some instant) :
    dtstart.millis + index * (interval * stepMillis freq) ≤ instant.millis := by
  have steps : 0 ≤ index * (interval : Int) := Int.mul_nonneg counted (Int.natCast_nonneg _)
  rw [← Int.mul_assoc]
  cases freq with
  | daily => exact ((occurrence_uniform (.inl rfl)).mp arises).2.2.2.2.ge
  | weekly => exact ((occurrence_uniform (.inr rfl)).mp arises).2.2.2.2.ge
  | monthly => exact laws.months _ _ _ steps (occurrence_monthly.mp arises).2
  | yearly => exact laws.years _ _ _ steps (occurrence_yearly.mp arises).2

theorem FitsI64.of_le {small large : Int} (fits : FitsI64 large) (positive : 0 ≤ small)
    (le : small ≤ large) : FitsI64 small := by
  unfold FitsI64 at fits ⊢
  omega

theorem occurrence_sooner (laws : calendar.Lawful) (anchored : calendar.represents dtstart = true)
    {earlier : Int} (counted : 0 ≤ earlier) (le : earlier ≤ index)
    (arises : occurrence calendar freq interval dtstart index = some instant) :
    ∃ sooner, occurrence calendar freq interval dtstart earlier = some sooner ∧
      sooner.millis ≤ instant.millis := by
  have steps : 0 ≤ earlier * (interval : Int) := Int.mul_nonneg counted (Int.natCast_nonneg _)
  have fewer : earlier * (interval : Int) ≤ index * interval :=
    Int.mul_le_mul_of_nonneg_right le (Int.natCast_nonneg _)
  have uniformly : freq = .daily ∨ freq = .weekly →
      ∃ sooner, occurrence calendar freq interval dtstart earlier = some sooner ∧
        sooner.millis ≤ instant.millis := by
    intro uniform
    have positive : 0 < stepMillis freq := stepMillis_pos freq
    have ⟨fits, product, _, represented, millis⟩ := (occurrence_uniform uniform).mp arises
    have shorter : earlier * interval * stepMillis freq ≤ index * interval * stepMillis freq :=
      Int.mul_le_mul_of_nonneg_right fewer positive.le
    have forward : 0 ≤ earlier * interval * stepMillis freq := Int.mul_nonneg steps positive.le
    have within : calendar.represents
        ⟨dtstart.millis + earlier * interval * stepMillis freq⟩ = true :=
      laws.between dtstart _ instant anchored represented (by simp only; omega)
        (by simp only; omega)
    refine ⟨⟨dtstart.millis + earlier * interval * stepMillis freq⟩,
      (occurrence_uniform uniform).mpr ⟨fits.of_le steps fewer, product.of_le forward shorter,
        laws.fits _ within, within, rfl⟩, ?_⟩
    simp only
    omega
  cases freq with
  | daily => exact uniformly (.inl rfl)
  | weekly => exact uniformly (.inr rfl)
  | monthly =>
    have ⟨fits, shifted⟩ := occurrence_monthly.mp arises
    have ⟨sooner, reached, le⟩ := laws.fewerMonths _ _ _ _ steps fewer shifted
    exact ⟨sooner, occurrence_monthly.mpr ⟨fits.of_le steps fewer, reached⟩, le⟩
  | yearly =>
    have ⟨fits, shifted⟩ := occurrence_yearly.mp arises
    have ⟨sooner, reached, le⟩ := laws.fewerYears _ _ _ _ steps fewer shifted
    exact ⟨sooner, occurrence_yearly.mpr ⟨fits.of_le steps fewer, reached⟩, le⟩

theorem occurrence_zero (laws : calendar.Lawful) (anchored : calendar.represents dtstart = true) :
    occurrence calendar freq interval dtstart 0 = some dtstart := by
  have nothing : FitsI64 0 := by decide
  have anchor := laws.fits _ anchored
  cases freq with
  | daily => exact (occurrence_uniform (.inl rfl)).mpr (by simp [nothing, anchor, anchored])
  | weekly => exact (occurrence_uniform (.inr rfl)).mpr (by simp [nothing, anchor, anchored])
  | monthly => exact occurrence_monthly.mpr (by simp [nothing, laws.zero _ anchored])
  | yearly => exact occurrence_yearly.mpr (by simp [nothing, laws.zero _ anchored])

/-! ### The scan finds an instance past its estimate -/

/-- A rule's instance at an index has come due: it lies after one instant and not after
another. -/
def ComesDue (calendar : Calendar) (freq : Freq) (interval : Nat) (dtstart after now : Timestamp)
    (index : Nat) : Prop :=
  ∃ instant, occurrence calendar freq interval dtstart index = some instant ∧
    after.millis < instant.millis ∧ instant.millis ≤ now.millis

/-- The steps of the estimated length that have passed by an instant. -/
def estimate (freq : Freq) (interval : Nat) (dtstart after : Timestamp) : Int :=
  (after.millis - dtstart.millis) / (interval * stepMillis freq)

theorem mulI64_cases {left right product : Int}
    (computed : mulI64 overflowChecks left right = some product) :
    (FitsI64 (left * right) ∧ product = left * right) ∨ ¬ FitsI64 (left * right) := by
  unfold mulI64 at computed
  split at computed
  · rename_i fits
    exact .inl ⟨fits, (Option.some.inj computed).symm⟩
  · rename_i overflow
    exact .inr overflow

theorem mulI64_of_fits {left right : Int} (fits : FitsI64 (left * right)) :
    mulI64 overflowChecks left right = some (left * right) := if_pos fits

theorem stride_cases {machine : Int} (computed : stride overflowChecks freq interval = some machine) :
    machine = interval * stepMillis freq ∨ 2 ^ 63 ≤ (interval : Int) * stepMillis freq := by
  have direct : ∀ length : Int, 0 ≤ length → mulI64 overflowChecks interval length = some machine →
      machine = interval * length ∨ 2 ^ 63 ≤ (interval : Int) * length := by
    intro length positive computed
    have natural : 0 ≤ (interval : Int) * length := Int.mul_nonneg (Int.natCast_nonneg _) positive
    rcases mulI64_cases computed with ⟨_, exact'⟩ | overflow
    · exact .inl exact'
    · unfold FitsI64 at overflow
      omega
  have inDays : ∀ days : Int, 0 < days →
      ((mulI64 overflowChecks interval days).bind fun all =>
        mulI64 overflowChecks all millisPerDay) = some machine →
      machine = interval * (days * millisPerDay) ∨
        2 ^ 63 ≤ (interval : Int) * (days * millisPerDay) := by
    intro days positive computed
    have natural : 0 ≤ (interval : Int) * days := Int.mul_nonneg (Int.natCast_nonneg _) positive.le
    have day : millisPerDay = 86400000 := by decide
    rw [← Int.mul_assoc]
    rw [day] at computed ⊢
    obtain ⟨all, first, second⟩ := Option.bind_eq_some_iff.mp computed
    rcases mulI64_cases first with ⟨_, exact'⟩ | overflow
    · rcases mulI64_cases second with ⟨_, product⟩ | overflow
      · exact .inl (exact' ▸ product)
      · subst exact'
        unfold FitsI64 at overflow
        omega
    · unfold FitsI64 at overflow
      omega
  cases freq with
  | daily | weekly => exact direct _ (by decide) computed
  | monthly => exact inDays 28 (by decide) computed
  | yearly => exact inDays 365 (by decide) computed

theorem no_instance_of_overflow (laws : calendar.Lawful)
    (anchored : calendar.represents dtstart = true)
    (overflow : 2 ^ 63 ≤ (interval : Int) * stepMillis freq) (later : 1 ≤ index) :
    occurrence calendar freq interval dtstart index = none := by
  cases arises : occurrence calendar freq interval dtstart index with
  | none => rfl
  | some =>
    have spaced := occurrence_spaced laws (by omega) arises
    have narrow := (laws.narrow _ _ anchored (occurrence_represents laws arises)).2
    have far : (interval : Int) * stepMillis freq ≤ index * (interval * stepMillis freq) :=
      le_mul_of_one_le_left (by omega) later
    omega

theorem past_of_estimate (dtstart after : Timestamp) (positive : 1 ≤ interval) :
    after.millis <
      dtstart.millis + (estimate freq interval dtstart after + 1) * (interval * stepMillis freq) := by
  have day : 0 < stepMillis freq := stepMillis_pos freq
  have length : 0 < (interval : Int) * stepMillis freq := Int.mul_pos (by omega) day
  have past := Int.lt_ediv_add_one_mul_self (after.millis - dtstart.millis) length
  unfold estimate
  omega

theorem scanStart_positive {elapsed machine : Int}
    (computed : stride overflowChecks freq interval = some machine) (nonzero : machine ≠ 0) :
    ∃ start, scanStart overflowChecks freq interval elapsed = some start ∧ 1 ≤ start := by
  refine ⟨max (elapsed.tdiv machine + 1) 1, ?_, le_max_right _ _⟩
  rw [scanStart, computed, Option.bind_some, divI64, if_neg nonzero, Option.map_some]

theorem scan_of_none {instance' : Int → Option Timestamp} (nothing : instance' index = none)
    (steps : Nat) : scan instance' after index steps = none := by
  cases steps with
  | zero => rfl
  | succ => rw [scan, nothing, Option.bind_none]

theorem scan_first {instance' : Int → Option Timestamp} {steps : Nat} (some' : 0 < steps)
    (past : ∀ candidate, instance' index = some candidate → after.millis < candidate.millis) :
    scan instance' after index steps = instance' index := by
  obtain ⟨fewer, rfl⟩ := Nat.exists_eq_succ_of_ne_zero some'.ne'
  rw [scan]
  cases first : instance' index with
  | none => rfl
  | some candidate => simp [past candidate first]

theorem scan_of_stride (laws : calendar.Lawful) (anchored : calendar.represents dtstart = true)
    (reading : calendar.represents after = true) (begun : dtstart.millis ≤ after.millis)
    (positive : 1 ≤ interval)
    (computed : stride overflowChecks freq interval = some (interval * stepMillis freq)) :
    (scanStart overflowChecks freq interval (after.millis - dtstart.millis)).map (fun first =>
        scan (occurrence calendar freq interval dtstart) after first (scanLength first)) =
      some (occurrence calendar freq interval dtstart (estimate freq interval dtstart after + 1)) := by
  have day : 86400000 ≤ stepMillis freq := by cases freq <;> decide
  have length : 86400000 ≤ (interval : Int) * stepMillis freq := by nlinarith
  have elapsed : 0 ≤ after.millis - dtstart.millis := by omega
  have narrow := (laws.narrow _ _ anchored reading).2
  have counted : 0 ≤ estimate freq interval dtstart after := Int.ediv_nonneg elapsed (by omega)
  have small : estimate freq interval dtstart after < 2 ^ 62 :=
    Int.ediv_lt_of_lt_mul (by omega) (by omega)
  have first : scanStart overflowChecks freq interval (after.millis - dtstart.millis) =
      some (estimate freq interval dtstart after + 1) := by
    unfold scanStart
    rw [computed, Option.bind_some, divI64, if_neg (by omega), Option.map_some,
      Int.tdiv_eq_ediv_of_nonneg elapsed]
    exact congrArg some (max_eq_left (by change 1 ≤ estimate freq interval dtstart after + 1; omega))
  rw [first, Option.map_some, Option.some.injEq]
  refine scan_first ?_ ?_
  · unfold scanLength maxRecurrenceSteps
    omega
  · intro candidate arises
    have spaced := occurrence_spaced laws (by omega) arises
    have past := @past_of_estimate freq _ dtstart after positive
    omega

theorem parsePositive_positive {text : List Char} {value : Nat}
    (parsed : parsePositive text = some value) : 1 ≤ value := by
  have bounds := (Option.filter_eq_some_iff.mp parsed).2
  rw [Bool.and_eq_true, decide_eq_true_eq] at bounds
  exact bounds.1

theorem parseRulePart_positive {read next : Option Freq × Nat} {text : List Char}
    (parsed : parseRulePart read text = some next) (positive : 1 ≤ read.2) : 1 ≤ next.2 := by
  unfold parseRulePart at parsed
  simp only at parsed
  split at parsed
  · cases parsed
    exact positive
  · obtain ⟨pair, _, entry⟩ := Option.bind_eq_some_iff.mp parsed
    split at entry
    · -- a frequency keeps the interval
      repeat' split at entry
      all_goals
        cases entry
        try exact positive
    · split at entry
      · obtain ⟨value, valued, same⟩ := Option.map_eq_some_iff.mp entry
        cases same
        exact parsePositive_positive valued
      · cases entry
        exact positive

theorem past_of_comesDue (uniform : freq = .daily ∨ freq = .weekly) (positive : 1 ≤ interval)
    {index : Nat} (due : ComesDue calendar freq interval dtstart after now index) :
    estimate freq interval dtstart after < index := by
  obtain ⟨instant, arises, past, _⟩ := due
  have millis := ((occurrence_uniform uniform).mp arises).2.2.2.2
  have length : 0 < (interval : Int) * stepMillis freq :=
    Int.mul_pos (by omega) (stepMillis_pos freq)
  rw [Int.mul_assoc] at millis
  exact Int.ediv_lt_of_lt_mul length (by omega)

theorem interval_positive {rule : String} (parsed : parseRrule rule = some (freq, interval)) :
    1 ≤ interval := by
  have parts : ∀ (texts : List (List Char)) read next,
      texts.foldlM parseRulePart read = some next → 1 ≤ read.2 → 1 ≤ next.2 := by
    intro texts
    induction texts with
    | nil =>
      intro read next done positive
      cases done
      exact positive
    | cons text rest ih =>
      intro read next parsed positive
      rw [List.foldlM_cons] at parsed
      obtain ⟨middle, first, later⟩ := Option.bind_eq_some_iff.mp parsed
      exact ih middle next later (parseRulePart_positive first positive)
  obtain ⟨read, folded, found⟩ := Option.bind_eq_some_iff.mp parsed
  obtain ⟨_, _, same⟩ := Option.map_eq_some_iff.mp found
  cases same
  exact parts _ _ _ folded (le_refl 1)

theorem nextOccurrence_due {rule : String} (parsed : parseRrule rule = some (freq, interval))
    (positive : 1 ≤ interval) (laws : calendar.Lawful)
    (anchored : calendar.represents dtstart = true) (reading : calendar.represents after = true)
    (divides : dtstart.millis ≤ after.millis →
      ∃ machine, stride overflowChecks freq interval = some machine ∧ machine ≠ 0) :
    ∃ next, nextOccurrence calendar overflowChecks rule dtstart after = some next ∧
      ((∃ instant, next = some instant ∧ instant.millis ≤ now.millis) ↔
        ∃ index, ComesDue calendar freq interval dtstart after now index ∧
          (dtstart.millis ≤ after.millis → estimate freq interval dtstart after < index)) := by
  unfold nextOccurrence
  rw [parsed]
  by_cases before : after.millis < dtstart.millis
  · -- the anchor itself is still ahead
    simp only [before, ↓reduceIte]
    refine ⟨_, rfl, ?_⟩
    rw [occurrence_zero laws anchored]
    constructor
    · rintro ⟨instant, same, le⟩
      cases same
      exact ⟨0, ⟨dtstart, occurrence_zero laws anchored, before, le⟩, fun begun => by omega⟩
    · rintro ⟨index, ⟨instant, arises, _, le⟩, _⟩
      have ⟨sooner, anchor, earlier⟩ := occurrence_sooner laws anchored (le_refl 0)
        (Int.natCast_nonneg index) arises
      rw [occurrence_zero laws anchored] at anchor
      cases anchor
      exact ⟨dtstart, rfl, by omega⟩
  · simp only [before, ↓reduceIte]
    have begun : dtstart.millis ≤ after.millis := by omega
    have elapsed : checkedSub after.millis dtstart.millis = some (after.millis - dtstart.millis) :=
      if_pos (laws.narrow _ _ anchored reading)
    obtain ⟨machine, computed, nonzero⟩ := divides begun
    rw [elapsed]
    rcases stride_cases computed with rfl | overflow
    · refine ⟨_, scan_of_stride laws anchored reading begun positive computed, ?_⟩
      have counted : 0 ≤ estimate freq interval dtstart after :=
        Int.ediv_nonneg (by omega)
          (Int.mul_nonneg (Int.natCast_nonneg _) (stepMillis_pos freq).le)
      constructor
      · rintro ⟨instant, arises, le⟩
        have spaced := occurrence_spaced laws (by omega) arises
        refine ⟨(estimate freq interval dtstart after + 1).toNat, ⟨instant, ?_, ?_, le⟩, ?_⟩
        · rw [Int.toNat_of_nonneg (by omega)]
          exact arises
        · have past := @past_of_estimate freq _ dtstart after positive
          omega
        · intro _
          omega
      · rintro ⟨index, ⟨instant, arises, _, le⟩, past⟩
        have ⟨sooner, found, earlier⟩ := @occurrence_sooner _ _ _ _ _ _ laws anchored
          (estimate freq interval dtstart after + 1) (by omega) (past begun) arises
        exact ⟨sooner, found, by omega⟩
    · -- the machine wrapped: nothing past the anchor can be represented
      have first := @scanStart_positive _ _ _ (after.millis - dtstart.millis) _ computed nonzero
      obtain ⟨start, starts, later⟩ := first
      refine ⟨none, ?_, ?_⟩
      · simp only [starts, Option.map_some, Option.some.injEq]
        exact scan_of_none (no_instance_of_overflow laws anchored overflow later) (scanLength start)
      · constructor
        · rintro ⟨_, impossible, _⟩
          cases impossible
        · rintro ⟨index, ⟨instant, arises, after', _⟩, _⟩
          cases index with
          | zero =>
            rw [show ((0 : Nat) : Int) = 0 from rfl, occurrence_zero laws anchored] at arises
            cases arises
            omega
          | succ =>
            rw [no_instance_of_overflow laws anchored overflow (by omega)] at arises
            cases arises

end Instances

end Zuihitsu.Schedule
