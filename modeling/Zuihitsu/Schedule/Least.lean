/-
# The next instance, and the instances it passes over

The next instance ought to be the least one past an instant. Where the days of a rule are
counted out the estimate of its index is exact. Months and years are longer than the estimate
takes them to be, so that the scan may begin past an instance that is still ahead.
-/

import Zuihitsu.Library.Gregorian
import Zuihitsu.Schedule.Recurrence

namespace Zuihitsu.Schedule

open Zuihitsu.Core Zuihitsu.Library

/-- The calendar moves on: a longer shift by months, or by years, leads later. -/
structure Calendar.Increasing (calendar : Calendar) : Prop where
  months : ∀ start sooner later : Timestamp, ∀ fewer more : Int, 0 ≤ fewer → fewer < more →
    calendar.addCalendar start fewer 0 = some sooner →
    calendar.addCalendar start more 0 = some later → sooner.millis < later.millis
  years : ∀ start sooner later : Timestamp, ∀ fewer more : Int, 0 ≤ fewer → fewer < more →
    calendar.addCalendar start 0 fewer = some sooner →
    calendar.addCalendar start 0 more = some later → sooner.millis < later.millis

/-- An answer is the least instance of a rule past an instant; and none is one where no
instance that can be represented, within the bound on the steps of the scan, is past it. -/
def LeastPast (calendar : Calendar) (freq : Freq) (interval : Nat) (dtstart after : Timestamp) :
    Option Timestamp → Prop
  | some next =>
    (∃ index : Nat, occurrence calendar freq interval dtstart index = some next) ∧
      after.millis < next.millis ∧
      ∀ (index : Nat) (instant : Timestamp),
        occurrence calendar freq interval dtstart index = some instant →
        ¬ (after.millis < instant.millis ∧ instant.millis < next.millis)
  | none =>
    ∀ (index : Nat) (instant : Timestamp),
      (index : Int) ≤ estimate freq interval dtstart after + maxRecurrenceSteps →
      occurrence calendar freq interval dtstart index = some instant → instant.millis ≤ after.millis

/-- No instance the estimate counts as passed is still ahead. -/
def Passed (calendar : Calendar) (freq : Freq) (interval : Nat) (dtstart after : Timestamp) : Prop :=
  ∀ (index : Nat) (instant : Timestamp), (index : Int) ≤ estimate freq interval dtstart after →
    occurrence calendar freq interval dtstart index = some instant → instant.millis ≤ after.millis

section Least

variable {calendar : Calendar} {overflowChecks : Bool} {freq : Freq} {interval : Nat}
variable {dtstart after instant : Timestamp} {rule : String}

theorem passed_of_uniform (uniform : freq = .daily ∨ freq = .weekly) (positive : 1 ≤ interval) :
    Passed calendar freq interval dtstart after := by
  intro index instant counted arises
  by_contra ahead
  have beyond := past_of_comesDue uniform positive
    (⟨instant, arises, by omega, le_refl _⟩ :
      ComesDue calendar freq interval dtstart after instant index)
  omega

theorem occurrence_lt (moves : calendar.Increasing) (positive : 1 ≤ interval)
    {fewer more : Int} {sooner later : Timestamp} (counted : 0 ≤ fewer) (less : fewer < more)
    (first : occurrence calendar freq interval dtstart fewer = some sooner)
    (second : occurrence calendar freq interval dtstart more = some later) :
    sooner.millis < later.millis := by
  have steps : 0 ≤ fewer * (interval : Int) := Int.mul_nonneg counted (Int.natCast_nonneg _)
  have onward : fewer * (interval : Int) < more * interval :=
    Int.mul_lt_mul_of_pos_right less (by omega)
  have uniformly : freq = .daily ∨ freq = .weekly → sooner.millis < later.millis := by
    intro uniform
    have one := ((occurrence_uniform uniform).mp first).2.2.2.2
    have two := ((occurrence_uniform uniform).mp second).2.2.2.2
    have apart := Int.mul_lt_mul_of_pos_right onward (stepMillis_pos freq)
    omega
  cases freq with
  | daily => exact uniformly (.inl rfl)
  | weekly => exact uniformly (.inr rfl)
  | monthly =>
    exact moves.months _ _ _ _ _ steps onward (occurrence_monthly.mp first).2
      (occurrence_monthly.mp second).2
  | yearly =>
    exact moves.years _ _ _ _ _ steps onward (occurrence_yearly.mp first).2
      (occurrence_yearly.mp second).2

theorem stride_of_fits (inRange : FitsI64 (interval * stepMillis freq)) :
    stride overflowChecks freq interval = some (interval * stepMillis freq) := by
  have inDays : ∀ days : Int, 0 < days → FitsI64 (interval * (days * millisPerDay)) →
      ((mulI64 overflowChecks interval days).bind fun all =>
        mulI64 overflowChecks all millisPerDay) = some (interval * (days * millisPerDay)) := by
    intro days positive fits
    have natural : 0 ≤ (interval : Int) * days := Int.mul_nonneg (Int.natCast_nonneg _) positive.le
    rw [← Int.mul_assoc] at fits ⊢
    have fewer : FitsI64 (interval * days) :=
      fits.of_le natural (le_mul_of_one_le_right natural (by decide))
    rw [mulI64_of_fits fewer, Option.bind_some, mulI64_of_fits fits]
  cases freq with
  | daily | weekly => exact mulI64_of_fits inRange
  | monthly => exact inDays 28 (by decide) inRange
  | yearly => exact inDays 365 (by decide) inRange

theorem leastPast_anchor (laws : calendar.Lawful) (anchored : calendar.represents dtstart = true)
    (ahead : after.millis < dtstart.millis) :
    LeastPast calendar freq interval dtstart after (some dtstart) := by
  refine ⟨⟨0, occurrence_zero laws anchored⟩, ahead, ?_⟩
  rintro index instant arises ⟨_, sooner⟩
  obtain ⟨first, anchor, le⟩ :=
    occurrence_sooner laws anchored (le_refl 0) (Int.natCast_nonneg index) arises
  rw [occurrence_zero laws anchored] at anchor
  cases anchor
  omega

theorem leastPast_estimate (laws : calendar.Lawful) (moves : calendar.Increasing)
    (anchored : calendar.represents dtstart = true) (positive : 1 ≤ interval)
    (begun : dtstart.millis ≤ after.millis) :
    LeastPast calendar freq interval dtstart after
        (occurrence calendar freq interval dtstart (estimate freq interval dtstart after + 1)) ↔
      Passed calendar freq interval dtstart after := by
  have counted : 0 ≤ estimate freq interval dtstart after :=
    Int.ediv_nonneg (by omega) (Int.mul_nonneg (Int.natCast_nonneg _) (stepMillis_pos freq).le)
  -- an instance past those counted comes no sooner than the one the scan stops at
  have onward : ∀ (index : Nat) (instant : Timestamp),
      estimate freq interval dtstart after < index →
      occurrence calendar freq interval dtstart index = some instant →
      ∃ next, occurrence calendar freq interval dtstart (estimate freq interval dtstart after + 1) =
        some next ∧ next.millis ≤ instant.millis :=
    fun index instant beyond arises =>
      occurrence_sooner laws anchored (by omega) (by omega) arises
  cases stopped : occurrence calendar freq interval dtstart
      (estimate freq interval dtstart after + 1) with
  | none =>
    constructor
    · intro least index instant few arises
      exact least index instant (by omega) arises
    · intro passed index instant _ arises
      by_cases few : (index : Int) ≤ estimate freq interval dtstart after
      · exact passed index instant few arises
      · obtain ⟨next, found, _⟩ := onward index instant (by omega) arises
        rw [stopped] at found
        cases found
  | some next =>
    constructor
    · rintro ⟨_, _, least⟩ index instant few arises
      by_contra ahead
      have later := occurrence_lt moves positive (Int.natCast_nonneg index) (by omega) arises stopped
      exact least index instant arises ⟨by omega, later⟩
    · intro passed
      have spaced := occurrence_spaced laws (by omega) stopped
      have past := @past_of_estimate freq _ dtstart after positive
      refine ⟨⟨(estimate freq interval dtstart after + 1).toNat, ?_⟩, by omega, ?_⟩
      · rw [Int.toNat_of_nonneg (by omega)]
        exact stopped
      · rintro index instant arises ⟨ahead, sooner⟩
        by_cases few : (index : Int) ≤ estimate freq interval dtstart after
        · have gone := passed index instant few arises
          omega
        · obtain ⟨other, found, le⟩ := onward index instant (by omega) arises
          rw [stopped] at found
          cases found
          omega

end Least

/-- The next instance is the least past an instant exactly where the days of the rule are
counted out, the anchor is still ahead, or no instance counted as passed is still ahead. -/
theorem nextOccurrence_least_iff (calendar : Calendar) (laws : calendar.Lawful)
    (moves : calendar.Increasing) (overflowChecks : Bool) (rule : String) (freq : Freq)
    (interval : Nat) (parsed : parseRrule rule = some (freq, interval))
    (inRange : FitsI64 (interval * stepMillis freq)) (dtstart after : Timestamp)
    (anchored : calendar.represents dtstart = true) (reading : calendar.represents after = true) :
    (∃ next, nextOccurrence calendar overflowChecks rule dtstart after = some next ∧
        LeastPast calendar freq interval dtstart after next) ↔
      freq = .daily ∨ freq = .weekly ∨ after.millis < dtstart.millis ∨
        Passed calendar freq interval dtstart after := by
  have positive := interval_positive parsed
  unfold nextOccurrence
  rw [parsed]
  by_cases ahead : after.millis < dtstart.millis
  · simp only [ahead, ↓reduceIte, true_or, or_true, iff_true]
    rw [occurrence_zero laws anchored]
    exact ⟨_, rfl, leastPast_anchor laws anchored ahead⟩
  · have begun : dtstart.millis ≤ after.millis := by omega
    have elapsed : checkedSub after.millis dtstart.millis = some (after.millis - dtstart.millis) :=
      if_pos (laws.narrow _ _ anchored reading)
    simp only [ahead, ↓reduceIte, elapsed, false_or]
    rw [scan_of_stride laws anchored reading begun positive (stride_of_fits inRange)]
    simp only [Option.some.injEq, exists_eq_left', leastPast_estimate laws moves anchored positive
      begun]
    constructor
    · exact fun passed => .inr (.inr passed)
    · rintro (rfl | rfl | passed)
      · exact passed_of_uniform (.inl rfl) positive
      · exact passed_of_uniform (.inr rfl) positive
      · exact passed

/-! ### The Gregorian calendar -/

/-- Days from the first of March of year zero to the Unix epoch. -/
def epochDay : Int := 719_468

/-- Whether an instant lies in the range of the date library. -/
def inRange (instant : Timestamp) : Bool :=
  -377705023201000 ≤ instant.millis && instant.millis ≤ 253402207200999

/-- The instant a number of months after an instant, in milliseconds. -/
def shifted (start : Timestamp) (count : Int) : Int :=
  (Gregorian.addMonths (start.millis / millisPerDay + epochDay) count - epochDay) * millisPerDay +
    start.millis % millisPerDay

/-- The calendar of the date library: the Gregorian one in UTC, for the instants and the
shifts of the library's ranges. -/
def gregorian : Calendar where
  represents := inRange
  addCalendar start months years :=
    if inRange start ∧ |months| ≤ 239976 ∧ |years| ≤ 19998 ∧
        inRange ⟨shifted start (months + 12 * years)⟩ then
      some ⟨shifted start (months + 12 * years)⟩
    else none

namespace gregorian

variable {start instant : Timestamp} {months years fewer more count : Int}

theorem represents_iff : gregorian.represents instant = true ↔
    -377705023201000 ≤ instant.millis ∧ instant.millis ≤ 253402207200999 := by
  simp [gregorian, inRange]

theorem addCalendar_eq_some : gregorian.addCalendar start months years = some instant ↔
    gregorian.represents start = true ∧ (|months| ≤ 239976 ∧ |years| ≤ 19998) ∧
      gregorian.represents instant = true ∧ instant.millis = shifted start (months + 12 * years) := by
  unfold gregorian
  cases instant
  grind

theorem shifted_zero : shifted start 0 = start.millis := by
  unfold shifted millisPerDay millisPerHour
  rw [Gregorian.addMonths_zero]
  omega

theorem shifted_lt (less : fewer < more) : shifted start fewer < shifted start more := by
  have days := @Gregorian.addMonths_lt (start.millis / millisPerDay + epochDay) _ _ less
  unfold shifted millisPerDay millisPerHour at *
  omega

theorem shifted_le (le : fewer ≤ more) : shifted start fewer ≤ shifted start more := by
  rcases le.eq_or_lt with rfl | less
  · exact le_refl _
  · exact (shifted_lt less).le

theorem shifted_months (counted : 0 ≤ count) :
    start.millis + count * (28 * millisPerDay) ≤ shifted start count := by
  have days := @Gregorian.addMonths_ge (start.millis / millisPerDay + epochDay) _ counted
  unfold shifted millisPerDay millisPerHour at *
  omega

theorem shifted_years (counted : 0 ≤ count) :
    start.millis + count * (365 * millisPerDay) ≤ shifted start (12 * count) := by
  have days := @Gregorian.addMonths_years (start.millis / millisPerDay + epochDay) _ counted
  unfold shifted millisPerDay millisPerHour at *
  omega

theorem shorter (later : Timestamp) (counted : 0 ≤ fewer) (le : fewer ≤ more)
    (anchored : gregorian.represents start = true) (reached : gregorian.represents later = true)
    (leads : later.millis = shifted start more) :
    gregorian.represents ⟨shifted start fewer⟩ = true ∧ shifted start fewer ≤ later.millis := by
  have onward := @shifted_le start _ _ counted
  have earlier := @shifted_le start _ _ le
  rw [shifted_zero] at onward
  rw [represents_iff] at anchored reached ⊢
  exact ⟨⟨by simp only; omega, by simp only; omega⟩, by omega⟩

theorem lawful : gregorian.Lawful where
  narrow first last one other := by
    rw [represents_iff] at one other
    unfold FitsI64
    omega
  fits instant reading := by
    rw [represents_iff] at reading
    unfold FitsI64
    omega
  between first middle last one other le le' := by
    rw [represents_iff] at *
    omega
  zero start anchored := by
    refine addCalendar_eq_some.mpr ⟨anchored, by decide, anchored, ?_⟩
    exact shifted_zero.symm
  represented start shifted months years shifts := (addCalendar_eq_some.mp shifts).2.2.1
  months start later count counted shifts := by
    have leads := (addCalendar_eq_some.mp shifts).2.2.2
    rw [leads, Int.mul_zero, Int.add_zero]
    exact shifted_months counted
  years start later count counted shifts := by
    have leads := (addCalendar_eq_some.mp shifts).2.2.2
    rw [leads, Int.zero_add]
    exact shifted_years counted
  fewerMonths start later fewer more counted le shifts := by
    obtain ⟨anchored, ⟨few, _⟩, reached, leads⟩ := addCalendar_eq_some.mp shifts
    rw [Int.mul_zero, Int.add_zero] at leads
    obtain ⟨represented, sooner⟩ := shorter later counted le anchored reached leads
    refine ⟨⟨shifted start fewer⟩, addCalendar_eq_some.mpr ⟨anchored, ⟨?_, by decide⟩, represented,
      by rw [Int.mul_zero, Int.add_zero]⟩, sooner⟩
    rw [abs_of_nonneg counted]
    rw [abs_of_nonneg (counted.trans le)] at few
    exact le.trans few
  fewerYears start later fewer more counted le shifts := by
    obtain ⟨anchored, ⟨_, few⟩, reached, leads⟩ := addCalendar_eq_some.mp shifts
    rw [Int.zero_add] at leads
    obtain ⟨represented, sooner⟩ := @shorter _ (12 * fewer) (12 * more) later (by omega) (by omega)
      anchored reached leads
    refine ⟨⟨shifted start (12 * fewer)⟩, addCalendar_eq_some.mpr ⟨anchored, ⟨by decide, ?_⟩,
      represented, by rw [Int.zero_add]⟩, sooner⟩
    rw [abs_of_nonneg counted]
    rw [abs_of_nonneg (counted.trans le)] at few
    exact le.trans few

theorem increasing : gregorian.Increasing where
  months start sooner later fewer more _ less first second := by
    rw [(addCalendar_eq_some.mp first).2.2.2, (addCalendar_eq_some.mp second).2.2.2]
    exact shifted_lt (by omega)
  years start sooner later fewer more _ less first second := by
    rw [(addCalendar_eq_some.mp first).2.2.2, (addCalendar_eq_some.mp second).2.2.2]
    exact shifted_lt (by omega)

end gregorian

/-! A rule by the month from the first of January 2024, asked on the last day of January. -/

namespace NewYear

def january : Timestamp := ⟨1704067200000⟩
def lastOfJanuary : Timestamp := ⟨1706659200000⟩
def february : Timestamp := ⟨1706745600000⟩
def midFebruary : Timestamp := ⟨1707523200000⟩
def march : Timestamp := ⟨1709251200000⟩

/-- The next instance is in March, though the one in February is still ahead. -/
theorem february_passed_over :
    nextOccurrence gregorian true "FREQ=MONTHLY" january lastOfJanuary = some (some march) ∧
      ¬ LeastPast gregorian .monthly 1 january lastOfJanuary (some march) := by
  refine ⟨by decide +kernel, ?_⟩
  rintro ⟨_, _, least⟩
  have arises : occurrence gregorian .monthly 1 january (1 : Nat) = some february := by
    decide +kernel
  exact least 1 february arises ⟨by decide, by decide⟩

/-- Asked in February, when both instances counted as passed have passed, it is the least. -/
theorem march_next : LeastPast gregorian .monthly 1 january midFebruary (some march) := by
  have passed : Passed gregorian .monthly 1 january midFebruary := by
    intro index instant counted arises
    have few : (index : Int) ≤ 1 := counted
    have first : occurrence gregorian .monthly 1 january 0 = some january := by decide +kernel
    have second : occurrence gregorian .monthly 1 january 1 = some february := by decide +kernel
    obtain rfl | rfl : index = 0 ∨ index = 1 := by omega
    · cases first.symm.trans arises
      decide
    · cases second.symm.trans arises
      decide
  obtain ⟨next, found, least⟩ := (nextOccurrence_least_iff gregorian gregorian.lawful
    gregorian.increasing true "FREQ=MONTHLY" .monthly 1 (by decide +kernel) (by decide) january
    midFebruary (by decide) (by decide)).mpr (.inr (.inr (.inr passed)))
  have answered : nextOccurrence gregorian true "FREQ=MONTHLY" january midFebruary =
      some (some march) := by decide +kernel
  cases answered.symm.trans found
  exact least

end NewYear

end Zuihitsu.Schedule
