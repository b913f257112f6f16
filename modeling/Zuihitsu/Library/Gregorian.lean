/-
# The Gregorian calendar

Days and months counted from the first of March of year zero, so that a leap day is the
last day of its year and the months of a year have a closed form. A month is reached by
counting months and a day by counting days, and adding months keeps the day of the month
where the month has it.
-/

import Mathlib.Algebra.Order.Group.Int
import Mathlib.Algebra.Order.Ring.Int
import Mathlib.Tactic.Linarith

namespace Zuihitsu.Library.Gregorian

/-! ### Days and months -/

/-- The day a year begins on. Every fourth year has a leap day, but of the hundredth only
every fourth. -/
def yearStart (year : Int) : Int := 365 * year + year / 4 - year / 100 + year / 400

/-- The day a month begins on. Any five months from a March or an August have 153 days. -/
def monthStart (month : Int) : Int := yearStart (month / 12) + (153 * (month % 12) + 2) / 5

/-- How many days a month has. -/
def monthLength (month : Int) : Int := monthStart (month + 1) - monthStart month

/-- The month a day falls in. The mean length of a month misses it by one at most. -/
def monthOf (day : Int) : Int :=
  let near := day * 4800 / 146097
  if monthStart (near + 1) ≤ day then near + 1 else if monthStart near ≤ day then near else near - 1

/-- The day some months after a day: the same day of its month, or the last. -/
def addMonths (day count : Int) : Int :=
  monthStart (monthOf day + count) +
    min (day - monthStart (monthOf day)) (monthLength (monthOf day + count) - 1)

-- a February of a common year, and one of a leap year
example : (monthLength 11, monthLength 47) = (28, 29) := by decide

/-! ### The lengths -/

variable {day count fewer more year years month : Int}

theorem yearStart_succ (year : Int) : yearStart year + 365 ≤ yearStart (year + 1) := by
  have hundreds : ∀ count : Int, count / 100 = count / 4 / 25 := fun count => by omega
  unfold yearStart
  rw [hundreds, hundreds]
  omega

/-- A number of years has 365 days for each at least. -/
theorem yearStart_add (year : Int) (passed : Nat) :
    yearStart year + 365 * passed ≤ yearStart (year + passed) := by
  induction passed with
  | zero => simp
  | succ fewer ih =>
    have next := yearStart_succ (year + fewer)
    rw [Nat.cast_succ, ← Int.add_assoc]
    omega

/-- In the last month of its year a month ends with the year. -/
theorem monthLength_last (last : month % 12 = 11) :
    monthLength month = yearStart (month / 12 + 1) - yearStart (month / 12) - 337 := by
  unfold monthLength monthStart
  rw [show (month + 1) / 12 = month / 12 + 1 by omega]
  omega

/-- Another month has its length in every year. -/
theorem monthLength_inner (inner : month % 12 ≠ 11) :
    monthLength month = (153 * (month % 12 + 1) + 2) / 5 - (153 * (month % 12) + 2) / 5 := by
  unfold monthLength monthStart
  rw [show (month + 1) / 12 = month / 12 by omega, show (month + 1) % 12 = month % 12 + 1 by omega]
  omega

theorem monthLength_ge (month : Int) : 28 ≤ monthLength month := by
  by_cases last : month % 12 = 11
  · have next := yearStart_succ (month / 12)
    rw [monthLength_last last]
    omega
  · rw [monthLength_inner last]
    omega

/-- A number of months has 28 days for each at least. -/
theorem monthStart_add (month : Int) (passed : Nat) :
    monthStart month + 28 * passed ≤ monthStart (month + passed) := by
  induction passed with
  | zero => simp
  | succ fewer ih =>
    have next := monthLength_ge (month + fewer)
    unfold monthLength at next
    rw [Nat.cast_succ, ← Int.add_assoc]
    omega

/-! ### The month of a day -/

theorem monthStart_mean (month : Int) :
    146097 * month - 10800 ≤ 4800 * monthStart month ∧
      4800 * monthStart month ≤ 146097 * month + 15600 := by
  unfold monthStart yearStart
  omega

theorem monthOf_spec (day : Int) :
    monthStart (monthOf day) ≤ day ∧ day < monthStart (monthOf day + 1) := by
  have before := monthStart_mean (day * 4800 / 146097 - 1)
  have after := monthStart_mean (day * 4800 / 146097 + 2)
  have above : day < monthStart (day * 4800 / 146097 + 1 + 1) := by
    rw [show day * 4800 / 146097 + 1 + 1 = day * 4800 / 146097 + 2 by omega]
    omega
  have below : monthStart (day * 4800 / 146097 - 1) ≤ day := by omega
  unfold monthOf
  simp only
  split
  · exact ⟨by assumption, above⟩
  · split
    · exact ⟨by assumption, by omega⟩
    · refine ⟨below, ?_⟩
      rw [Int.sub_add_cancel]
      omega

/-! ### Adding months -/

@[simp] theorem addMonths_zero (day : Int) : addMonths day 0 = day := by
  have spec := monthOf_spec day
  unfold addMonths monthLength
  simp only [Int.add_zero]
  omega

/-- A day some months on is 28 days on for each at least. -/
theorem addMonths_ge (counted : 0 ≤ count) : day + 28 * count ≤ addMonths day count := by
  obtain ⟨passed, rfl⟩ := Int.eq_ofNat_of_zero_le counted
  have spec := monthOf_spec day
  cases passed with
  | zero => simp
  | succ fewer =>
    -- past the day's own month, which may be longer, each month has at least 28 days
    have later := monthStart_add (monthOf day + 1) fewer
    have length := monthLength_ge (monthOf day + (fewer + 1 : Nat))
    rw [show monthOf day + 1 + (fewer : Int) = monthOf day + (fewer + 1 : Nat) by omega]
      at later
    have own := monthStart_add (monthOf day) (fewer + 1)
    unfold addMonths
    push_cast at *
    omega

/-- A day some years on is 365 days on for each at least. -/
theorem addMonths_years (counted : 0 ≤ years) :
    day + 365 * years ≤ addMonths day (12 * years) := by
  obtain ⟨passed, rfl⟩ := Int.eq_ofNat_of_zero_le counted
  have spec := monthOf_spec day
  have year : (monthOf day + 12 * (passed : Int)) / 12 = monthOf day / 12 + passed := by omega
  have ofYear : (monthOf day + 12 * (passed : Int)) % 12 = monthOf day % 12 := by omega
  have own : monthLength (monthOf day) = monthStart (monthOf day + 1) - monthStart (monthOf day) :=
    rfl
  have whole := yearStart_add (monthOf day / 12) passed
  unfold addMonths
  simp only [monthStart, year, ofYear] at spec own ⊢
  by_cases last : monthOf day % 12 = 11
  · cases passed with
    | zero =>
      rw [monthLength_last (by omega), year]
      rw [monthLength_last last] at own
      simp only [Nat.cast_zero, Int.add_zero] at *
      omega
    | succ fewer =>
      -- a leap day lies before the first of the years counted, so its loss is made up for
      have later := yearStart_add (monthOf day / 12 + 1) fewer
      have length := monthLength_ge (monthOf day + 12 * (fewer + 1 : Nat))
      rw [show monthOf day / 12 + 1 + (fewer : Int) = monthOf day / 12 + (fewer + 1 : Nat) by
        omega] at later
      rw [monthLength_last last] at own
      push_cast at *
      omega
  · rw [monthLength_inner (by omega), ofYear]
    rw [monthLength_inner last] at own
    omega

/-- More months on is later. -/
theorem addMonths_lt (less : fewer < more) : addMonths day fewer < addMonths day more := by
  obtain ⟨passed, rfl⟩ : ∃ passed : Nat, more = fewer + 1 + passed :=
    ⟨(more - fewer - 1).toNat, by omega⟩
  have later := monthStart_add (monthOf day + fewer + 1) passed
  have length := monthLength_ge (monthOf day + (fewer + 1 + passed))
  have spec := monthOf_spec day
  rw [show monthOf day + fewer + 1 + (passed : Int) = monthOf day + (fewer + 1 + passed) by omega]
    at later
  have own : monthLength (monthOf day + fewer) =
    monthStart (monthOf day + fewer + 1) - monthStart (monthOf day + fewer) := rfl
  unfold addMonths
  omega

end Zuihitsu.Library.Gregorian
