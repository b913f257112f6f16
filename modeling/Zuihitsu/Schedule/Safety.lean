/-
# The arithmetic of a recurrence

The step of a rule is multiplied out with no check, on every tick of the scheduler, for
whatever interval the rule was admitted with. A build with overflow checks stops where the
product leaves 64 bits, and one without them where it wraps to zero; either way the scan
over the recurring entries stops with it.
-/

import Mathlib.Data.Int.ModEq
import Zuihitsu.Schedule.Due
import Zuihitsu.Schedule.Firings
import Zuihitsu.Schedule.Least

namespace Zuihitsu.Schedule

open Zuihitsu.Core Zuihitsu.Graph Zuihitsu.Library

/-- The step of a rule can be divided by: its product stays within 64 bits, or does not wrap to
zero where nothing checks it. -/
def Divides (overflowChecks : Bool) (freq : Freq) (interval : Nat) : Prop :=
  if overflowChecks then FitsI64 (interval * stepMillis freq)
  else ¬ (2 ^ 64 : Int) ∣ interval * stepMillis freq

/-- The step of a rule can be divided by, or the anchor is still ahead and it is not computed. -/
def Computes (overflowChecks : Bool) (rule : String) (dtstart after : Timestamp) : Prop :=
  ∀ freq interval, parseRrule rule = some (freq, interval) →
    after.millis < dtstart.millis ∨ Divides overflowChecks freq interval

section Products

variable {overflowChecks : Bool} {freq : Freq} {interval : Nat} {left right product machine : Int}

theorem mulI64_checked (computed : mulI64 true left right = some product) :
    FitsI64 (left * right) ∧ product = left * right := by
  unfold mulI64 at computed
  split at computed
  · exact ⟨by assumption, (Option.some.inj computed).symm⟩
  · cases computed

theorem mulI64_wrapped (computed : mulI64 false left right = some product) :
    FitsI64 product ∧ product ≡ left * right [ZMOD 2 ^ 64] := by
  unfold mulI64 at computed
  split at computed
  · cases computed
    exact ⟨by assumption, Int.ModEq.refl _⟩
  · cases computed
    refine ⟨⟨?_, ?_⟩, Int.bmod_emod⟩
    · exact le_trans (by decide) (Int.le_bmod (by decide))
    · exact lt_of_lt_of_le (Int.bmod_lt (by decide)) (by decide)

theorem mulI64_isSome (left right : Int) : (mulI64 false left right).isSome = true := by
  unfold mulI64
  split <;> rfl

theorem FitsI64.eq_zero_iff (fits : FitsI64 product) (same : product ≡ left [ZMOD 2 ^ 64]) :
    product = 0 ↔ (2 ^ 64 : Int) ∣ left := by
  rw [← same.dvd_iff]
  unfold FitsI64 at fits
  omega

theorem stride_checked :
    (∃ machine, stride true freq interval = some machine) ↔
      FitsI64 (interval * stepMillis freq) := by
  constructor
  · rintro ⟨machine, computed⟩
    have inDays : ∀ days : Int, ((mulI64 true interval days).bind fun all =>
        mulI64 true all millisPerDay) = some machine →
          FitsI64 (interval * (days * millisPerDay)) := by
      intro days computed
      obtain ⟨all, first, second⟩ := Option.bind_eq_some_iff.mp computed
      have fits := (mulI64_checked second).1
      rwa [(mulI64_checked first).2, Int.mul_assoc] at fits
    cases freq with
    | daily | weekly => exact (mulI64_checked computed).1
    | monthly => exact inDays 28 computed
    | yearly => exact inDays 365 computed
  · exact fun fits => ⟨_, stride_of_fits fits⟩

theorem stride_wrapped : ∃ machine, stride false freq interval = some machine ∧
    FitsI64 machine ∧ machine ≡ interval * stepMillis freq [ZMOD 2 ^ 64] := by
  have direct : ∀ left right : Int, ∃ product, mulI64 false left right = some product ∧
      FitsI64 product ∧ product ≡ left * right [ZMOD 2 ^ 64] := by
    intro left right
    obtain ⟨product, computed⟩ := Option.isSome_iff_exists.mp (mulI64_isSome left right)
    exact ⟨product, computed, mulI64_wrapped computed⟩
  have inDays : ∀ days : Int, ∃ machine, ((mulI64 false interval days).bind fun all =>
      mulI64 false all millisPerDay) = some machine ∧
        FitsI64 machine ∧ machine ≡ interval * (days * millisPerDay) [ZMOD 2 ^ 64] := by
    intro days
    obtain ⟨all, first, _, near⟩ := direct interval days
    obtain ⟨machine, second, fits, same⟩ := direct all millisPerDay
    refine ⟨machine, by rw [first, Option.bind_some, second], fits, same.trans ?_⟩
    rw [← Int.mul_assoc]
    exact near.mul_right _
  cases freq with
  | daily | weekly => exact direct _ _
  | monthly => exact inDays 28
  | yearly => exact inDays 365

theorem divides_iff (positive : 1 ≤ interval) :
    (∃ machine, stride overflowChecks freq interval = some machine ∧ machine ≠ 0) ↔
      Divides overflowChecks freq interval := by
  cases overflowChecks with
  | true =>
    unfold Divides
    rw [if_pos rfl, ← stride_checked]
    constructor
    · exact fun ⟨machine, computed, _⟩ => ⟨machine, computed⟩
    · intro computes
      have fits := stride_checked.mp computes
      exact ⟨_, stride_of_fits fits, (Int.mul_pos (by omega) (stepMillis_pos freq)).ne'⟩
  | false =>
    obtain ⟨machine, computed, fits, same⟩ := @stride_wrapped freq interval
    unfold Divides
    rw [if_neg (by decide), ← fits.eq_zero_iff same, computed]
    simp

end Products

section Scan

variable {calendar : Calendar} {overflowChecks : Bool} {freq : Freq} {interval : Nat}
variable {dtstart after now : Timestamp} {rule : String} {graph : Graph}

theorem nextOccurrence_isSome (laws : calendar.Lawful) (anchored : calendar.represents dtstart = true)
    (reading : calendar.represents after = true) :
    (nextOccurrence calendar overflowChecks rule dtstart after).isSome = true ↔
      Computes overflowChecks rule dtstart after := by
  unfold nextOccurrence Computes
  cases parsed : parseRrule rule with
  | none => simp
  | some read =>
    obtain ⟨freq, interval⟩ := read
    by_cases ahead : after.millis < dtstart.millis
    · simp [ahead]
    · have elapsed : checkedSub after.millis dtstart.millis = some (after.millis - dtstart.millis) :=
        if_pos (laws.narrow _ _ anchored reading)
      have one : (∀ other count, some (freq, interval) = some (other, count) →
          after.millis < dtstart.millis ∨ Divides overflowChecks other count) ↔
            ∃ machine, stride overflowChecks freq interval = some machine ∧ machine ≠ 0 := by
        rw [divides_iff (interval_positive parsed)]
        simp [ahead]
      rw [one]
      simp only [ahead, ↓reduceIte, elapsed, Option.isSome_map, scanStart]
      cases stride overflowChecks freq interval with
      | none => simp
      | some machine => by_cases zero : machine = 0 <;> simp [divI64, zero]

theorem selected_isSome {test : EntryRow → Option Bool} (rows : List EntryRow) :
    (selected test rows).isSome = true ↔ ∀ row ∈ rows, (test row).isSome = true := by
  induction rows with
  | nil => simp [selected]
  | cons row rest ih =>
    rw [List.forall_mem_cons, ← ih, selected]
    cases test row <;> simp

theorem dueRecurring_isSome (laws : calendar.Lawful)
    (stored : ∀ row ∈ graph.entries, calendar.represents row.assertedAt = true ∧
      calendar.represents (baseline row) = true) :
    (dueRecurring calendar overflowChecks graph now).isSome = true ↔
      ∀ row ∈ graph.entryRowsWhere (awaitsInstance graph), ∀ rule, ruleOf row = some rule →
        Computes overflowChecks rule row.assertedAt (baseline row) := by
  rw [dueRecurring, Option.isSome_map, selected_isSome]
  refine forall₂_congr fun row listed => ?_
  obtain ⟨anchored, reading⟩ := stored row (mem_entryRowsWhere.mp listed).1
  unfold instanceDue
  cases ruleOf row with
  | none => simp
  | some =>
    simp only [anchored, reading, Bool.and_self, ↓reduceIte, Option.isSome_map, Option.some.injEq,
      forall_eq', nextOccurrence_isSome laws anchored reading]

end Scan

/-- The arithmetic of the next instance neither overflows nor divides by zero exactly where the
anchor is still ahead or the step's product fits; and the scan over the recurring entries goes
through exactly where each rule's step can be divided by. -/
theorem recurrence_safe_iff (calendar : Calendar) (laws : calendar.Lawful) (rule : String)
    (dtstart after : Timestamp) (anchored : calendar.represents dtstart = true)
    (reading : calendar.represents after = true) (overflowChecks : Bool) (graph : Graph)
    (now : Timestamp)
    (stored : ∀ row ∈ graph.entries, calendar.represents row.assertedAt = true ∧
      calendar.represents (baseline row) = true) :
    ((nextOccurrence calendar true rule dtstart after).isSome = true ↔
      ∀ freq interval, parseRrule rule = some (freq, interval) →
        after.millis < dtstart.millis ∨ FitsI64 (interval * stepMillis freq)) ∧
    ((dueRecurring calendar overflowChecks graph now).isSome = true ↔
      ∀ row ∈ graph.entryRowsWhere (awaitsInstance graph), ∀ rule, ruleOf row = some rule →
        Computes overflowChecks rule row.assertedAt (baseline row)) := by
  refine ⟨?_, dueRecurring_isSome laws stored⟩
  rw [nextOccurrence_isSome laws anchored reading]
  simp [Computes, Divides]

/-! A rule of a day's step, whose interval is a multiple of `2 ^ 54`. -/

namespace Endless

def rule : String := "FREQ=DAILY;INTERVAL=18014398509481984"

def memory : EventPayload := .memoryCreated ⟨1⟩ ⟨"topic/tea"⟩
def entry : EventPayload :=
  .memoryContentAppended ⟨1⟩ ⟨2⟩ ⟨0⟩ (some (.recurring rule)) "water the plants" .agent none .public

def written : List Event := stamp 0 ⟨0⟩ .agent [memory] ++ stamp 1 ⟨0⟩ .agent [entry]

def shown : Graph := ((foldLog apply written Graph.fresh).toOption).getD Graph.fresh

/-- It is admitted, and with it in the log neither build can make the scan. -/
theorem scan_stopped :
    rruleIsSupported rule = true ∧ foldLog apply written Graph.fresh = .ok shown ∧
      nextOccurrence gregorian true rule ⟨0⟩ ⟨0⟩ = none ∧
      nextOccurrence gregorian false rule ⟨0⟩ ⟨0⟩ = none ∧
      dueRecurring gregorian true shown ⟨0⟩ = none ∧
      dueRecurring gregorian false shown ⟨0⟩ = none := by
  refine ⟨by decide +kernel, rfl, ?_⟩
  decide +kernel

end Endless

/-- A rule by the week can be computed, and a scan over no entries be made. -/
theorem weekly_computed :
    (nextOccurrence gregorian true "FREQ=WEEKLY" ⟨0⟩ ⟨5⟩).isSome = true ∧
      (dueRecurring gregorian false Graph.fresh ⟨9⟩).isSome = true := by
  have safe := recurrence_safe_iff gregorian gregorian.lawful "FREQ=WEEKLY" ⟨0⟩ ⟨5⟩ (by decide)
    (by decide) false Graph.fresh ⟨9⟩ (by rintro row ⟨⟩)
  have parsed : parseRrule "FREQ=WEEKLY" = some (.weekly, 1) := by decide +kernel
  refine ⟨safe.1.mpr ?_, safe.2.mpr ?_⟩
  · intro freq interval same
    cases parsed.symm.trans same
    exact .inr (by decide)
  · intro row listed
    cases (mem_entryRowsWhere.mp listed).1

end Zuihitsu.Schedule
