/-
# Endless runs

Runs that never end, of a labelled step relation that may also stand still, with the rules that
lead from one condition to another: what every step keeps holds all along, and a condition that
is only ever left for another, and is left, comes to the other.
-/

import Mathlib.Data.Nat.Init
import Zuihitsu.Library.Trace

namespace Zuihitsu.Library

/-- A run without end. -/
structure Run {σ α : Type} (step : σ → α → σ → Prop) (start : σ) where
  state : Nat → σ
  begins : state 0 = start
  follows : ∀ time, state (time + 1) = state time ∨
    ∃ label, step (state time) label (state (time + 1))

namespace Run

variable {σ α : Type} {step : σ → α → σ → Prop} {start : σ} (run : Run step start)

/-- What every step keeps, holds all along. -/
theorem invariant (holds : σ → Prop) (begins : holds start)
    (keeps : ∀ one label other, step one label other → holds one → holds other) (time : Nat) :
    holds (run.state time) := by
  induction time with
  | zero =>
    rw [run.begins]
    exact begins
  | succ time ih =>
    rcases run.follows time with same | ⟨label, taken⟩
    · rw [same]
      exact ih
    · exact keeps _ label _ taken ih

/-- What no step takes back stays from one time on. -/
theorem stays (holds : σ → Prop) {time later : Nat} (after : time ≤ later)
    (keeps : ∀ middle label, time ≤ middle → step (run.state middle) label (run.state (middle + 1)) →
      holds (run.state middle) → holds (run.state (middle + 1)))
    (here : holds (run.state time)) : holds (run.state later) := by
  induction later, after using Nat.le_induction with
  | base => exact here
  | succ later after ih =>
    rcases run.follows later with same | ⟨label, taken⟩
    · rw [same]
      exact ih
    · exact keeps later label after taken ih

/-- A condition that steps leave only for another, and that is left, leads to the other. -/
theorem leads (one other : σ → Prop) {time : Nat}
    (keeps : ∀ middle label, time ≤ middle → step (run.state middle) label (run.state (middle + 1)) →
      one (run.state middle) → one (run.state (middle + 1)) ∨ other (run.state (middle + 1)))
    (left : ∃ later, time ≤ later ∧ ¬one (run.state later)) (here : one (run.state time)) :
    ∃ later, time ≤ later ∧ other (run.state later) := by
  by_contra never
  obtain ⟨later, after, gone⟩ := left
  refine gone (run.stays one after (fun middle label since taken still => ?_) here)
  rcases keeps middle label since taken still with kept | reached
  · exact kept
  · exact absurd ⟨middle + 1, by omega, reached⟩ never

/-- A part of the state has a run of its own, where each step does one step of it or none. -/
def part {τ β : Type} {inner : τ → β → τ → Prop} (run : Run step start) (view : σ → τ)
    (does : ∀ one label other, step one label other →
      view other = view one ∨ ∃ act, inner (view one) act (view other)) :
    Run inner (view start) where
  state time := view (run.state time)
  begins := congrArg view run.begins
  follows time := by
    rcases run.follows time with same | ⟨label, taken⟩
    · exact .inl (congrArg view same)
    · exact does _ label _ taken

end Run

end Zuihitsu.Library
