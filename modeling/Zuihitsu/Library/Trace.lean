/-
# Labelled runs

The finite runs of a labelled step relation, and the rules that carry a property
of one step to a whole run. A run says which labels it took, so a condition on
every step is a condition on the relation.
-/

import Mathlib.Data.List.Basic

namespace Zuihitsu.Library

/-- `Trace step before labels after`: the labels lead from one state to the other. -/
inductive Trace {σ α : Type} (step : σ → α → σ → Prop) : σ → List α → σ → Prop
  | nil (state : σ) : Trace step state [] state
  | cons {before middle after : σ} {label : α} {labels : List α} (first : step before label middle)
      (rest : Trace step middle labels after) : Trace step before (label :: labels) after

namespace Trace

variable {σ α : Type} {step : σ → α → σ → Prop} {before middle after : σ} {labels more : List α}

theorem single {label : α} (first : step before label after) : Trace step before [label] after :=
  .cons first (.nil after)

theorem append (first : Trace step before labels middle) (second : Trace step middle more after) :
    Trace step before (labels ++ more) after := by
  induction first with
  | nil => exact second
  | cons one _ ih => exact .cons one (ih second)

/-- What every step keeps, a run keeps. -/
theorem invariant (holds : σ → Prop)
    (keeps : ∀ one label other, step one label other → holds one → holds other)
    (run : Trace step before labels after) (start : holds before) : holds after := by
  induction run with
  | nil => exact start
  | cons first _ ih => exact ih (keeps _ _ _ first start)

/-- What holds at the start, of no step taken, and is kept by every further step, holds of
the steps a run has taken and the state it has reached. -/
theorem history (holds : List α → σ → Prop) (start : holds [] before)
    (keeps : ∀ taken one label other, Trace step before taken one → step one label other →
      holds taken one → holds (taken ++ [label]) other)
    (run : Trace step before labels after) : holds labels after := by
  -- induction on what is left of the run, with what it has taken before it
  have through : ∀ taken one rest final, Trace step before taken one → holds taken one →
      Trace step one rest final → holds (taken ++ rest) final := by
    intro taken one rest final reached held following
    induction following generalizing taken with
    | nil => simpa using held
    | @cons one two final label rest first _ ih =>
      have further : holds (taken ++ [label]) two := keeps taken one label two reached first held
      simpa using ih (taken ++ [label]) (reached.append (single first)) further
  exact through [] before labels after (.nil before) start run

/-- A run of a stricter relation is a run of a laxer one. -/
theorem mono {laxer : σ → α → σ → Prop}
    (weaken : ∀ one label other, step one label other → laxer one label other)
    (run : Trace step before labels after) : Trace laxer before labels after := by
  induction run with
  | nil => exact .nil _
  | cons first _ ih => exact .cons (weaken _ _ _ first) ih

/-! ### The states a run visits and the steps it takes -/

/-- A run passes through a state. -/
def Visits (step : σ → α → σ → Prop) (start : σ) (labels : List α) (final state : σ) : Prop :=
  ∃ earlier later, labels = earlier ++ later ∧ Trace step start earlier state ∧
    Trace step state later final

/-- A run takes a step. -/
def Takes (step : σ → α → σ → Prop) (start : σ) (labels : List α) (final before : σ) (label : α)
    (after : σ) : Prop :=
  ∃ earlier later, labels = earlier ++ label :: later ∧ Trace step start earlier before ∧
    step before label after ∧ Trace step after later final

theorem Takes.head {label : α} (first : step before label middle)
    (rest : Trace step middle labels after) :
    Takes step before (label :: labels) after before label middle :=
  ⟨[], labels, rfl, .nil before, first, rest⟩

theorem Takes.cons {label other : α} {one two : σ} (first : step before label middle)
    (takes : Takes step middle labels after one other two) :
    Takes step before (label :: labels) after one other two := by
  obtain ⟨earlier, later, rfl, leading, taken, following⟩ := takes
  exact ⟨label :: earlier, later, rfl, .cons first leading, taken, following⟩

/-- A step that a run takes is its first, where that leads one way only, or one of the rest. -/
theorem Takes.of_cons {label other : α} {one two : σ}
    (determined : ∀ state, step before label state → state = middle)
    (takes : Takes step before (label :: labels) after one other two) :
    one = before ∧ other = label ∨ Takes step middle labels after one other two := by
  obtain ⟨earlier, later, split, leading, taken, following⟩ := takes
  cases leading with
  | nil => exact .inl ⟨rfl, (List.cons.inj split).1.symm⟩
  | cons first rest =>
    obtain ⟨rfl, others⟩ := List.cons.inj split
    rw [← determined _ first]
    exact .inr ⟨_, later, others, rest, taken, following⟩

theorem Takes.visits {label : α} {one two : σ}
    (takes : Takes step before labels after one label two) :
    Visits step before labels after one ∧ Visits step before labels after two := by
  obtain ⟨earlier, later, rfl, leading, taken, following⟩ := takes
  refine ⟨⟨earlier, label :: later, rfl, leading, .cons taken following⟩, ?_⟩
  exact ⟨earlier ++ [label], later, by simp, leading.append (single taken), following⟩

/-- A run takes the steps of its first part. -/
theorem Takes.append {label : α} {one two last : σ}
    (takes : Takes step before labels after one label two) (rest : Trace step after more last) :
    Takes step before (labels ++ more) last one label two := by
  obtain ⟨earlier, later, rfl, leading, taken, following⟩ := takes
  exact ⟨earlier, later ++ more, by simp, leading, taken, following.append rest⟩

theorem Takes.last {label : α} {one two : σ} (leading : Trace step before labels one)
    (taken : step one label two) : Takes step before (labels ++ [label]) two one label two :=
  ⟨labels, [], rfl, leading, taken, .nil two⟩

/-- A run of no step takes none. -/
theorem not_takes_nil {label : α} {one two : σ} : ¬Takes step before [] after one label two := by
  rintro ⟨earlier, later, split, _⟩
  simp at split

/-- What every step that meets a condition keeps holds wherever a run of such steps comes. -/
theorem visited_of_taken {holds : σ → Prop} {meets : σ → α → Prop} (begins : holds before)
    (keeps : ∀ one label two, step one label two → holds one → meets one label → holds two)
    (met : ∀ one label two, Takes step before labels after one label two → meets one label)
    {state : σ} (visits : Visits step before labels after state) : holds state := by
  obtain ⟨earlier, later, rfl, leading, following⟩ := visits
  induction leading with
  | nil => exact begins
  | cons first rest ih =>
    have taken := met _ _ _ (Takes.head first (rest.append following))
    exact ih (keeps _ _ _ first begins taken)
      (fun one label two takes => met one label two (takes.cons first)) following

/-- Where a step from a sound state leaves a property standing exactly when it meets a
condition, the property holds all along a run from a sound state exactly when every step of
the run meets the condition. -/
theorem visited_iff_taken (sound holds : σ → Prop) (meets : σ → α → Prop)
    (starts : sound before) (begins : holds before)
    (stays : ∀ one label two, step one label two → sound one → sound two)
    (exact' : ∀ one label two, step one label two → sound one → holds one →
      (holds two ↔ meets one label)) :
    (∀ state, Visits step before labels after state → holds state) ↔
      ∀ one label two, Takes step before labels after one label two → meets one label := by
  constructor
  · intro all one label two takes
    obtain ⟨here, there⟩ := takes.visits
    obtain ⟨_, _, _, leading, taken, _⟩ := takes
    exact (exact' one label two taken (leading.invariant sound stays starts) (all one here)).mp
      (all two there)
  · intro met state visits
    have both : sound before ∧ holds before := ⟨starts, begins⟩
    refine (@visited_of_taken _ _ _ _ _ _ (fun state => sound state ∧ holds state) meets both
      ?_ met state visits).2
    intro one label two taken held meets
    exact ⟨stays one label two taken held.1, (exact' one label two taken held.1 held.2).mpr meets⟩

end Trace

end Zuihitsu.Library
