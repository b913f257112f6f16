/-
# Tasks and what they hold

The tasks of a program that takes its steps one task at a time, each at a place of
its own. A lock is held by the tasks at certain places, so that at most one task
holds it is a statement about the places.
-/

import Mathlib.Logic.Function.Basic

namespace Zuihitsu.Library

/-- The tasks in flight, by number, each at its place. -/
abbrev Tasks (τ : Type) := Nat → Option τ

namespace Tasks

variable {τ : Type}

/-- Move a task, start it, or let it go. -/
def put (tasks : Tasks τ) (number : Nat) (place : Option τ) : Tasks τ :=
  Function.update tasks number place

/-- Some task is at such a place. -/
def Has (tasks : Tasks τ) (holds : τ → Prop) : Prop :=
  ∃ number place, tasks number = some place ∧ holds place

/-- At most one task is at such a place. -/
def AtMostOne (tasks : Tasks τ) (holds : τ → Prop) : Prop :=
  ∀ first second one two, tasks first = some one → tasks second = some two →
    holds one → holds two → first = second

/-- No task but this one is at such a place. -/
def Alone (tasks : Tasks τ) (number : Nat) (holds : τ → Prop) : Prop :=
  ∀ other place, other ≠ number → tasks other = some place → ¬ holds place

section Moves

variable {tasks : Tasks τ} {number other : Nat} {place : Option τ} {holds : τ → Prop}

@[simp] theorem put_self : tasks.put number place number = place :=
  Function.update_self ..

theorem put_other (apart : other ≠ number) : tasks.put number place other = tasks other :=
  Function.update_of_ne apart ..

theorem put_put {again : Option τ} :
    (tasks.put number place).put number again = tasks.put number again :=
  Function.update_idem ..

/-- A task after a move is the one moved, at its new place, or another where it was. -/
theorem put_eq_some {here : τ} :
    tasks.put number place other = some here ↔
      (other = number ∧ place = some here) ∨ (other ≠ number ∧ tasks other = some here) := by
  by_cases same : other = number
  · subst same
    simp
  · simp [put_other same, same]

/-- What holds of every task holds after a move, if it holds of the new place. -/
theorem forall_put {property : Nat → τ → Prop} (all : ∀ other here, other ≠ number →
    tasks other = some here → property other here)
    (moved : ∀ here, place = some here → property number here) :
    ∀ other here, tasks.put number place other = some here → property other here := by
  intro other here there
  rcases put_eq_some.mp there with ⟨rfl, arrived⟩ | ⟨apart, stayed⟩
  · exact moved here arrived
  · exact all other here apart stayed

/-- At most one task holds after a move, if the one moved does not or no other does. -/
theorem AtMostOne.put (atMost : tasks.AtMostOne holds)
    (alone : ∀ here, place = some here → holds here → tasks.Alone number holds) :
    (tasks.put number place).AtMostOne holds := by
  intro first second one two firstAt secondAt firstHolds secondHolds
  rcases put_eq_some.mp firstAt with ⟨rfl, arrived⟩ | ⟨apart, stayed⟩
  · rcases put_eq_some.mp secondAt with ⟨rfl, _⟩ | ⟨apart, stayed⟩
    · rfl
    · exact absurd secondHolds (alone one arrived firstHolds second two apart stayed)
  · rcases put_eq_some.mp secondAt with ⟨rfl, arrived⟩ | ⟨_, stayedToo⟩
    · exact absurd firstHolds (alone two arrived secondHolds first one apart stayed)
    · exact atMost first second one two stayed stayedToo firstHolds secondHolds

/-- A task that holds and moves on to hold keeps the others out. -/
theorem AtMostOne.others (atMost : tasks.AtMostOne holds) {here : τ}
    (there : tasks number = some here) (held : holds here) : tasks.Alone number holds :=
  fun other place apart stayed holding =>
    apart (atMost other number place here stayed there holding held)

/-- Where no task is at such a place, none but this one is. -/
theorem alone_of_free (free : ¬ tasks.Has holds) : tasks.Alone number holds :=
  fun other place _ stayed holding => free ⟨other, place, stayed, holding⟩

theorem atMostOne_none : AtMostOne (fun _ => none : Tasks τ) holds :=
  fun _ _ _ _ first => nomatch first

end Moves

end Tasks

end Zuihitsu.Library
