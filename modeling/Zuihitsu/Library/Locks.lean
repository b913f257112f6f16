/-
# Locks and their owners

Locks that owners take one at a time and let go of together. A lock is taken only when
nobody holds it, so no two owners come to hold one lock, and what each owner does under
its own locks is apart from what the others do.
-/

import Mathlib.Logic.Function.Basic

namespace Zuihitsu.Library

/-- The locks each owner holds. -/
abbrev Locks (ω κ : Type) := ω → List κ

namespace Locks

variable {ω κ : Type}

/-- Nobody holds a lock. -/
def Free (locks : Locks ω κ) (key : κ) : Prop := ∀ owner, key ∉ locks owner

/-- No two owners hold one lock. -/
def Exclusive (locks : Locks ω κ) : Prop :=
  ∀ one two key, key ∈ locks one → key ∈ locks two → one = two

theorem exclusive_none : Exclusive (fun _ => [] : Locks ω κ) := fun _ _ _ member => nomatch member

variable [DecidableEq ω]

/-- An owner takes a lock. -/
def take (locks : Locks ω κ) (owner : ω) (key : κ) : Locks ω κ :=
  Function.update locks owner (key :: locks owner)

/-- An owner lets go of all its locks. -/
def release (locks : Locks ω κ) (owner : ω) : Locks ω κ := Function.update locks owner []

section Moves

variable {locks : Locks ω κ} {owner other : ω} {key held : κ}

@[simp] theorem take_self : locks.take owner key owner = key :: locks owner :=
  Function.update_self ..

theorem take_other (apart : other ≠ owner) : locks.take owner key other = locks other :=
  Function.update_of_ne apart ..

@[simp] theorem release_self : locks.release owner owner = [] := Function.update_self ..

theorem release_other (apart : other ≠ owner) : locks.release owner other = locks other :=
  Function.update_of_ne apart ..

theorem mem_take : held ∈ locks.take owner key other ↔
    (other = owner ∧ held = key) ∨ held ∈ locks other := by
  by_cases same : other = owner
  · subst same
    simp
  · simp [take_other same, same]

/-- Taking a lock gives none up. -/
theorem mem_take_of_mem (member : held ∈ locks other) : held ∈ locks.take owner key other :=
  mem_take.mpr (.inr member)

theorem mem_release : held ∈ locks.release owner other ↔ other ≠ owner ∧ held ∈ locks other := by
  by_cases same : other = owner
  · subst same
    simp
  · simp [release_other same, same]

/-- A free lock is taken by one owner alone. -/
theorem Exclusive.take (exclusive : locks.Exclusive) (free : locks.Free key) :
    (locks.take owner key).Exclusive := by
  intro one two held first second
  rcases mem_take.mp first with ⟨rfl, rfl⟩ | held₁
  · rcases mem_take.mp second with ⟨rfl, _⟩ | held₂
    · rfl
    · exact absurd held₂ (free two)
  · rcases mem_take.mp second with ⟨_, rfl⟩ | held₂
    · exact absurd held₁ (free one)
    · exact exclusive one two held held₁ held₂

theorem Exclusive.release (exclusive : locks.Exclusive) : (locks.release owner).Exclusive :=
  fun one two held first second =>
    exclusive one two held (mem_release.mp first).2 (mem_release.mp second).2

end Moves

end Locks

end Zuihitsu.Library
