/-
# A counter that serves numbers in order

Numbers are handed out one after another and served in the same order. A holder
may leave before its number comes up; the counter remembers that and skips it.
The rule here is that the counter never stands at a number nobody holds: what is
served is always the least number still held.
-/

import Mathlib.Data.Finset.Card
import Mathlib.Order.Bounds.Basic
import Mathlib.Order.Interval.Finset.Nat

namespace Zuihitsu.Library

/-- Remove numbers from a set as long as the next one is in it. -/
def drainWith : Nat → Finset Nat → Nat → Nat × Finset Nat
  | 0, finished, next => (next, finished)
  | fuel + 1, finished, next =>
    if next ∈ finished then drainWith fuel (finished.erase next) (next + 1) else (next, finished)

/-- Skip the numbers in a set, from a number on. Every round removes one, so there are
no more rounds than members. -/
def drain (finished : Finset Nat) (next : Nat) : Nat × Finset Nat :=
  drainWith finished.card finished next

section Drain

variable {fuel next number : Nat} {finished : Finset Nat}

theorem le_drainWith : next ≤ (drainWith fuel finished next).1 := by
  induction fuel generalizing finished next with
  | zero => exact Nat.le_refl next
  | succ fuel ih =>
    simp only [drainWith]
    split
    · exact Nat.le_of_succ_le ih
    · exact Nat.le_refl next

/-- What is skipped was in the set. -/
theorem mem_of_lt_drainWith (after : next ≤ number)
    (before : number < (drainWith fuel finished next).1) : number ∈ finished := by
  induction fuel generalizing finished next with
  | zero => exact absurd before (Nat.not_lt.mpr after)
  | succ fuel ih =>
    simp only [drainWith] at before
    split at before
    · rename_i member
      rcases Nat.eq_or_lt_of_le after with rfl | later
      · exact member
      · exact Finset.mem_of_mem_erase (ih later before)
    · exact absurd before (Nat.not_lt.mpr after)

/-- What is left in the set is what was not skipped. -/
theorem mem_drainWith :
    number ∈ (drainWith fuel finished next).2 ↔
      number ∈ finished ∧ (number < next ∨ (drainWith fuel finished next).1 ≤ number) := by
  induction fuel generalizing finished next with
  | zero => simp only [drainWith]; exact ⟨fun member => ⟨member, Nat.lt_or_ge _ _⟩, fun both => both.1⟩
  | succ fuel ih =>
    simp only [drainWith]
    split
    · rename_i member
      rw [ih, Finset.mem_erase]
      have reached := @le_drainWith fuel (next + 1) (finished.erase next)
      constructor
      · rintro ⟨⟨other, kept⟩, place⟩
        exact ⟨kept, by omega⟩
      · rintro ⟨kept, place⟩
        exact ⟨⟨by omega, kept⟩, by omega⟩
    · exact ⟨fun member => ⟨member, Nat.lt_or_ge _ _⟩, fun both => both.1⟩

/-- With a round for every member the skipping stops at a number that is not in the
set. -/
theorem drainWith_notMem (enough : finished.card ≤ fuel) :
    (drainWith fuel finished next).1 ∉ finished := by
  induction fuel generalizing finished next with
  | zero =>
    rw [Finset.card_eq_zero.mp (Nat.le_zero.mp enough)]
    exact Finset.notMem_empty _
  | succ fuel ih =>
    simp only [drainWith]
    split
    · rename_i member
      have fewer : (finished.erase next).card ≤ fuel := by
        rw [Finset.card_erase_of_mem member]
        omega
      intro reached
      refine @ih (next + 1) _ fewer (Finset.mem_erase.mpr ⟨?_, reached⟩)
      exact Nat.ne_of_gt le_drainWith
    · assumption

theorem le_drain : next ≤ (drain finished next).1 := le_drainWith

theorem mem_of_lt_drain (after : next ≤ number) (before : number < (drain finished next).1) :
    number ∈ finished :=
  mem_of_lt_drainWith after before

theorem mem_drain :
    number ∈ (drain finished next).2 ↔
      number ∈ finished ∧ (number < next ∨ (drain finished next).1 ≤ number) :=
  mem_drainWith

theorem drain_notMem : (drain finished next).1 ∉ finished := drainWith_notMem (Nat.le_refl _)

end Drain

/-- What is being served, what is handed out next, and the numbers whose holders left
before their turn. -/
structure Counter where
  serving : Nat
  next : Nat
  finished : Finset Nat

namespace Counter

/-- Hand out the next number. -/
def take (counter : Counter) : Counter := { counter with next := counter.next + 1 }

/-- The holder of a number leaves: past it, if it was being served, or later. -/
def leave (counter : Counter) (number : Nat) : Counter :=
  if counter.serving = number then
    let drained := drain counter.finished (number + 1)
    { counter with serving := drained.1, finished := drained.2 }
  else { counter with finished := insert number counter.finished }

/-- A counter tracks the numbers held: from the one served on, each number handed out is
either held or finished. -/
structure Tracks (counter : Counter) (held : Finset Nat) : Prop where
  serving_le : counter.serving ≤ counter.next
  range : ∀ number ∈ held, counter.serving ≤ number ∧ number < counter.next
  early : ∀ number ∈ counter.finished, counter.serving < number ∧ number < counter.next
  held_iff : ∀ number, counter.serving ≤ number → number < counter.next →
    (number ∈ held ↔ number ∉ counter.finished)

variable {counter : Counter} {held : Finset Nat} {number : Nat}

/-- A fresh counter tracks nobody. -/
theorem tracks_fresh : Tracks ⟨0, 0, ∅⟩ ∅ where
  serving_le := Nat.le_refl 0
  range := fun _ member => absurd member (Finset.notMem_empty _)
  early := fun _ member => absurd member (Finset.notMem_empty _)
  held_iff := fun _ _ below => absurd below (Nat.not_lt_zero _)

theorem Tracks.next_notMem (tracks : Tracks counter held) : counter.next ∉ held :=
  fun member => Nat.lt_irrefl _ (tracks.range _ member).2

/-- Handing out a number adds its holder. -/
theorem Tracks.take (tracks : Tracks counter held) :
    Tracks counter.take (insert counter.next held) where
  serving_le := Nat.le_succ_of_le tracks.serving_le
  range := by
    intro number member
    rcases Finset.mem_insert.mp member with rfl | held
    · exact ⟨tracks.serving_le, Nat.lt_succ_self _⟩
    · obtain ⟨low, high⟩ := tracks.range number held
      exact ⟨low, Nat.lt_succ_of_lt high⟩
  early := by
    intro number member
    obtain ⟨low, high⟩ := tracks.early number member
    exact ⟨low, Nat.lt_succ_of_lt high⟩
  held_iff := by
    intro number low high
    rw [Finset.mem_insert]
    rcases Nat.lt_succ_iff_lt_or_eq.mp high with below | rfl
    · exact (or_iff_right (Nat.ne_of_lt below)).trans (tracks.held_iff number low below)
    · have unfinished : counter.next ∉ counter.finished :=
        fun member => Nat.lt_irrefl _ (tracks.early _ member).2
      exact iff_of_true (.inl rfl) unfinished

/-- A holder that leaves, at its turn or before it, is no longer tracked. -/
theorem Tracks.leave (tracks : Tracks counter held) (member : number ∈ held) :
    Tracks (counter.leave number) (held.erase number) := by
  obtain ⟨low, high⟩ := tracks.range number member
  unfold Counter.leave
  split
  · rename_i served
    subst served
    have reached := @le_drain (counter.serving + 1) counter.finished
    have stays : (drain counter.finished (counter.serving + 1)).1 ≤ counter.next := by
      by_contra past
      have within := mem_of_lt_drain (Nat.succ_le_of_lt high) (Nat.lt_of_not_le past)
      exact Nat.lt_irrefl _ (tracks.early _ within).2
    refine ⟨stays, ?_, ?_, ?_⟩
    · intro other kept
      obtain ⟨different, held⟩ := Finset.mem_erase.mp kept
      obtain ⟨from_, upTo⟩ := tracks.range other held
      refine ⟨?_, upTo⟩
      -- a number that is held is not skipped
      by_contra skipped
      have finished := mem_of_lt_drain (by omega) (Nat.lt_of_not_le skipped)
      exact (tracks.held_iff other from_ upTo).mp held finished
    · intro other finished
      obtain ⟨before, place⟩ := mem_drain.mp finished
      obtain ⟨from_, upTo⟩ := tracks.early other before
      refine ⟨?_, upTo⟩
      have beyond : (drain counter.finished (counter.serving + 1)).1 ≤ other := by omega
      refine Nat.lt_of_le_of_ne beyond fun same => ?_
      exact drain_notMem (same ▸ before)
    · intro other from_ upTo
      have within : counter.serving ≤ other := by dsimp only at from_; omega
      rw [Finset.mem_erase, mem_drain, tracks.held_iff other within upTo]
      dsimp only at from_
      constructor
      · exact fun both finished => both.2 finished.1
      · exact fun unfinished => ⟨by omega, fun finished => unfinished ⟨finished, .inr from_⟩⟩
  · rename_i ahead
    refine ⟨tracks.serving_le, ?_, ?_, ?_⟩
    · intro other kept
      exact tracks.range other (Finset.mem_of_mem_erase kept)
    · intro other finished
      rcases Finset.mem_insert.mp finished with rfl | before
      · exact ⟨Nat.lt_of_le_of_ne low ahead, high⟩
      · exact tracks.early other before
    · intro other from_ upTo
      rw [Finset.mem_erase, Finset.mem_insert, tracks.held_iff other from_ upTo, not_or]

/-- While anybody holds a number, the least number held is served. -/
theorem Tracks.isLeast (tracks : Tracks counter held) (some : held.Nonempty) :
    IsLeast {number | number ∈ held} counter.serving := by
  obtain ⟨number, member⟩ := some
  obtain ⟨low, high⟩ := tracks.range number member
  refine ⟨?_, fun other kept => (tracks.range other kept).1⟩
  have unfinished : counter.serving ∉ counter.finished :=
    fun finished => Nat.lt_irrefl _ (tracks.early _ finished).1
  exact (tracks.held_iff counter.serving (Nat.le_refl _) (Nat.lt_of_le_of_lt low high)).mpr
    unfinished

end Counter

end Zuihitsu.Library
