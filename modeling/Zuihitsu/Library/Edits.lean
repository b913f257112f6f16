/-
# Edit distance

How many single edits turn one text into another: the distance is the least number of
insertions, deletions and substitutions that do. It is symmetric under reversal, which is
what lets a program fill its table by prefixes, and it is at least the difference in length.

The rolling program keeps one row of the table at a time.
-/

import Mathlib.Data.List.Basic
import Mathlib.Order.MinMax

namespace Zuihitsu.Library

variable {α : Type}

/-- So many edits turn one list into the other. -/
inductive Edits : List α → List α → Nat → Prop
  | nil : Edits [] [] 0
  | keep (value : α) {one other : List α} {count : Nat} (rest : Edits one other count) :
    Edits (value :: one) (value :: other) count
  | substitute (first second : α) {one other : List α} {count : Nat}
    (rest : Edits one other count) : Edits (first :: one) (second :: other) (count + 1)
  | delete (value : α) {one other : List α} {count : Nat} (rest : Edits one other count) :
    Edits (value :: one) other (count + 1)
  | insert (value : α) {one other : List α} {count : Nat} (rest : Edits one other count) :
    Edits one (value :: other) (count + 1)

namespace Edits

variable {one other : List α} {count : Nat}

theorem append {more further : List α} {extra : Nat} (edits : Edits one other count)
    (last : Edits more further extra) :
    Edits (one ++ more) (other ++ further) (count + extra) := by
  induction edits with
  | nil => simpa using last
  | keep value _ ih => exact .keep value ih
  | substitute first second _ ih => exact Nat.add_right_comm .. ▸ .substitute first second ih
  | delete value _ ih => exact Nat.add_right_comm .. ▸ .delete value ih
  | insert value _ ih => exact Nat.add_right_comm .. ▸ .insert value ih

theorem reverse (edits : Edits one other count) : Edits one.reverse other.reverse count := by
  induction edits with
  | nil => exact .nil
  | keep value _ ih => simpa using ih.append (.keep value .nil)
  | substitute first second _ ih => simpa using ih.append (.substitute first second .nil)
  | delete value _ ih => simpa using ih.append (.delete value .nil)
  | insert value _ ih => simpa using ih.append (.insert value .nil)

/-- Each edit changes the length by one at most. -/
theorem length_le (edits : Edits one other count) :
    one.length ≤ other.length + count ∧ other.length ≤ one.length + count := by
  induction edits with
  | nil => simp
  | keep | substitute | delete | insert =>
    simp only [List.length_cons]
    omega

theorem deletions (one : List α) : Edits one [] one.length := by
  induction one with
  | nil => exact .nil
  | cons value rest ih => exact .delete value ih

theorem insertions (other : List α) : Edits [] other other.length := by
  induction other with
  | nil => exact .nil
  | cons value rest ih => exact .insert value ih

end Edits

section Distance

variable [DecidableEq α]

/-- The least number of edits that turn one list into the other. -/
def distance : List α → List α → Nat
  | [], other => other.length
  | first :: one, other => along first one (distance one) other
where
  /-- The distances of a list from the parts of another, given those of its tail. -/
  along (first : α) (one : List α) (tail : List α → Nat) : List α → Nat
    | [] => one.length + 1
    | second :: other =>
      min (min (tail (second :: other) + 1) (along first one tail other + 1))
        (tail other + if first = second then 0 else 1)

@[simp] theorem distance_nil_left (other : List α) : distance [] other = other.length := rfl

@[simp] theorem distance_nil_right (one : List α) : distance one [] = one.length := by
  cases one <;> rfl

theorem distance_cons_cons (first second : α) (one other : List α) :
    distance (first :: one) (second :: other) =
      min (min (distance one (second :: other) + 1) (distance (first :: one) other + 1))
        (distance one other + if first = second then 0 else 1) := rfl

/-- So many edits do. -/
theorem edits_distance (one other : List α) : Edits one other (distance one other) := by
  induction one generalizing other with
  | nil => exact .insertions other
  | cons first one ih =>
    induction other with
    | nil => exact .deletions (first :: one)
    | cons second other inner =>
      rw [distance_cons_cons]
      rcases min_choice (min (distance one (second :: other) + 1)
        (distance (first :: one) other + 1))
          (distance one other + if first = second then 0 else 1) with left | right
      · rw [left]
        rcases min_choice (distance one (second :: other) + 1)
          (distance (first :: one) other + 1) with above | before
        · rw [above]
          exact .delete first (ih (second :: other))
        · rw [before]
          exact .insert second inner
      · rw [right]
        by_cases same : first = second
        · subst same
          simpa using Edits.keep first (ih other)
        · simpa [same] using Edits.substitute first second (ih other)

/-- No fewer do. -/
theorem distance_le {one other : List α} {count : Nat} (edits : Edits one other count) :
    distance one other ≤ count := by
  -- A deletion or an insertion may leave one list empty, where the length tells.
  induction edits with
  | nil => exact le_rfl
  | @keep value one other count rest ih =>
    rw [distance_cons_cons, if_pos rfl]
    exact (min_le_right ..).trans ih
  | @substitute first second one other count rest ih =>
    rw [distance_cons_cons]
    refine (min_le_right ..).trans (Nat.add_le_add ih ?_)
    split <;> omega
  | @delete value one other count rest ih =>
    cases other with
    | nil => simpa using ih
    | cons =>
      rw [distance_cons_cons]
      exact (min_le_left ..).trans ((min_le_left ..).trans (Nat.succ_le_succ ih))
  | @insert value one other count rest ih =>
    cases one with
    | nil => simpa using ih
    | cons =>
      rw [distance_cons_cons]
      exact (min_le_left ..).trans ((min_le_right ..).trans (Nat.succ_le_succ ih))

theorem distance_reverse (one other : List α) :
    distance one.reverse other.reverse = distance one other := by
  refine le_antisymm (distance_le (edits_distance one other).reverse) ?_
  have back := (edits_distance one.reverse other.reverse).reverse
  rw [List.reverse_reverse, List.reverse_reverse] at back
  exact distance_le back

/-- The distance is at least the difference in length. -/
theorem length_le_distance (one other : List α) :
    one.length ≤ other.length + distance one other ∧
      other.length ≤ one.length + distance one other :=
  (edits_distance one other).length_le

/-! ### One row at a time -/

/-- The rest of a row: from the cell before, and the row above from the same place on. -/
def fillRow (value : α) : Nat → List Nat → List α → List Nat
  | left, diagonal :: above :: previous, other :: others =>
    let cell := min (min (above + 1) (left + 1)) (diagonal + if value = other then 0 else 1)
    cell :: fillRow value cell (above :: previous) others
  | _, _, _ => []

/-- Fill the rows of a list, one after the other. -/
def fillRows (others : List α) : Nat → List Nat → List α → List Nat
  | _, row, [] => row
  | index, row, value :: rest =>
    fillRows others (index + 1) ((index + 1) :: fillRow value (index + 1) row others) rest

/-- The cells of the row of a list read so far, backwards. -/
def rowOf (one : List α) : List α → List α → List Nat
  | other, [] => [distance one other]
  | other, value :: rest => distance one other :: rowOf one (value :: other) rest

theorem fillRow_rowOf (value : α) (one other rest : List α) :
    distance (value :: one) other ::
      fillRow value (distance (value :: one) other) (rowOf one other rest) rest =
        rowOf (value :: one) other rest := by
  induction rest generalizing other with
  | nil => rfl
  | cons next rest ih =>
    have cell := distance_cons_cons value next one other
    have head : ∃ cells, rowOf one (next :: other) rest = distance one (next :: other) :: cells := by
      cases rest <;> exact ⟨_, rfl⟩
    obtain ⟨cells, starts⟩ := head
    rw [rowOf, rowOf, starts, fillRow, ← cell, ← starts, ih]

/-- Filling the rows fills the row of the whole list. -/
theorem fillRows_rowOf (one rest others : List α) :
    fillRows others one.length (rowOf one [] others) rest =
      rowOf (rest.reverse ++ one) [] others := by
  induction rest generalizing one with
  | nil => rfl
  | cons value rest ih =>
    have next := fillRow_rowOf value one [] others
    rw [distance_nil_right, List.length_cons] at next
    rw [fillRows, next, ← List.length_cons (a := value), ih, List.reverse_cons, List.append_assoc]
    rfl

/-- The first row counts up. -/
theorem rowOf_nil (other rest : List α) :
    rowOf [] other rest = List.range' other.length (rest.length + 1) := by
  induction rest generalizing other with
  | nil => rfl
  | cons value rest ih =>
    rw [rowOf, ih, distance_nil_left, List.length_cons, List.length_cons,
      List.range'_succ (n := rest.length + 1)]

theorem getLast?_rowOf (one other rest : List α) :
    (rowOf one other rest).getLast? = some (distance one (rest.reverse ++ other)) := by
  induction rest generalizing other with
  | nil => rfl
  | cons value rest ih =>
    rw [rowOf, List.getLast?_cons, ih, Option.getD_some, List.reverse_cons, List.append_assoc]
    rfl

/-- The last cell of the last row is the distance. -/
theorem getLast?_fillRows (one other : List α) :
    (fillRows other 0 (List.range (other.length + 1)) one).getLast? = some (distance one other) := by
  have first : List.range (other.length + 1) = rowOf [] [] other := by
    rw [rowOf_nil, List.range_eq_range', List.length_nil]
  have filled := fillRows_rowOf [] one other
  rw [List.length_nil, List.append_nil] at filled
  rw [first, filled, getLast?_rowOf, List.append_nil, distance_reverse]

end Distance

end Zuihitsu.Library
