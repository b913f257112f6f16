/-
# Delta records of a growing list

A list that only grows is sent again and again, with a frame around it. The first
record keeps the frame and the whole list, and each later one what was appended
since. Rebuilding puts the appended parts back together. Records may be lost, and a
list comes back whole exactly when no part of it was in a lost record.
-/

import Mathlib.Data.List.Basic

namespace Zuihitsu.Library

/-- A record of a list that grows in a frame. -/
inductive Delta (σ α : Type) where
  | base (frame : σ) (items : List α)
  | appended (items : List α)

namespace Delta

variable {σ α : Type}

/-- Read one record onto what was rebuilt so far. -/
def onto : Option (σ × List α) → Delta σ α → Option (σ × List α)
  | _, base frame items => some (frame, items)
  | some (frame, held), appended items => some (frame, held ++ items)
  | none, appended _ => none

/-- What some records put back together. -/
def rebuild (records : List (Delta σ α)) : Option (σ × List α) := records.foldl onto none

/-- The record of a list, where a list of the given length was sent before. -/
def record (frame : σ) (items : List α) : Option Nat → Delta σ α
  | none => base frame items
  | some sent => appended (items.drop sent)

/-- A list that was sent in a frame, and whether its record was kept. -/
structure Sent (σ α : Type) where
  frame : σ
  items : List α
  kept : Bool

/-- The records kept of what was sent. -/
def records : Option Nat → List (Sent σ α) → List (Delta σ α)
  | _, [] => []
  | sent, one :: rest =>
    (if one.kept then [record one.frame one.items sent] else []) ++
      records (some one.items.length) rest

/-- Each list sent begins with the one before it. -/
def Grows : List α → List (Sent σ α) → Prop
  | _, [] => True
  | previous, one :: rest => previous <+: one.items ∧ Grows one.items rest

/-- Each list sent was kept, or brought nothing new. -/
def Unbroken : List α → List (Sent σ α) → Prop
  | _, [] => True
  | previous, one :: rest => (one.kept = true ∨ one.items = previous) ∧ Unbroken one.items rest

/-- The list sent last. -/
def latest : List α → List (Sent σ α) → List α
  | previous, [] => previous
  | _, one :: rest => latest one.items rest

variable {frame : σ} {held previous items : List α} {sent : List (Sent σ α)}

/-- What is rebuilt of a list is the list, or falls short of it, and it stays so. -/
theorem foldl_records (grows : Grows previous sent)
    (level : held = previous ∨ held.length < previous.length) :
    ∃ rebuilt, (records (some previous.length) sent).foldl onto (some (frame, held)) =
        some (frame, rebuilt) ∧
      (rebuilt = latest previous sent ∨ rebuilt.length < (latest previous sent).length) ∧
      (rebuilt = latest previous sent ↔ held = previous ∧ Unbroken previous sent) := by
  induction sent generalizing held previous with
  | nil => exact ⟨held, rfl, level, by simp [latest, Unbroken]⟩
  | cons one rest ih =>
    obtain ⟨⟨tail, whole⟩, further⟩ := grows
    have shorter : held.length < previous.length → held ≠ previous := by
      rintro less rfl
      exact Nat.lt_irrefl _ less
    cases kept : one.kept with
    | true =>
      have level' : held ++ tail = one.items ∨ (held ++ tail).length < one.items.length := by
        rw [← whole, List.length_append, List.length_append]
        rcases level with rfl | less
        · exact .inl rfl
        · exact .inr (Nat.add_lt_add_right less _)
      have same : held ++ tail = one.items ↔ held = previous := by
        rw [← whole]
        exact List.append_left_inj tail
      obtain ⟨rebuilt, read, level'', exactly⟩ := ih further level'
      refine ⟨rebuilt, ?_, level'', ?_⟩
      · have appended_ : one.items.drop previous.length = tail := by
          rw [← whole, List.drop_left]
        rw [records, kept, if_pos rfl, List.singleton_append, List.foldl_cons, record, appended_]
        exact read
      · rw [latest, exactly, same, Unbroken, kept]
        simp
    | false =>
      have level' : held = one.items ∨ held.length < one.items.length := by
        rw [← whole, List.length_append]
        rcases level with rfl | less
        · cases tail with
          | nil => exact .inl (List.append_nil _).symm
          | cons => exact .inr (Nat.lt_add_of_pos_right (Nat.zero_lt_succ _))
        · exact .inr (Nat.lt_of_lt_of_le less (Nat.le_add_right _ _))
      have same : held = one.items ↔ held = previous ∧ one.items = previous := by
        rw [← whole]
        constructor
        · rintro rfl
          rcases level with same | less
          · exact ⟨same, same⟩
          · rw [List.length_append] at less
            omega
        · rintro ⟨rfl, same⟩
          exact same.symm
      obtain ⟨rebuilt, read, level'', exactly⟩ := ih further level'
      refine ⟨rebuilt, ?_, level'', ?_⟩
      · rw [records, kept, if_neg Bool.false_ne_true, List.nil_append]
        exact read
      · rw [latest, exactly, same, Unbroken, kept]
        simp [and_assoc]

/-- Without the first record nothing is rebuilt. -/
theorem foldl_records_none :
    (records (some previous.length) sent).foldl onto (none : Option (σ × List α)) = none := by
  induction sent generalizing previous with
  | nil => rfl
  | cons one rest ih =>
    rw [records]
    cases one.kept with
    | true => simpa [record, onto] using ih
    | false => simpa using ih

/-- The records give back the list sent last, in the first one's frame, exactly when the first
was kept and nothing new was in a lost record. -/
theorem rebuild_records {first : Sent σ α} (grows : Grows first.items sent) :
    rebuild (records none (first :: sent)) = some (frame, latest first.items sent) ↔
      frame = first.frame ∧ first.kept = true ∧ Unbroken first.items sent := by
  rw [rebuild, records]
  cases kept : first.kept with
  | true =>
    obtain ⟨rebuilt, read, _, exactly⟩ := @foldl_records _ _ first.frame _ _ _ grows (.inl rfl)
    rw [if_pos rfl, List.singleton_append, List.foldl_cons, record, onto, read, Option.some_inj,
      Prod.mk.injEq, exactly]
    simp [eq_comm]
  | false =>
    rw [if_neg Bool.false_ne_true, List.nil_append, foldl_records_none]
    simp

end Delta

end Zuihitsu.Library
