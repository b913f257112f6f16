/-
# Keyed tables

A table is a list of rows in insertion order together with the fact that no two
rows share a key, so a value of the type is a table its primary key accepts.
The operations are those of a row store: insert with a duplicate check, insert
or ignore, insert or replace, update where, delete where, and upsert. Each comes
with what a lookup by key and a membership test see afterwards.
-/

import Mathlib.Data.List.Nodup
import Mathlib.Data.List.Perm.Basic

namespace Zuihitsu.Library

/-- Rows in insertion order, no two with the same key. -/
structure Table {ρ κ : Type} (key : ρ → κ) where
  rows : List ρ
  nodup : (rows.map key).Nodup

namespace Table

variable {ρ κ : Type} {key : ρ → κ}

@[ext] theorem ext {first second : Table key} (same : first.rows = second.rows) :
    first = second := by
  cases first
  cases second
  congr

instance [DecidableEq ρ] : DecidableEq (Table key) := fun first second =>
  decidable_of_iff (first.rows = second.rows) ⟨ext, fun same => congrArg rows same⟩

instance [Repr ρ] : Repr (Table key) := ⟨fun table prec => reprPrec table.rows prec⟩

instance : Membership ρ (Table key) := ⟨fun table row => row ∈ table.rows⟩

instance [DecidableEq ρ] (row : ρ) (table : Table key) : Decidable (row ∈ table) :=
  inferInstanceAs (Decidable (row ∈ table.rows))

theorem mem_def {row : ρ} {table : Table key} : row ∈ table ↔ row ∈ table.rows := Iff.rfl

/-- Rows with the same key are the same row. -/
theorem eq_of_key_eq {table : Table key} {first second : ρ} (firstMem : first ∈ table)
    (secondMem : second ∈ table) (same : key first = key second) : first = second :=
  List.inj_on_of_nodup_map table.nodup firstMem secondMem same

/-- The table with no rows. -/
def empty : Table key := ⟨[], List.nodup_nil⟩

instance : Inhabited (Table key) := ⟨empty⟩

@[simp] theorem rows_empty : (empty : Table key).rows = [] := rfl

@[simp] theorem not_mem_empty (row : ρ) : row ∉ (empty : Table key) := List.not_mem_nil

/-- Change the rows that match, keeping every key. -/
def update (table : Table key) (matching : ρ → Bool) (change : ρ → ρ)
    (keeps : ∀ row, key (change row) = key row := by intro _; rfl) : Table key where
  rows := table.rows.map fun row => if matching row then change row else row
  nodup := by
    rw [List.map_map]
    have same : (key ∘ fun row => if matching row then change row else row) = key := by
      funext row
      by_cases matches' : matching row
      · simp [matches', keeps]
      · simp [matches']
    rw [same]
    exact table.nodup

/-- Drop the rows that match. -/
def delete (table : Table key) (matching : ρ → Bool) : Table key where
  rows := table.rows.filter fun row => !matching row
  nodup := (List.filter_sublist.map key).nodup table.nodup

section Keyed

variable [DecidableEq κ]

/-- The row under a key. -/
def find (table : Table key) (wanted : κ) : Option ρ :=
  table.rows.find? fun row => decide (key row = wanted)

/-- Whether a key is taken. -/
def contains (table : Table key) (wanted : κ) : Bool := (table.find wanted).isSome

theorem find_eq_some_iff {table : Table key} {wanted : κ} {row : ρ} :
    table.find wanted = some row ↔ row ∈ table ∧ key row = wanted := by
  constructor
  · intro found
    exact ⟨List.mem_of_find?_eq_some found, by simpa using List.find?_some found⟩
  · rintro ⟨member, rfl⟩
    obtain ⟨other, found⟩ := Option.isSome_iff_exists.mp
      (show (table.find (key row)).isSome from List.find?_isSome.mpr ⟨row, member, by simp⟩)
    have otherMem : other ∈ table := List.mem_of_find?_eq_some found
    have otherKey : key other = key row := by simpa using List.find?_some found
    rw [found, eq_of_key_eq otherMem member otherKey]

theorem find_eq_none_iff {table : Table key} {wanted : κ} :
    table.find wanted = none ↔ ∀ row ∈ table, key row ≠ wanted := by
  simp [find, List.find?_eq_none, mem_def]

@[simp] theorem contains_iff {table : Table key} {wanted : κ} :
    table.contains wanted = true ↔ ∃ row ∈ table, key row = wanted := by
  simp [contains, find, List.find?_isSome, mem_def]

theorem contains_of_mem {table : Table key} {row : ρ} (member : row ∈ table) :
    table.contains (key row) = true :=
  contains_iff.mpr ⟨row, member, rfl⟩

theorem contains_eq_false_iff {table : Table key} {wanted : κ} :
    table.contains wanted = false ↔ ∀ row ∈ table, key row ≠ wanted := by
  rw [← Bool.not_eq_true, contains_iff]
  simp

theorem find_isSome_iff {table : Table key} {wanted : κ} :
    (table.find wanted).isSome = true ↔ ∃ row ∈ table, key row = wanted :=
  contains_iff

/-- Add a row at the end, unless its key is taken. -/
def insert (table : Table key) (row : ρ) : Option (Table key) :=
  if fresh : table.contains (key row) = false then
    some {
      rows := table.rows ++ [row]
      nodup := by
        have absent : ∀ other ∈ table, key other ≠ key row := by
          intro other member same
          rw [← same, contains_of_mem member] at fresh
          cases fresh
        rw [List.map_append, List.nodup_append]
        refine ⟨table.nodup, List.nodup_singleton _, ?_⟩
        intro first firstMem second secondMem
        obtain ⟨other, member, rfl⟩ := List.mem_map.mp firstMem
        rw [List.map_cons, List.map_nil, List.mem_singleton] at secondMem
        rw [secondMem]
        exact absent other member }
  else none

theorem insert_eq_none_iff {table : Table key} {row : ρ} :
    table.insert row = none ↔ table.contains (key row) = true := by
  unfold insert
  split <;> simp_all

theorem insert_isSome_iff {table : Table key} {row : ρ} :
    (table.insert row).isSome = true ↔ table.contains (key row) = false := by
  unfold insert
  split <;> simp_all

theorem rows_insert {table after : Table key} {row : ρ} (inserted : table.insert row = some after) :
    after.rows = table.rows ++ [row] := by
  unfold insert at inserted
  split at inserted
  · cases inserted
    rfl
  · cases inserted

theorem mem_insert {table after : Table key} {row other : ρ}
    (inserted : table.insert row = some after) :
    other ∈ after ↔ other ∈ table ∨ other = row := by
  simp [mem_def, rows_insert inserted]

theorem fresh_of_insert {table after : Table key} {row : ρ}
    (inserted : table.insert row = some after) : table.contains (key row) = false := by
  have present : (table.insert row).isSome = true := by rw [inserted]; rfl
  exact insert_isSome_iff.mp present

/-- Add a row at the end unless its key is taken, in which case change nothing. -/
def insertOrIgnore (table : Table key) (row : ρ) : Table key :=
  (table.insert row).getD table

theorem insertOrIgnore_of_contains {table : Table key} {row : ρ}
    (taken : table.contains (key row) = true) : table.insertOrIgnore row = table := by
  rw [insertOrIgnore, insert_eq_none_iff.mpr taken]
  rfl

theorem mem_insertOrIgnore {table : Table key} {row other : ρ} :
    other ∈ table.insertOrIgnore row ↔
      other ∈ table ∨ table.contains (key row) = false ∧ other = row := by
  cases inserted : table.insert row with
  | none =>
    have taken := insert_eq_none_iff.mp inserted
    rw [insertOrIgnore_of_contains taken, taken]
    simp
  | some =>
    rw [insertOrIgnore, inserted, Option.getD_some, mem_insert inserted, fresh_of_insert inserted]
    simp

theorem contains_insertOrIgnore (table : Table key) (row : ρ) :
    (table.insertOrIgnore row).contains (key row) = true := by
  unfold insertOrIgnore
  cases inserted : table.insert row with
  | none => exact insert_eq_none_iff.mp inserted
  | some =>
    exact contains_iff.mpr ⟨row, (mem_insert inserted).mpr (.inr rfl), rfl⟩

/-- Inserting or ignoring a second time changes nothing. -/
theorem insertOrIgnore_idem (table : Table key) (row : ρ) :
    (table.insertOrIgnore row).insertOrIgnore row = table.insertOrIgnore row :=
  insertOrIgnore_of_contains (contains_insertOrIgnore table row)

/-- Remove the row under the same key, then add the row at the end. -/
def insertOrReplace (table : Table key) (row : ρ) : Table key where
  rows := (table.rows.filter fun other => !decide (key other = key row)) ++ [row]
  nodup := by
    rw [List.map_append, List.nodup_append]
    refine ⟨(List.filter_sublist.map key).nodup table.nodup, List.nodup_singleton _, ?_⟩
    intro first firstMem second secondMem
    obtain ⟨other, member, rfl⟩ := List.mem_map.mp firstMem
    rw [List.map_cons, List.map_nil, List.mem_singleton] at secondMem
    rw [secondMem]
    simpa using (List.mem_filter.mp member).2

theorem mem_insertOrReplace {table : Table key} {row other : ρ} :
    other ∈ table.insertOrReplace row ↔ (other ∈ table ∧ key other ≠ key row) ∨ other = row := by
  simp [mem_def, insertOrReplace]

/-- Replacing a second time changes nothing: the row is already last. -/
theorem insertOrReplace_idem (table : Table key) (row : ρ) :
    (table.insertOrReplace row).insertOrReplace row = table.insertOrReplace row := by
  apply ext
  simp [insertOrReplace, List.filter_append, List.filter_filter]

/-- Replacing by each row of a list leaves what the list's keys do not name, and
then what replacing by the list in an empty table leaves. -/
theorem rows_replaceAll (rows : List ρ) (table : Table key) :
    (rows.foldl insertOrReplace table).rows =
      table.rows.filter (fun row => key row ∉ rows.map key) ++
        (rows.foldl insertOrReplace (empty : Table key)).rows := by
  induction rows generalizing table with
  | nil => simp
  | cons row rest ih =>
    rw [List.foldl_cons, ih, List.foldl_cons, ih ((empty : Table key).insertOrReplace row)]
    simp only [insertOrReplace, rows_empty, List.filter_nil, List.nil_append, List.filter_append,
      List.filter_filter, List.append_assoc]
    congr 1
    apply List.filter_congr
    intro other _
    by_cases here : key other = key row
    · simp [here]
    · simp [here]

/-- A replacement is found under its key, and changes nothing under the others. -/
theorem find_insertOrReplace (table : Table key) (row : ρ) (wanted : κ) :
    (table.insertOrReplace row).find wanted =
      if key row = wanted then some row else table.find wanted := by
  ext other
  rw [find_eq_some_iff, mem_insertOrReplace]
  split
  · rename_i same
    subst same
    constructor
    · rintro ⟨⟨_, different⟩ | rfl, same⟩
      · exact absurd same different
      · rfl
    · intro found
      cases found
      exact ⟨.inr rfl, rfl⟩
  · rename_i different
    rw [find_eq_some_iff]
    constructor
    · rintro ⟨⟨member, _⟩ | rfl, same⟩
      · exact ⟨member, same⟩
      · exact absurd same different
    · rintro ⟨member, rfl⟩
      exact ⟨.inl ⟨member, fun same => different same.symm⟩, rfl⟩

/-- Replacing by each row of a list leaves the list's last row under a key. -/
theorem find_replaceAll (rows : List ρ) (table : Table key) (wanted : κ) :
    (rows.foldl insertOrReplace table).find wanted =
      (rows.reverse.find? fun row => key row = wanted).or (table.find wanted) := by
  induction rows generalizing table with
  | nil => rfl
  | cons row rest ih =>
    rw [List.foldl_cons, ih, find_insertOrReplace, List.reverse_cons, List.find?_append]
    cases rest.reverse.find? fun row => key row = wanted with
    | some => rfl
    | none =>
      by_cases same : key row = wanted
      · simp [same]
      · simp [same]

/-- Change the row under the key by what the new row brings, or add the new row
at the end. -/
def upsert (table : Table key) (row : ρ) (merge : ρ → ρ)
    (keeps : ∀ other, key (merge other) = key other := by intro _; rfl) : Table key :=
  match table.insert row with
  | some after => after
  | none => table.update (fun other => decide (key other = key row)) merge keeps

end Keyed

section Lookup

variable (table : Table key) (matching : ρ → Bool) (change : ρ → ρ)
variable (keeps : ∀ row, key (change row) = key row)

@[simp] theorem rows_update :
    (table.update matching change keeps).rows =
      table.rows.map fun row => if matching row then change row else row := rfl

@[simp] theorem rows_delete :
    (table.delete matching).rows = table.rows.filter fun row => !matching row := rfl

variable {table matching change keeps}

theorem mem_update {row : ρ} :
    row ∈ table.update matching change keeps ↔
      ∃ before ∈ table, row = if matching before then change before else before := by
  simp only [mem_def, rows_update, List.mem_map]
  constructor <;> rintro ⟨before, member, same⟩ <;> exact ⟨before, member, same.symm⟩

theorem mem_delete {row : ρ} : row ∈ table.delete matching ↔ row ∈ table ∧ matching row = false := by
  simp [mem_def, rows_delete]

/-- Deleting the rows under a key leaves the other keys alone. -/
theorem find_delete_key [DecidableEq κ] (gone wanted : κ) :
    (table.delete fun row => key row = gone).find wanted =
      if gone = wanted then none else table.find wanted := by
  split
  · rename_i same
    rw [find_eq_none_iff]
    intro row member
    simpa [same] using (mem_delete.mp member).2
  · rename_i different
    ext row
    rw [find_eq_some_iff, find_eq_some_iff, mem_delete]
    refine and_congr_left fun same => and_iff_left ?_
    simp [same, Ne.symm different]

theorem find_update [DecidableEq κ] (wanted : κ) :
    (table.update matching change keeps).find wanted =
      (table.find wanted).map fun row => if matching row then change row else row := by
  simp only [find, rows_update, List.find?_map]
  congr 1
  apply congrArg (fun test => table.rows.find? test)
  funext row
  by_cases matches' : matching row
  · simp [matches', keeps]
  · simp [matches']

theorem contains_update [DecidableEq κ] (wanted : κ) :
    (table.update matching change keeps).contains wanted = table.contains wanted := by
  simp [contains, find_update]

/-- What a key finds among changed rows, or else in a row added after them. -/
theorem find_of_rows [DecidableEq κ] {after : Table key} {extra : Option ρ}
    (rows : after.rows = table.rows.map change ++ extra.toList)
    (keeps : ∀ row, key (change row) = key row) (wanted : κ) :
    after.find wanted =
      ((table.find wanted).map change).or (extra.filter fun row => key row = wanted) := by
  simp only [find, rows, List.find?_append, List.find?_map, Function.comp_def, keeps]
  congr 1
  cases extra with
  | none => rfl
  | some row =>
    by_cases same : key row = wanted
    · simp [Option.filter, same]
    · simp [Option.filter, same]

/-- An update that changes no matching row is no update. -/
theorem update_eq_self (fixed : ∀ row ∈ table, matching row = true → change row = row) :
    table.update matching change keeps = table := by
  apply ext
  rw [rows_update]
  conv_rhs => rw [← List.map_id table.rows]
  apply List.map_congr_left
  intro row member
  by_cases matches' : matching row
  · simp [matches', fixed row member matches']
  · simp [matches']

theorem update_eq_self_iff :
    table.update matching change keeps = table ↔
      ∀ row ∈ table, matching row = true → change row = row := by
  refine ⟨fun same row member matches' => ?_, update_eq_self⟩
  have rows : (table.rows.map fun row => if matching row then change row else row) =
      table.rows.map id := by
    rw [List.map_id]
    exact congrArg Table.rows same
  have fixed := List.map_inj_left.mp rows row member
  simpa [matches'] using fixed

/-- An update that its own result already satisfies is absorbed. -/
theorem update_idem
    (absorbs : ∀ row, matching row = true → matching (change row) = true →
      change (change row) = change row) :
    (table.update matching change keeps).update matching change keeps =
      table.update matching change keeps := by
  apply update_eq_self
  intro row member matches'
  obtain ⟨before, _, rfl⟩ := mem_update.mp member
  by_cases earlier : matching before
  · simp only [earlier, if_true] at matches' ⊢
    exact absorbs before earlier matches'
  · simp only [earlier, Bool.false_eq_true, if_false] at matches'

/-- A deletion that matches no row is no deletion. -/
theorem delete_eq_self (absent : ∀ row ∈ table, matching row = false) :
    table.delete matching = table := by
  apply ext
  rw [rows_delete, List.filter_eq_self]
  intro row member
  simp [absent row member]

/-- A view of the rows that the deleted ones have no part in does not see a deletion. -/
theorem filterMap_delete {β : Type} {view : ρ → Option β}
    (unseen : ∀ row ∈ table, matching row = true → view row = none) :
    (table.delete matching).rows.filterMap view = table.rows.filterMap view := by
  rw [rows_delete, List.filterMap_filter]
  refine List.filterMap_congr fun row member => ?_
  cases gone : matching row with
  | false => simp
  | true => simp [unseen row member gone]

theorem delete_idem : (table.delete matching).delete matching = table.delete matching :=
  delete_eq_self fun _ member => (mem_delete.mp member).2

end Lookup

section ReplaceAll

variable [DecidableEq κ]

theorem mem_replaceAll {rows : List ρ} {table : Table key} {row : ρ}
    (member : row ∈ rows.foldl insertOrReplace table) : row ∈ table ∨ row ∈ rows := by
  induction rows generalizing table with
  | nil => exact .inl member
  | cons first rest ih =>
    rcases ih member with replaced | later
    · rcases mem_insertOrReplace.mp replaced with ⟨old, _⟩ | rfl
      · exact .inl old
      · exact .inr List.mem_cons_self
    · exact .inr (List.mem_cons_of_mem _ later)

/-- Dropping the rows of one owner and replacing by the owner's new rows comes out
the same after part of it was done. -/
theorem replaceAll_resumes {rows : List ρ} {own : ρ → Bool} (owned : ∀ row ∈ rows, own row = true)
    (count : Nat) (table : Table key) :
    rows.foldl insertOrReplace
        (((rows.take count).foldl insertOrReplace (table.delete own)).delete own) =
      rows.foldl insertOrReplace (table.delete own) := by
  apply ext
  rw [rows_replaceAll, rows_replaceAll rows (table.delete own)]
  congr 1
  have dropped : (((rows.take count).foldl insertOrReplace (empty : Table key)).rows.filter
      fun row => !own row) = [] := by
    rw [List.filter_eq_nil_iff]
    intro row member
    have part := (mem_replaceAll member).resolve_left (not_mem_empty row)
    simp [owned row (List.mem_of_mem_take part)]
  change List.filter _ (List.filter _ _) = _
  rw [rows_replaceAll (rows.take count), List.filter_append, dropped, List.append_nil,
    List.filter_filter, List.filter_filter]
  apply List.filter_congr
  intro row member
  have spared : own row = false := (mem_delete.mp member).2
  by_cases named : key row ∈ rows.map key
  · simp [named]
  · have notYet : key row ∉ (rows.map key).take count :=
      fun part => named (List.mem_of_mem_take part)
    simp [named, notYet, spared]

end ReplaceAll

section Upsert

variable [DecidableEq κ] {table : Table key} {row : ρ} {merge : ρ → ρ}
variable {keeps : ∀ other, key (merge other) = key other}

theorem upsert_of_fresh {after : Table key} (inserted : table.insert row = some after) :
    table.upsert row merge keeps = after := by
  simp [upsert, inserted]

theorem upsert_of_taken (taken : table.contains (key row) = true) :
    table.upsert row merge keeps =
      table.update (fun other => decide (key other = key row)) merge keeps := by
  simp [upsert, insert_eq_none_iff.mpr taken]

theorem mem_upsert {other : ρ} :
    other ∈ table.upsert row merge keeps ↔
      (other ∈ table ∧ key other ≠ key row) ∨
      (∃ before ∈ table, key before = key row ∧ other = merge before) ∨
      (table.contains (key row) = false ∧ other = row) := by
  cases taken : table.contains (key row) with
  | false =>
    obtain ⟨after, inserted⟩ := Option.isSome_iff_exists.mp (insert_isSome_iff.mpr taken)
    rw [upsert_of_fresh inserted, mem_insert inserted]
    have absent : ∀ before ∈ table, key before ≠ key row := by
      intro before member same
      rw [← same, contains_of_mem member] at taken
      cases taken
    constructor
    · rintro (member | rfl)
      · exact .inl ⟨member, absent other member⟩
      · exact .inr (.inr ⟨rfl, rfl⟩)
    · rintro (⟨member, _⟩ | ⟨before, member, same, _⟩ | ⟨_, same⟩)
      · exact .inl member
      · exact absurd same (absent before member)
      · exact .inr same
  | true =>
    rw [upsert_of_taken taken, mem_update]
    constructor
    · rintro ⟨before, member, rfl⟩
      by_cases same : key before = key row
      · exact .inr (.inl ⟨before, member, same, by simp [same]⟩)
      · exact .inl ⟨by simpa [same] using member, by simp [same]⟩
    · rintro (⟨member, different⟩ | ⟨before, member, same, rfl⟩ | ⟨fresh, _⟩)
      · exact ⟨other, member, by simp [different]⟩
      · exact ⟨before, member, by simp [same]⟩
      · cases fresh

theorem contains_upsert : (table.upsert row merge keeps).contains (key row) = true := by
  cases taken : table.contains (key row) with
  | false =>
    exact contains_iff.mpr ⟨row, mem_upsert.mpr (.inr (.inr ⟨taken, rfl⟩)), rfl⟩
  | true =>
    rw [upsert_of_taken taken, contains_update, taken]

/-- Upserting loses no key. -/
theorem contains_upsert_of_contains {wanted : κ} (there : table.contains wanted = true) :
    (table.upsert row merge keeps).contains wanted = true := by
  cases taken : table.contains (key row) with
  | false =>
    obtain ⟨after, inserted⟩ := Option.isSome_iff_exists.mp (insert_isSome_iff.mpr taken)
    obtain ⟨other, member, rfl⟩ := contains_iff.mp there
    rw [upsert_of_fresh inserted]
    exact contains_of_mem ((mem_insert inserted).mpr (.inl member))
  | true => rw [upsert_of_taken taken, contains_update, there]

/-- A change of the rows under a key that is not taken changes nothing. -/
theorem map_of_fresh {wanted : κ} (fresh : table.contains wanted = false) (change : ρ → ρ) :
    (table.rows.map fun other => if key other = wanted then change other else other) =
      table.rows := by
  conv_rhs => rw [← List.map_id table.rows]
  apply List.map_congr_left
  intro other member
  rw [if_neg (contains_eq_false_iff.mp fresh other member), id_eq]

/-- An upsert merges into the row under the key, and adds the new row when there
is none. -/
theorem rows_upsert :
    (table.upsert row merge keeps).rows =
      (table.rows.map fun other => if key other = key row then merge other else other) ++
        if table.contains (key row) then [] else [row] := by
  cases taken : table.contains (key row) with
  | false =>
    obtain ⟨after, inserted⟩ := Option.isSome_iff_exists.mp (insert_isSome_iff.mpr taken)
    rw [upsert_of_fresh inserted, rows_insert inserted, map_of_fresh taken]
    simp
  | true =>
    rw [upsert_of_taken taken, rows_update]
    simp

/-- What an upsert leaves under a key. -/
theorem find_upsert (wanted : κ) :
    (table.upsert row merge keeps).find wanted =
      if key row = wanted then some ((table.find wanted).elim row merge) else table.find wanted := by
  cases taken : table.contains (key row) with
  | false =>
    obtain ⟨after, inserted⟩ := Option.isSome_iff_exists.mp (insert_isSome_iff.mpr taken)
    rw [upsert_of_fresh inserted, find, rows_insert inserted, List.find?_append]
    split
    · rename_i same
      have absent : table.rows.find? (fun other => key other = wanted) = none := by
        rw [← same]
        exact find_eq_none_iff.mpr (contains_eq_false_iff.mp taken)
      simp [find, absent, same]
    · rename_i different
      simp [find, different]
  | true =>
    rw [upsert_of_taken taken, find_update]
    split
    · rename_i same
      obtain ⟨old, found⟩ := Option.isSome_iff_exists.mp (find_isSome_iff.mpr (contains_iff.mp taken))
      have here := (find_eq_some_iff.mp found).2
      rw [← same, found]
      simp [here]
    · rename_i different
      cases found : table.find wanted with
      | none => rfl
      | some =>
        have here := (find_eq_some_iff.mp found).2
        simp [here, Ne.symm different]

/-- A view of the rows that merging keeps and the new row has no part in does not see
an upsert. -/
theorem filterMap_upsert {β : Type} {view : ρ → Option β}
    (merged : ∀ other, view (merge other) = view other) (unseen : view row = none) :
    (table.upsert row merge keeps).rows.filterMap view = table.rows.filterMap view := by
  rw [rows_upsert, List.filterMap_append, List.filterMap_map]
  have added : (if table.contains (key row) then [] else [row]).filterMap view = [] := by
    split
    · rfl
    · simp [unseen]
  rw [added, List.append_nil]
  refine List.filterMap_congr fun other _ => ?_
  simp only [Function.comp_apply]
  split
  · exact merged other
  · rfl

/-- An upsert is absorbed by a second one if its own row and what it merged are. -/
theorem upsert_idem (own : merge row = row)
    (idem : ∀ other, merge (merge other) = merge other) :
    (table.upsert row merge keeps).upsert row merge keeps = table.upsert row merge keeps := by
  rw [upsert_of_taken contains_upsert]
  refine update_eq_self fun other member same => ?_
  rcases mem_upsert.mp member with ⟨_, different⟩ | ⟨before, _, _, rfl⟩ | ⟨_, rfl⟩
  · exact absurd (of_decide_eq_true same) different
  · exact idem before
  · exact own

end Upsert

end Table

end Zuihitsu.Library
