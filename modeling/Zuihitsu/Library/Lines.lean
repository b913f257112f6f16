/-
# Records one a line

Records written one after the other, each with a mark behind it that none of them holds. A part
of what is written holds the records whose marks it has, and what it has of the next; it ends with
a mark, or is empty, just where it holds whole records only. A reader that goes by the marks gets
the records back, and hands on what stands behind the last mark as a line too.
-/

import Mathlib.Data.List.Basic
import Mathlib.Data.List.Infix

namespace Zuihitsu.Library.Lines

variable {α β : Type}

/-- The records, each with the mark behind it. -/
def text (mark : β) (encode : α → List β) (records : List α) : List β :=
  records.flatMap fun record => encode record ++ [mark]

/-- The lines of a text: what stands before each mark, with what a line's end drops, and what
stands behind the last, if anything. -/
def linesFrom [DecidableEq β] (mark : β) (strip : List β → List β) : (line : List β) → List β → List (List β)
  | [], [] => []
  | line, [] => [line]
  | line, symbol :: rest =>
    if symbol = mark then strip line :: linesFrom mark strip [] rest
    else linesFrom mark strip (line ++ [symbol]) rest

/-- A text that stops behind a mark, or has not begun. -/
def Stops (mark : β) (part : List β) : Prop := part = [] ∨ part.getLast? = some mark

instance [DecidableEq β] (mark : β) (part : List β) : Decidable (Stops mark part) :=
  inferInstanceAs (Decidable (_ ∨ _))

variable {mark : β} {strip : List β → List β} {encode : α → List β}
variable {records more : List α} {line part torn rest : List β}

theorem text_append (records more : List α) :
    text mark encode (records ++ more) = text mark encode records ++ text mark encode more :=
  List.flatMap_append

theorem text_cons (record : α) (records : List α) :
    text mark encode (record :: records) =
      encode record ++ mark :: text mark encode records := by
  rw [text, List.flatMap_cons, List.append_assoc]
  rfl

/-- Each record takes its mark. -/
theorem text_eq_nil_iff : text mark encode records = [] ↔ records = [] := by
  cases records with
  | nil => exact ⟨fun _ => rfl, fun _ => rfl⟩
  | cons => simp [text_cons]

/-- Longer texts of one list of records hold more of them. -/
theorem prefix_of_text_prefix {front back : List α} (one : front <+: records)
    (other : back <+: records) (begins : text mark encode front <+: text mark encode back) :
    front <+: back := by
  rcases List.prefix_or_prefix_of_prefix one other with shorter | ⟨more, rfl⟩
  · exact shorter
  · rw [text_append] at begins
    have none := List.append_right_eq_self.mp
      (List.IsPrefix.eq_of_length (List.prefix_append (text mark encode back) _)
        (Nat.le_antisymm (List.prefix_append _ _).length_le begins.length_le)).symm
    rw [text_eq_nil_iff.mp none, List.append_nil]

variable [DecidableEq β]

/-- A part of a text, cut anywhere: the records whose marks it has, and what it has of the next. -/
theorem split_of_prefix (unmarked : ∀ record ∈ records, mark ∉ encode record)
    (begins : part <+: text mark encode records) :
    ∃ torn, part = text mark encode (records.take (part.count mark)) ++ torn ∧ mark ∉ torn ∧
      (torn ≠ [] → ∃ record ∈ records, torn <+: encode record) := by
  induction records generalizing part with
  | nil =>
    rw [show part = [] from List.prefix_nil.mp begins]
    exact ⟨[], rfl, List.not_mem_nil, fun more => absurd rfl more⟩
  | cons record records ih =>
    rw [List.forall_mem_cons] at unmarked
    rw [text_cons] at begins
    obtain ⟨left, whole⟩ := begins
    rcases List.append_eq_append_iff.mp whole with ⟨further, split, _⟩ | ⟨front, rfl, others⟩
    · -- the part ends within the record
      have within : mark ∉ part := fun held => unmarked.1 (split ▸ List.mem_append_left _ held)
      refine ⟨part, ?_, within, fun _ => ⟨record, List.mem_cons_self, further, split.symm⟩⟩
      rw [List.count_eq_zero.mpr within]
      rfl
    · cases front with
      | nil =>
        rw [List.append_nil]
        refine ⟨encode record, ?_, unmarked.1, fun _ => ⟨record, List.mem_cons_self, [], by simp⟩⟩
        rw [List.count_eq_zero.mpr unmarked.1]
        rfl
      | cons =>
        obtain ⟨rfl, behind⟩ := List.cons.inj others
        obtain ⟨torn, split, clean, of'⟩ := ih unmarked.2 ⟨left, behind.symm⟩
        refine ⟨torn, ?_, clean, fun more => ?_⟩
        · rw [List.count_append, List.count_eq_zero.mpr unmarked.1, List.count_cons_self,
            Nat.zero_add, List.take_succ_cons, text_cons, List.append_assoc, List.cons_append, ← split]
        · obtain ⟨other, member, starts⟩ := of' more
          exact ⟨other, List.mem_cons_of_mem _ member, starts⟩

/-- A part that stops behind a mark holds whole records only. -/
theorem text_of_stops (unmarked : ∀ record ∈ records, mark ∉ encode record)
    (begins : part <+: text mark encode records) (stops : Stops mark part) :
    part = text mark encode (records.take (part.count mark)) := by
  obtain ⟨torn, split, clean, _⟩ := split_of_prefix unmarked begins
  have none : torn = [] := by
    rcases stops with rfl | last
    · exact (List.append_eq_nil_iff.mp split.symm).2
    · by_contra some
      rw [split, List.getLast?_append_of_ne_nil _ some] at last
      exact clean (List.mem_of_getLast? last)
  rw [none, List.append_nil] at split
  exact split

/-! ### Reading -/

theorem linesFrom_append (clean : mark ∉ part) :
    linesFrom mark strip line (part ++ rest) = linesFrom mark strip (line ++ part) rest := by
  induction part generalizing line with
  | nil => simp
  | cons symbol part ih =>
    rw [List.mem_cons, not_or] at clean
    rw [List.cons_append, linesFrom.eq_def]
    cases line with
    | nil | cons => simp [Ne.symm clean.1, ih clean.2]

theorem linesFrom_mark :
    linesFrom mark strip line (mark :: rest) = strip line :: linesFrom mark strip [] rest := by
  rw [linesFrom.eq_def]
  cases line <;> simp

/-- The lines of a text are its records, and what stands behind the last of its marks is one
more. -/
theorem linesFrom_text (unmarked : ∀ record ∈ records, mark ∉ encode record) (clean : mark ∉ torn) :
    linesFrom mark strip [] (text mark encode records ++ torn) =
      (records.map fun record => strip (encode record)) ++ if torn = [] then [] else [torn] := by
  induction records with
  | nil =>
    have read : linesFrom mark strip [] (torn ++ []) = linesFrom mark strip ([] ++ torn) [] :=
      linesFrom_append clean
    rw [List.append_nil] at read
    rw [text, List.flatMap_nil, List.nil_append, read]
    cases torn <;> rfl
  | cons record records ih =>
    rw [List.forall_mem_cons] at unmarked
    rw [text_cons, List.append_assoc, linesFrom_append unmarked.1, List.cons_append, linesFrom_mark,
      ih unmarked.2]
    rfl

end Zuihitsu.Library.Lines
