/-
# Cells that catch up with a log

A cell is to hold what the last word of a log makes of it. Runs catch it up: a run
reads the stretch of log past a cursor, and later writes what its stretch comes to
and puts the cursor at the stretch's end, whatever other runs did in between. A cell
is abreast of the log at a cursor if it may only be wrong where an event past the
cursor still has a word on it.
-/

import Mathlib.Data.List.Basic

namespace Zuihitsu.Library.Cursor

section Words

variable {ε ω : Type} {word : ε → Option ω}

/-- The last word of a stretch of log on a cell. -/
def lastWord (word : ε → Option ω) (events : List ε) : Option ω :=
  events.reverse.findSome? word

@[simp] theorem lastWord_nil : lastWord word [] = none := rfl

@[simp] theorem lastWord_singleton (event : ε) : lastWord word [event] = word event := by
  simp [lastWord]

/-- The later stretch has the last word, if it has one. -/
theorem lastWord_append (earlier later : List ε) :
    lastWord word (earlier ++ later) = (lastWord word later).or (lastWord word earlier) := by
  rw [lastWord, List.reverse_append, List.findSome?_append]
  rfl

theorem lastWord_append_eq_none {earlier later : List ε} :
    lastWord word (earlier ++ later) = none ↔
      lastWord word later = none ∧ lastWord word earlier = none := by
  rw [lastWord_append, Option.or_eq_none_iff]

theorem lastWord_eq_none {events : List ε} :
    lastWord word events = none ↔ ∀ event ∈ events, word event = none := by
  simp [lastWord, List.findSome?_eq_none_iff]

/-- The last word is some event's. -/
theorem exists_of_lastWord {events : List ε} {last : ω} (said : lastWord word events = some last) :
    ∃ event ∈ events, word event = some last := by
  obtain ⟨event, member, spoken⟩ := List.exists_of_findSome?_eq_some said
  exact ⟨event, List.mem_reverse.mp member, spoken⟩

/-- A log without a word past a position has its last word before it. -/
theorem lastWord_take {log : List ε} {position : Nat}
    (silent : lastWord word (log.drop position) = none) :
    lastWord word log = lastWord word (log.take position) := by
  conv_lhs => rw [← List.take_append_drop position log]
  rw [lastWord_append, silent, Option.none_or]

/-- What is silent past a position is silent past every later one. -/
theorem silent_of_le {log : List ε} {position further : Nat} (later : position ≤ further)
    (silent : lastWord word (log.drop position) = none) :
    lastWord word (log.drop further) = none := by
  rw [lastWord_eq_none] at silent ⊢
  intro event member
  have split : log.drop further = (log.drop position).drop (further - position) := by
    rw [List.drop_drop, Nat.add_sub_cancel' later]
  rw [split] at member
  exact silent event (List.mem_of_mem_drop member)

end Words

section Cells

variable {ε ω β : Type} {word : ε → Option ω} {means : ω → Option β}
variable {log : List ε} {cursor : Nat} {cell : Option β}

/-- Unless an event past the cursor has a word on it, the cell holds what the log's last
word means. -/
def Abreast (word : ε → Option ω) (means : ω → Option β) (log : List ε) (cursor : Nat)
    (cell : Option β) : Prop :=
  lastWord word (log.drop cursor) = none → cell = (lastWord word log).bind means

theorem Abreast.fresh : Abreast word means [] cursor none := fun _ => rfl

/-- A cell abreast of the log at its end holds what the last word means. -/
theorem Abreast.settled (abreast : Abreast word means log log.length cell) :
    cell = (lastWord word log).bind means := by
  refine abreast ?_
  rw [List.drop_length]
  rfl

/-- A new event has its word past the cursor. -/
theorem Abreast.concat (abreast : Abreast word means log cursor cell) (event : ε)
    (within : cursor ≤ log.length) : Abreast word means (log ++ [event]) cursor cell := by
  intro silent
  rw [List.drop_append_of_le_length within, lastWord_append_eq_none] at silent
  rw [lastWord_append, silent.1, Option.none_or]
  exact abreast silent.2

/-- A run that read the stretch between two positions leaves the cell abreast at the
second, wherever the cursor stood: if no event past the stretch has a word on the cell, then
what it wrote is what the stretch's last word means, and if the stretch has none, it wrote
nothing and no event between the cursor and the stretch has one. -/
theorem Abreast.finish {start stop : Nat} {written : Option β}
    (abreast : Abreast word means log cursor cell) (ordered : start ≤ stop)
    (spoken : lastWord word (log.drop stop) = none →
      ∀ last, lastWord word ((log.take stop).drop start) = some last → written = means last)
    (unspoken : lastWord word (log.drop stop) = none →
      lastWord word ((log.take stop).drop start) = none →
        written = cell ∧ lastWord word ((log.take start).drop cursor) = none) :
    Abreast word means log stop written := by
  intro silent
  have split : log.take stop = log.take start ++ (log.take stop).drop start := by
    conv_lhs => rw [← List.take_append_drop start (log.take stop)]
    rw [List.take_take, Nat.min_eq_left ordered]
  rw [lastWord_take silent, split, lastWord_append]
  cases said : lastWord word ((log.take stop).drop start) with
  | some last => exact spoken silent last said
  | none =>
    obtain ⟨kept, passed⟩ := unspoken silent said
    -- nothing past the start has a word, so nothing past the cursor does
    have pastStart : lastWord word (log.drop start) = none := by
      have parts : log.drop start = (log.take stop).drop start ++ log.drop stop := by
        rw [List.drop_take]
        conv_lhs => rw [← List.take_append_drop (stop - start) (log.drop start)]
        rw [List.drop_drop, Nat.add_sub_cancel' ordered]
      rw [parts]
      exact lastWord_append_eq_none.mpr ⟨silent, said⟩
    have pastCursor : lastWord word (log.drop cursor) = none := by
      rcases Nat.le_total start cursor with ahead | behind
      · exact silent_of_le ahead pastStart
      · have parts : log.drop cursor = (log.take start).drop cursor ++ log.drop start := by
          rw [List.drop_take]
          conv_lhs => rw [← List.take_append_drop (start - cursor) (log.drop cursor)]
          rw [List.drop_drop, Nat.add_sub_cancel' behind]
        rw [parts]
        exact lastWord_append_eq_none.mpr ⟨pastStart, passed⟩
    rw [Option.none_or, kept, abreast pastCursor, lastWord_take pastStart]

end Cells

end Zuihitsu.Library.Cursor
