/-
# What has come due

The rows the scheduler selects from the graph it reads, and the firings it appends
for them. A concrete occurrence is due once it has passed, if it lay ahead when the
entry was asserted and the entry has not fired; a recurring entry is due when the
next instance of its rule after its last firing has passed.
-/

import Zuihitsu.Graph.Reads
import Zuihitsu.Graph.Resume
import Zuihitsu.Schedule.Recurrence

namespace Zuihitsu.Schedule

open Zuihitsu.Core Zuihitsu.Graph Zuihitsu.Library

/-! ### The rows selected -/

/-- The join and the conditions every query of the scheduler has: an entry nothing has
superseded, of a memory that is not deleted. -/
def isLive (graph : Graph) (row : EntryRow) : Bool :=
  row.supersededBy.isNone && (graph.liveRow row.memoryId).isSome

/-- Order by occurrence, then by position. -/
def soonestFirst (first second : EntryRow) : Bool :=
  match first.occurrence.bounds.sort, second.occurrence.bounds.sort with
  | some one, some two => one.millis < two.millis || (one = two && first.seq ≤ second.seq)
  | _, _ => first.seq ≤ second.seq

/-- A concrete occurrence has come due and has not fired. -/
def occurrenceDue (now : Timestamp) (row : EntryRow) : Bool :=
  row.firedAt.isNone && row.occurrence.bounds.sort.any fun sort =>
    row.assertedAt.millis < sort.millis && sort.millis ≤ now.millis

/-- The live entries whose concrete occurrence has come due, with their memories. -/
def dueOccurrences (graph : Graph) (now : Timestamp) : List (MemoryId × EntryId) :=
  ((graph.entries.rows.filter fun row => isLive graph row && occurrenceDue now row).insertionSort
    fun first second => soonestFirst first second).map fun row => (row.memoryId, row.entryId)

/-- The rule of an entry with no concrete occurrence. An unresolved reference to an anchor
has none either, and no rule. -/
def ruleOf (row : EntryRow) : Option String :=
  match row.occurrence.occurredAt with
  | some (.recurring rule) => if row.occurrence.bounds.sort.isNone then some rule else none
  | _ => none

/-- When an entry last fired by its row, or was asserted when it has not. -/
def baseline (row : EntryRow) : Timestamp := row.firedAt.getD row.assertedAt

/-- Whether the next instance of a row's rule has come due. There is no answer where a stored
instant cannot be represented or the thread stops. -/
def instanceDue (calendar : Calendar) (overflowChecks : Bool) (now : Timestamp) (row : EntryRow) :
    Option Bool :=
  match ruleOf row with
  | none => some false
  | some rule =>
    if calendar.represents row.assertedAt && calendar.represents (baseline row) then
      (nextOccurrence calendar overflowChecks rule row.assertedAt (baseline row)).map fun next =>
        next.any fun instant => instant.millis ≤ now.millis
    else none

/-- The rows a test selects, if it answers for all. -/
def selected (test : EntryRow → Option Bool) : List EntryRow → Option (List EntryRow)
  | [] => some []
  | row :: rest =>
    (test row).bind fun due =>
      (selected test rest).map fun more => if due then row :: more else more

/-- The rows whose next instance is computed. -/
def awaitsInstance (graph : Graph) (row : EntryRow) : Bool :=
  isLive graph row && row.occurrence.bounds.sort.isNone && row.occurrence.occurredAt.isSome

/-- The live recurring entries the next instance of which has come due, with their memories. -/
def dueRecurring (calendar : Calendar) (overflowChecks : Bool) (graph : Graph) (now : Timestamp) :
    Option (List (MemoryId × EntryId)) :=
  (selected (instanceDue calendar overflowChecks now)
    (graph.entryRowsWhere (awaitsInstance graph))).map
      fun rows => rows.map fun row => (row.memoryId, row.entryId)

/-- The payloads one call appends: a firing at its instant for every entry due. -/
def fireDue (calendar : Calendar) (overflowChecks : Bool) (graph : Graph) (now : Timestamp) :
    Option (List EventPayload) :=
  (dueRecurring calendar overflowChecks graph now).map fun recurring =>
    (dueOccurrences graph now ++ recurring).map fun due => .scheduledJobFired due.2 due.1 now

/-! ### The selection, row by row -/

section Selection

variable {calendar : Calendar} {overflowChecks : Bool} {graph : Graph} {now : Timestamp}
variable {row : EntryRow} {entry : EntryId}

theorem selected_eq_filter {test : EntryRow → Option Bool} {holds : EntryRow → Bool} :
    ∀ rows : List EntryRow, (∀ row ∈ rows, test row = some (holds row)) →
      selected test rows = some (rows.filter holds)
  | [], _ => rfl
  | row :: rest, answers => by
    have here : test row = some (holds row) := answers row (by simp)
    have later := selected_eq_filter rest fun other member => answers other (by simp [member])
    rw [selected, here, Option.bind_some, later, Option.map_some, List.filter_cons]

/-- A row is due, by the columns the scheduler reads. -/
def RowDue (calendar : Calendar) (now : Timestamp) (row : EntryRow) : Prop :=
  occurrenceDue now row = true ∨
    ∃ rule freq interval index, ruleOf row = some rule ∧ parseRrule rule = some (freq, interval) ∧
      ComesDue calendar freq interval row.assertedAt (baseline row) now index

/-- The scan finds what has come due of a row's rule: its stride can be computed, and where an
instance has come due one past the estimate has. -/
def Found (calendar : Calendar) (overflowChecks : Bool) (now : Timestamp) (row : EntryRow) : Prop :=
  ∀ rule freq interval, ruleOf row = some rule → parseRrule rule = some (freq, interval) →
    row.assertedAt.millis ≤ (baseline row).millis →
      (∃ machine, stride overflowChecks freq interval = some machine ∧ machine ≠ 0) ∧
      (freq = .monthly ∨ freq = .yearly →
        ∀ index, ComesDue calendar freq interval row.assertedAt (baseline row) now index →
          ∃ later, ComesDue calendar freq interval row.assertedAt (baseline row) now later ∧
            estimate freq interval row.assertedAt (baseline row) < later)

theorem occurrenceDue_eq_true :
    occurrenceDue now row = true ↔ row.firedAt = none ∧ ∃ sort, row.occurrence.bounds.sort = some sort ∧
      row.assertedAt.millis < sort.millis ∧ sort.millis ≤ now.millis := by
  simp [occurrenceDue, Option.any_eq_true]

theorem instanceDue_answers (laws : calendar.Lawful)
    (asserted : calendar.represents row.assertedAt = true)
    (fired : ∀ rule, ruleOf row = some rule → calendar.represents (baseline row) = true)
    (found : Found calendar overflowChecks now row) :
    ∃ due, instanceDue calendar overflowChecks now row = some due ∧
      (due = true ↔ ∃ rule freq interval index, ruleOf row = some rule ∧
        parseRrule rule = some (freq, interval) ∧
          ComesDue calendar freq interval row.assertedAt (baseline row) now index) := by
  unfold instanceDue
  cases named : ruleOf row with
  | none => exact ⟨false, rfl, by simp⟩
  | some rule =>
    have reading := fired rule named
    simp only [asserted, reading, Bool.and_self, ↓reduceIte]
    cases parsed : parseRrule rule with
    | none =>
      refine ⟨false, ?_, ?_⟩
      · simp [nextOccurrence, parsed]
      · constructor
        · intro impossible
          cases impossible
        · rintro ⟨other, freq, interval, index, same, read, _⟩
          cases same
          rw [parsed] at read
          cases read
    | some pair =>
      obtain ⟨freq, interval⟩ := pair
      have positive := interval_positive parsed
      have ⟨next, computed, exact'⟩ := @nextOccurrence_due calendar overflowChecks freq interval
        row.assertedAt (baseline row) now rule parsed positive laws asserted reading
        (fun begun => (found rule freq interval named parsed begun).1)
      refine ⟨next.any fun instant => instant.millis ≤ now.millis, by rw [computed]; rfl, ?_⟩
      simp only [Option.any_eq_true, decide_eq_true_eq]
      rw [exact']
      constructor
      · rintro ⟨index, due, _⟩
        exact ⟨rule, freq, interval, index, rfl, parsed, due⟩
      · rintro ⟨other, otherFreq, otherInterval, index, same, read, due⟩
        cases same
        rw [parsed] at read
        cases read
        by_cases begun : row.assertedAt.millis ≤ (baseline row).millis
        · by_cases uniform : freq = .daily ∨ freq = .weekly
          · exact ⟨index, due, fun _ => past_of_comesDue uniform positive due⟩
          · -- months and years: some instance past the estimate has come due too
            have varies : freq = .monthly ∨ freq = .yearly := by
              cases freq <;> simp_all
            have ⟨later, arrived, past⟩ :=
              (found rule freq interval named parsed begun).2 varies index due
            exact ⟨later, arrived, fun _ => past⟩
        · exact ⟨index, due, fun before => absurd before begun⟩

theorem nodup_sorted {order : EntryRow → EntryRow → Prop} [DecidableRel order]
    (table : Table EntryRow.entryId) (keep : EntryRow → Bool) :
    (((table.rows.filter keep).insertionSort order).map EntryRow.entryId).Nodup := by
  have sorted := (List.perm_insertionSort order (table.rows.filter keep)).map EntryRow.entryId
  exact sorted.nodup_iff.mpr (table.nodup.sublist (List.filter_sublist.map _))

theorem mem_dueOccurrences :
    entry ∈ (dueOccurrences graph now).map Prod.snd ↔
      ∃ row ∈ graph.entries, isLive graph row = true ∧ row.entryId = entry ∧
        occurrenceDue now row = true := by
  simp only [dueOccurrences, List.map_map, List.mem_map, List.mem_insertionSort, List.mem_filter,
    Bool.and_eq_true, Function.comp_apply, Table.mem_def]
  exact ⟨fun ⟨row, ⟨stored, live, due⟩, named⟩ => ⟨row, stored, live, named, due⟩,
    fun ⟨row, stored, live, named, due⟩ => ⟨row, ⟨stored, live, due⟩, named⟩⟩

theorem awaitsInstance_of_ruleOf {rule : String} (live : isLive graph row = true)
    (named : ruleOf row = some rule) : awaitsInstance graph row = true := by
  unfold ruleOf at named
  split at named
  · rename_i other occurred
    split at named
    · rename_i untimed
      simp [awaitsInstance, live, untimed, occurred]
    · cases named
  · cases named

/-- The recurring half of a call: the live entries an instance of whose rule has come due,
each once. -/
theorem dueRecurring_exact (laws : calendar.Lawful)
    (asserted : ∀ row ∈ graph.entries, calendar.represents row.assertedAt = true)
    (fired : ∀ row ∈ graph.entries, ∀ rule, ruleOf row = some rule →
      calendar.represents (baseline row) = true)
    (found : ∀ row ∈ graph.entries, isLive graph row = true →
      Found calendar overflowChecks now row) :
    ∃ due, dueRecurring calendar overflowChecks graph now = some due ∧
      (due.map Prod.snd).Nodup ∧
      ∀ entry, entry ∈ due.map Prod.snd ↔
        ∃ row ∈ graph.entries, isLive graph row = true ∧ row.entryId = entry ∧
          ∃ rule freq interval index, ruleOf row = some rule ∧
            parseRrule rule = some (freq, interval) ∧
              ComesDue calendar freq interval row.assertedAt (baseline row) now index := by
  have answers : ∀ row ∈ graph.entryRowsWhere (awaitsInstance graph),
      instanceDue calendar overflowChecks now row =
        some ((instanceDue calendar overflowChecks now row).getD false) := by
    intro row member
    have ⟨stored, waits⟩ := mem_entryRowsWhere.mp member
    rw [awaitsInstance, Bool.and_eq_true, Bool.and_eq_true] at waits
    have ⟨due, answer, _⟩ := instanceDue_answers laws (asserted row stored) (fired row stored)
      (found row stored waits.1.1)
    rw [answer, Option.getD_some]
  refine ⟨_, by rw [dueRecurring, selected_eq_filter _ answers, Option.map_some], ?_, ?_⟩
  · rw [List.map_map]
    exact (nodup_sorted graph.entries (awaitsInstance graph)).sublist (List.filter_sublist.map _)
  · intro entry
    simp only [List.map_map, List.mem_map, List.mem_filter, Function.comp_apply,
      mem_entryRowsWhere]
    constructor
    · rintro ⟨row, ⟨⟨stored, waits⟩, comes⟩, named⟩
      rw [awaitsInstance, Bool.and_eq_true, Bool.and_eq_true] at waits
      have ⟨due, answer, exact'⟩ := instanceDue_answers laws (asserted row stored)
        (fired row stored) (found row stored waits.1.1)
      rw [answer, Option.getD_some] at comes
      exact ⟨row, stored, waits.1.1, named, exact'.mp comes⟩
    · rintro ⟨row, stored, live, named, due⟩
      have ⟨answered, answer, exact'⟩ := instanceDue_answers laws (asserted row stored)
        (fired row stored) (found row stored live)
      obtain ⟨rule, _, _, _, ruled, _⟩ := id due
      refine ⟨row, ⟨⟨stored, awaitsInstance_of_ruleOf live ruled⟩, ?_⟩, named⟩
      rw [answer, Option.getD_some]
      exact exact'.mpr due

theorem not_occurrenceDue_of_ruleOf {rule : String} (named : ruleOf row = some rule) :
    occurrenceDue now row = false := by
  unfold ruleOf at named
  split at named
  · split at named
    · rename_i untimed
      simp [occurrenceDue, Option.isNone_iff_eq_none.mp untimed]
    · cases named
  · cases named

/-- A call fires every live entry that is due, and each once. -/
theorem fireDue_exact (laws : calendar.Lawful)
    (asserted : ∀ row ∈ graph.entries, calendar.represents row.assertedAt = true)
    (fired : ∀ row ∈ graph.entries, ∀ rule, ruleOf row = some rule →
      calendar.represents (baseline row) = true)
    (found : ∀ row ∈ graph.entries, isLive graph row = true →
      Found calendar overflowChecks now row) :
    ∃ due : List (MemoryId × EntryId),
      fireDue calendar overflowChecks graph now =
        some (due.map fun due => .scheduledJobFired due.2 due.1 now) ∧
      (due.map Prod.snd).Nodup ∧
      ∀ entry, entry ∈ due.map Prod.snd ↔
        ∃ row ∈ graph.entries, isLive graph row = true ∧ row.entryId = entry ∧
          RowDue calendar now row := by
  obtain ⟨recurring, computed, once, exact'⟩ := dueRecurring_exact laws asserted fired found
  refine ⟨dueOccurrences graph now ++ recurring, by rw [fireDue, computed, Option.map_some], ?_, ?_⟩
  · rw [List.map_append, List.nodup_append]
    refine ⟨?_, once, ?_⟩
    · rw [dueOccurrences, List.map_map]
      exact nodup_sorted graph.entries _
    · -- an entry with a rule has no concrete occurrence
      rintro entry concrete other repeats rfl
      obtain ⟨row, stored, _, named, due⟩ := mem_dueOccurrences.mp concrete
      obtain ⟨row', stored', _, named', rule, _, _, _, ruled, _⟩ := (exact' entry).mp repeats
      have same : row = row' := Table.eq_of_key_eq stored stored' (named.trans named'.symm)
      subst same
      rw [not_occurrenceDue_of_ruleOf ruled] at due
      cases due
  · intro entry
    rw [List.map_append, List.mem_append, mem_dueOccurrences, exact']
    constructor
    · rintro (⟨row, stored, live, named, due⟩ | ⟨row, stored, live, named, due⟩)
      · exact ⟨row, stored, live, named, .inl due⟩
      · exact ⟨row, stored, live, named, .inr due⟩
    · rintro ⟨row, stored, live, named, due | due⟩
      · exact .inl ⟨row, stored, live, named, due⟩
      · exact .inr ⟨row, stored, live, named, due⟩

end Selection

end Zuihitsu.Schedule
