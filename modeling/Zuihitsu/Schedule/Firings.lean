/-
# The firings of a log

What a log says of an entry's wake-ups: when it fired, and whether it has been
withdrawn since. The projected columns say the same, as long as no entry that was
withdrawn after a firing is given an occurrence again; each event of the log keeps
that.
-/

import Zuihitsu.Schedule.Due

namespace Zuihitsu.Schedule

open Zuihitsu.Core Zuihitsu.Graph Zuihitsu.Library

/-! ### What the log says -/

/-- The instant at which an event fires an entry. -/
def firing (entry : EntryId) (event : Event) : Option Timestamp :=
  match event.payload with
  | .scheduledJobFired fired _ firedAt => if fired = entry then some firedAt else none
  | _ => none

/-- The instants at which an entry fired, in order. -/
def firings (log : List Event) (entry : EntryId) : List Timestamp := log.filterMap (firing entry)

/-- The last instant at which an entry fired. -/
def lastFiring (log : List Event) (entry : EntryId) : Option Timestamp :=
  (firings log entry).getLast?

/-- An event withdraws an entry's occurrence. -/
def withdraws (entry : EntryId) (event : Event) : Bool :=
  match event.payload with
  | .entryTemporalResolved _ resolved none _ => resolved = entry
  | _ => false

/-- An entry's occurrence has been withdrawn since it last fired. -/
def withdrawn (log : List Event) (entry : EntryId) : Bool :=
  log.foldl (fun was event =>
    if (firing entry event).isSome then false else was || withdraws entry event) false

section Readings

variable {log more : List Event} {event : Event} {entry : EntryId}

@[simp] theorem firings_append :
    firings (log ++ more) entry = firings log entry ++ firings more entry :=
  List.filterMap_append

theorem firings_concat_of_none (silent : firing entry event = none) :
    firings (log ++ [event]) entry = firings log entry := by
  simp [firings, silent]

theorem lastFiring_concat_of_none (silent : firing entry event = none) :
    lastFiring (log ++ [event]) entry = lastFiring log entry := by
  rw [lastFiring, firings_concat_of_none silent, lastFiring]

theorem withdrawn_concat :
    withdrawn (log ++ [event]) entry =
      if (firing entry event).isSome then false
      else withdrawn log entry || withdraws entry event := by
  rw [withdrawn, List.foldl_append]
  rfl

end Readings

/-- A live entry is due by the log. A concrete occurrence that lay ahead when the entry was
asserted is due once it has passed, if the entry has not fired; a recurring entry is due when
an instance of its rule lies after its last firing, or its assertion, and has passed. -/
def DueBy (calendar : Calendar) (log : List Event) (now : Timestamp) (row : EntryRow) : Prop :=
  match row.occurrence.bounds.sort with
  | some sort =>
    row.assertedAt.millis < sort.millis ∧ sort.millis ≤ now.millis ∧
      firings log row.entryId = []
  | none =>
    ∃ rule freq interval index, row.occurrence.occurredAt = some (.recurring rule) ∧
      parseRrule rule = some (freq, interval) ∧
      ComesDue calendar freq interval row.assertedAt
        ((lastFiring log row.entryId).getD row.assertedAt) now index

theorem occurs_of_ruleOf {row : EntryRow} {rule : String} (ruled : ruleOf row = some rule) :
    row.occurrence.occurredAt ≠ none := by
  intro nothing
  rw [ruleOf, nothing] at ruled
  cases ruled

/-! ### The columns agree with the log -/

/-- The columns the scheduler reads are what the log says: an entry that has an occurrence
has not been withdrawn since it last fired, its row holds that firing, and where the
occurrence is concrete that firing is its only one and did not come early. -/
structure Agrees (calendar : Calendar) (log : List Event) (graph : Graph) : Prop where
  fired : ∀ row ∈ graph.entries,
    firings log row.entryId = [] ∨ withdrawn log row.entryId = false →
      row.firedAt = lastFiring log row.entryId
  timed : ∀ row ∈ graph.entries, row.occurrence.occurredAt ≠ none →
    firings log row.entryId = [] ∨ withdrawn log row.entryId = false
  untimed : ∀ row ∈ graph.entries, row.occurrence.occurredAt = none →
    row.occurrence.bounds.sort = none
  once : ∀ row ∈ graph.entries, ∀ sort, row.occurrence.bounds.sort = some sort →
    firings log row.entryId = [] ∨
      ∃ firedAt, firings log row.entryId = [firedAt] ∧ sort.millis ≤ firedAt.millis
  known : ∀ entry, firings log entry ≠ [] → graph.entries.contains entry = true
  asserted : ∀ row ∈ graph.entries, calendar.represents row.assertedAt = true

/-- An event gives no occurrence back to an entry withdrawn since it last fired, and to one
that has fired it gives a recurrence at most. -/
def Rearms (log : List Event) : EventPayload → Prop
  | .entryTemporalResolved _ entry (some reference) _ =>
    firings log entry = [] ∨
      (withdrawn log entry = false ∧ ∃ rule, reference = .recurring rule)
  | _ => True

/-- The instant an append asserts its entry at is one the date library represents. -/
def Written (calendar : Calendar) : EventPayload → Prop
  | .memoryContentAppended _ _ assertedAt _ _ _ _ _ => calendar.represents assertedAt = true
  | _ => True

namespace Agrees

variable {calendar : Calendar} {log : List Event} {graph before after : Graph} {event : Event}
variable {row : EntryRow} {now : Timestamp}

theorem fresh : Agrees calendar [] Graph.fresh := by
  constructor
  case known =>
    intro entry fired
    exact absurd rfl fired
  all_goals
    intro row member
    cases member

theorem firedAt (agrees : Agrees calendar log graph) (member : row ∈ graph.entries)
    (occurs : row.occurrence.occurredAt ≠ none) : row.firedAt = lastFiring log row.entryId :=
  agrees.fired row member (agrees.timed row member occurs)

theorem occurs_of_sort (agrees : Agrees calendar log graph) (member : row ∈ graph.entries)
    {sort : Timestamp} (sorted : row.occurrence.bounds.sort = some sort) :
    row.occurrence.occurredAt ≠ none := by
  intro nothing
  rw [agrees.untimed row member nothing] at sorted
  cases sorted

theorem lastFiring_eq_none {entry : EntryId} :
    lastFiring log entry = none ↔ firings log entry = [] :=
  List.getLast?_eq_none_iff

theorem rowDue_iff (agrees : Agrees calendar log graph) (member : row ∈ graph.entries) :
    RowDue calendar now row ↔ DueBy calendar log now row := by
  unfold RowDue DueBy
  rw [occurrenceDue_eq_true]
  cases sorted : row.occurrence.bounds.sort with
  | some =>
    have held := agrees.firedAt member (agrees.occurs_of_sort member sorted)
    have unruled : ruleOf row = none := by
      unfold ruleOf
      split <;> simp [sorted]
    simp only [held, lastFiring_eq_none, unruled, Option.some.injEq, exists_eq_left',
      reduceCtorEq, false_and, exists_false, or_false]
    exact ⟨fun ⟨never, ahead, passed⟩ => ⟨ahead, passed, never⟩,
      fun ⟨ahead, passed, never⟩ => ⟨never, ahead, passed⟩⟩
  | none =>
    have ruled : ∀ rule, ruleOf row = some rule ↔
        row.occurrence.occurredAt = some (.recurring rule) := by
      intro rule
      unfold ruleOf
      split <;> simp_all
    simp only [reduceCtorEq, false_and, exists_false, and_false, false_or, ruled]
    refine exists_congr fun rule => exists_congr fun freq => exists_congr fun interval =>
      exists_congr fun index => and_congr_right fun occurs => ?_
    rw [baseline, agrees.firedAt member (by simp [occurs])]

/-! ### Each event keeps them -/

theorem entryChange_occurrence
    (unresolved : ∀ memory entry occurredAt producedBy,
      event.payload ≠ .entryTemporalResolved memory entry occurredAt producedBy)
    (unfired : ∀ entry memory at', event.payload ≠ .scheduledJobFired entry memory at') :
    (entryChange event before row).occurrence = row.occurrence ∧
      (entryChange event before row).firedAt = row.firedAt := by
  unfold entryChange
  split
  · split <;> exact ⟨rfl, rfl⟩
  · split <;> exact ⟨rfl, rfl⟩
  · split <;> exact ⟨rfl, rfl⟩
  · split <;> exact ⟨rfl, rfl⟩
  · split <;> exact ⟨rfl, rfl⟩
  · rename_i payload
    exact absurd payload (unresolved _ _ _ _)
  · rename_i payload
    exact absurd payload (unfired _ _ _)
  · split <;> exact ⟨rfl, rfl⟩
  · exact ⟨rfl, rfl⟩

theorem entryChange_assertedAt : (entryChange event before row).assertedAt = row.assertedAt := by
  unfold entryChange
  split <;> (try split) <;> rfl

theorem contains_entries_apply (applied : apply event before = .ok after) {entry : EntryId}
    (there : before.entries.contains entry = true) : after.entries.contains entry = true := by
  obtain ⟨old, member, named⟩ := Table.contains_iff.mp there
  refine Table.contains_iff.mpr ⟨entryChange event before old,
    (mem_entries_apply applied).mpr (.inl ⟨old, member, rfl⟩), ?_⟩
  rw [entryChange_entryId, named]

theorem appendedRow_columns (appended : appendedRow event before = some row) :
    row.firedAt = none ∧ (row.occurrence.occurredAt = none → row.occurrence.bounds.sort = none) ∧
      ∀ calendar, Written calendar event.payload → calendar.represents row.assertedAt = true := by
  unfold appendedRow at appended
  split at appended
  · rename_i payload
    cases appended
    refine ⟨rfl, ?_, ?_⟩
    · intro nothing
      simp only [appendedEntry, occurrenceColumns] at nothing ⊢
      rw [nothing]
      rfl
    · intro calendar written
      rw [payload] at written
      exact written
  · cases appended

theorem resolved_or_kept (row : EntryRow)
    (unfired : ∀ entry memory at', event.payload ≠ .scheduledJobFired entry memory at') :
    (∃ memory occurredAt producedBy,
        event.payload = .entryTemporalResolved memory row.entryId occurredAt producedBy ∧
          (entryChange event before row).occurrence = occurrenceColumns before occurredAt ∧
          (entryChange event before row).firedAt =
            if occurredAt.isNone then none else row.firedAt) ∨
      ((entryChange event before row).occurrence = row.occurrence ∧
        (entryChange event before row).firedAt = row.firedAt ∧
        withdraws row.entryId event = false) := by
  by_cases resolves : ∃ memory entry occurredAt producedBy,
      event.payload = .entryTemporalResolved memory entry occurredAt producedBy
  · obtain ⟨memory, entry, occurredAt, producedBy, payload⟩ := resolves
    by_cases own : row.entryId = entry
    · subst own
      refine .inl ⟨memory, occurredAt, producedBy, payload, ?_, ?_⟩ <;> simp [entryChange, payload]
    · refine .inr ⟨?_, ?_, ?_⟩
      · simp [entryChange, payload, own]
      · simp [entryChange, payload, own]
      · cases occurredAt <;> simp [withdraws, payload, Ne.symm own]
  · have unresolved : ∀ memory entry occurredAt producedBy,
        event.payload ≠ .entryTemporalResolved memory entry occurredAt producedBy :=
      fun memory entry occurredAt producedBy payload =>
        resolves ⟨memory, entry, occurredAt, producedBy, payload⟩
    obtain ⟨occurrence, firedAt⟩ := @entryChange_occurrence before event row unresolved unfired
    refine .inr ⟨occurrence, firedAt, ?_⟩
    unfold withdraws
    split
    · rename_i payload
      exact absurd payload (unresolved _ _ _ _)
    · rfl

theorem concat (agrees : Agrees calendar log before) (applied : apply event before = .ok after)
    (unfired : ∀ entry memory at', event.payload ≠ .scheduledJobFired entry memory at')
    (rearms : Rearms log event.payload) (written : Written calendar event.payload) :
    Agrees calendar (log ++ [event]) after := by
  have silent : ∀ entry, firing entry event = none := by
    intro entry
    unfold firing
    split
    · rename_i payload
      exact absurd payload (unfired _ _ _)
    · rfl
  have same : ∀ entry, firings (log ++ [event]) entry = firings log entry :=
    fun entry => firings_concat_of_none (silent entry)
  have again : ∀ entry, withdrawn (log ++ [event]) entry =
      (withdrawn log entry || withdraws entry event) := by
    intro entry
    rw [withdrawn_concat, silent entry]
    rfl
  -- an entry the event appends has not fired
  have unheard : ∀ row, appendedRow event before = some row → firings log row.entryId = [] := by
    intro row appended
    by_contra heard
    have there := agrees.known _ heard
    rw [(appended_of_apply applied appended).2.1] at there
    cases there
  constructor
  case fired =>
    intro row member standing
    rw [lastFiring_concat_of_none (silent _)]
    rw [same, again] at standing
    rcases (mem_entries_apply applied).mp member with ⟨old, stored, rfl⟩ | appended
    · rw [entryChange_entryId] at standing ⊢
      rcases @resolved_or_kept before event old unfired with
        ⟨memory, occurredAt, producedBy, payload, _, firedAt⟩ | ⟨_, firedAt, quiet⟩
      · rw [firedAt]
        cases occurredAt with
        | none =>
          -- the withdrawal counts, so the entry has never fired
          have counts : withdraws old.entryId event = true := by simp [withdraws, payload]
          rw [counts, Bool.or_true] at standing
          exact (lastFiring_eq_none.mpr (standing.resolve_right (by simp))).symm
        | some =>
          have quiet : withdraws old.entryId event = false := by simp [withdraws, payload]
          rw [quiet, Bool.or_false] at standing
          exact agrees.fired old stored standing
      · rw [firedAt]
        refine agrees.fired old stored ?_
        rw [quiet, Bool.or_false] at standing
        exact standing
    · rw [(appendedRow_columns appended).1]
      exact (lastFiring_eq_none.mpr (unheard row appended)).symm
  case timed =>
    intro row member occurs
    rw [same, again]
    rcases (mem_entries_apply applied).mp member with ⟨old, stored, rfl⟩ | appended
    · rw [entryChange_entryId]
      rcases @resolved_or_kept before event old unfired with
        ⟨memory, occurredAt, producedBy, payload, occurrence, _⟩ | ⟨occurrence, _, quiet⟩
      · rw [occurrence] at occurs
        cases occurredAt with
        | none => exact absurd rfl occurs
        | some =>
          have quiet : withdraws old.entryId event = false := by simp [withdraws, payload]
          rw [payload] at rearms
          rw [quiet, Bool.or_false]
          exact rearms.imp_right fun ⟨standing, _⟩ => standing
      · rw [occurrence] at occurs
        rw [quiet, Bool.or_false]
        exact agrees.timed old stored occurs
    · exact .inl (unheard row appended)
  case untimed =>
    intro row member nothing
    rcases (mem_entries_apply applied).mp member with ⟨old, stored, rfl⟩ | appended
    · rcases @resolved_or_kept before event old unfired with
        ⟨memory, occurredAt, producedBy, payload, occurrence, _⟩ | ⟨occurrence, _, _⟩
      · rw [occurrence] at nothing ⊢
        cases occurredAt with
        | none => rfl
        | some => cases nothing
      · rw [occurrence] at nothing ⊢
        exact agrees.untimed old stored nothing
    · exact (appendedRow_columns appended).2.1 nothing
  case once =>
    intro row member sort sorted
    rw [same]
    rcases (mem_entries_apply applied).mp member with ⟨old, stored, rfl⟩ | appended
    · rw [entryChange_entryId]
      rcases @resolved_or_kept before event old unfired with
        ⟨memory, occurredAt, producedBy, payload, occurrence, _⟩ | ⟨occurrence, _, _⟩
      · rw [occurrence] at sorted
        cases occurredAt with
        | none => cases sorted
        | some =>
          rw [payload] at rearms
          rcases rearms with never | ⟨_, rule, rfl⟩
          · exact .inl never
          · cases sorted
      · rw [occurrence] at sorted
        exact agrees.once old stored sort sorted
    · exact .inl (unheard row appended)
  case known =>
    intro entry heard
    rw [same] at heard
    exact contains_entries_apply applied (agrees.known entry heard)
  case asserted =>
    intro row member
    rcases (mem_entries_apply applied).mp member with ⟨old, stored, rfl⟩ | appended
    · rw [entryChange_assertedAt]
      exact agrees.asserted old stored
    · exact (appendedRow_columns appended).2.2 calendar written

theorem concat_firing (agrees : Agrees calendar log before)
    (applied : apply event before = .ok after) {entry : EntryId} {memory : MemoryId}
    (payload : event.payload = .scheduledJobFired entry memory now)
    (there : before.entries.contains entry = true)
    (first : ∀ row ∈ before.entries, row.entryId = entry →
      ∀ sort, row.occurrence.bounds.sort = some sort →
        firings log entry = [] ∧ sort.millis ≤ now.millis) :
    Agrees calendar (log ++ [event]) after := by
  have own : firings (log ++ [event]) entry = firings log entry ++ [now] := by
    simp [firings, firing, payload]
  have silent : ∀ other, other ≠ entry → firing other event = none := by
    intro other different
    simp [firing, payload, Ne.symm different]
  have heard : (firing entry event).isSome = true := by simp [firing, payload]
  have unresolving : ∀ other, withdraws other event = false := by
    intro other
    simp [withdraws, payload]
  -- the event changes rows only, and of those only the entry's own firing
  have rows : ∀ row ∈ after.entries, ∃ old ∈ before.entries,
      row.entryId = old.entryId ∧ row.occurrence = old.occurrence ∧
        row.assertedAt = old.assertedAt ∧
        row.firedAt = if old.entryId = entry then some now else old.firedAt := by
    intro row member
    rcases (mem_entries_apply applied).mp member with ⟨old, stored, rfl⟩ | appended
    · refine ⟨old, stored, entryChange_entryId old, ?_, entryChange_assertedAt, ?_⟩ <;>
        (simp only [entryChange, payload]; split <;> rfl)
    · simp [appendedRow, payload] at appended
  have others : ∀ other, other ≠ entry →
      firings (log ++ [event]) other = firings log other ∧
        withdrawn (log ++ [event]) other = withdrawn log other := by
    intro other different
    refine ⟨firings_concat_of_none (silent other different), ?_⟩
    rw [withdrawn_concat, silent other different, unresolving, Bool.or_false]
    rfl
  constructor
  case fired =>
    intro row member standing
    obtain ⟨old, stored, named, _, _, firedAt⟩ := rows row member
    rw [firedAt]
    split
    · rename_i fires
      rw [lastFiring, named, fires, own, List.getLast?_concat]
    · rename_i different
      obtain ⟨sameFirings, sameStanding⟩ := others old.entryId different
      rw [named, sameFirings, sameStanding] at standing
      rw [named, lastFiring, sameFirings]
      exact agrees.fired old stored standing
  case timed =>
    intro row member occurs
    obtain ⟨old, stored, named, occurrence, _, _⟩ := rows row member
    rw [named]
    by_cases fires : old.entryId = entry
    · right
      rw [fires, withdrawn_concat, if_pos heard]
    · obtain ⟨sameFirings, sameStanding⟩ := others old.entryId fires
      rw [sameFirings, sameStanding]
      exact agrees.timed old stored (occurrence ▸ occurs)
  case untimed =>
    intro row member nothing
    obtain ⟨old, stored, _, occurrence, _, _⟩ := rows row member
    rw [occurrence] at nothing ⊢
    exact agrees.untimed old stored nothing
  case once =>
    intro row member sort sorted
    obtain ⟨old, stored, named, occurrence, _, _⟩ := rows row member
    rw [occurrence] at sorted
    rw [named]
    by_cases fires : old.entryId = entry
    · obtain ⟨never, passed⟩ := first old stored fires sort sorted
      right
      exact ⟨now, by rw [fires, own, never, List.nil_append], passed⟩
    · rw [(others old.entryId fires).1]
      exact agrees.once old stored sort sorted
  case known =>
    intro other heard
    refine contains_entries_apply applied ?_
    by_cases fires : other = entry
    · rw [fires]
      exact there
    · rw [(others other fires).1] at heard
      exact agrees.known other heard
  case asserted =>
    intro row member
    obtain ⟨old, stored, _, _, assertedAt, _⟩ := rows row member
    rw [assertedAt]
    exact agrees.asserted old stored

end Agrees

end Zuihitsu.Schedule
