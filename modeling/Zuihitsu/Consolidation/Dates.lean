/-
# What a sweep makes of dates and wake-ups

The calendar and the scheduler read live entries only. A sweep retires entries: into a
synthesized one, which it appends without a date, or into one that keeps its own. So what
a retired entry was dated by stays on the calendar, and wakes the agent at its time,
exactly when an entry that stays carries the same occurrence and comes due with it.
-/

import Zuihitsu.Block.StatedDates
import Zuihitsu.Consolidation.Tellers
import Zuihitsu.Schedule.Due

namespace Zuihitsu.Consolidation

open Zuihitsu.Core Zuihitsu.Graph Zuihitsu.Library Zuihitsu.MemoryBlock Zuihitsu.Schedule

/-! ### What comes due -/

/-- The two reads of what has come due. -/
inductive DueRead where
  | occurrences
  | recurring
  deriving DecidableEq, Repr

/-- A read reports an entry at a time. -/
def Reports (calendar : Calendar) (overflowChecks : Bool) (graph : Graph) (now : Timestamp) :
    DueRead → EntryId → Prop
  | .occurrences, entry => entry ∈ (dueOccurrences graph now).map Prod.snd
  | .recurring, entry => ∃ due, dueRecurring calendar overflowChecks graph now = some due ∧
      entry ∈ due.map Prod.snd

section Selection

variable {calendar : Calendar} {overflowChecks : Bool} {graph : Graph} {now : Timestamp}
variable {test : EntryRow → Option Bool} {rows chosen : List EntryRow}

theorem selected_isSome : (selected test rows).isSome = true ↔ ∀ row ∈ rows, (test row).isSome = true := by
  induction rows with
  | nil => simp [selected]
  | cons row rest ih =>
    rw [List.forall_mem_cons, ← ih, selected]
    cases test row with
    | none => simp
    | some => rw [Option.bind_some, Option.isSome_map, Option.isSome_some]; simp

theorem mem_selected (answered : selected test rows = some chosen) {row : EntryRow} :
    row ∈ chosen ↔ row ∈ rows ∧ test row = some true := by
  have each := selected_isSome.mp (Option.isSome_iff_exists.mpr ⟨chosen, answered⟩)
  have filtered := @selected_eq_filter test (fun row => (test row).getD false) rows
    fun row member => by
      obtain ⟨due, answer⟩ := Option.isSome_iff_exists.mp (each row member)
      rw [answer, Option.getD_some]
  rw [answered, Option.some.injEq] at filtered
  rw [filtered, List.mem_filter]
  refine and_congr_right fun member => ?_
  obtain ⟨due, answer⟩ := Option.isSome_iff_exists.mp (each row member)
  simp [answer]

/-- A row that a recurring read computes the next instance of, and finds due. -/
def RecursBy (calendar : Calendar) (overflowChecks : Bool) (graph : Graph) (now : Timestamp)
    (row : EntryRow) : Prop :=
  awaitsInstance graph row = true ∧ instanceDue calendar overflowChecks now row = some true

theorem dueRecurring_isSome :
    (dueRecurring calendar overflowChecks graph now).isSome = true ↔
      ∀ row ∈ graph.entries, awaitsInstance graph row = true →
        (instanceDue calendar overflowChecks now row).isSome = true := by
  rw [dueRecurring, Option.isSome_map, selected_isSome]
  simp only [mem_entryRowsWhere, and_imp]

theorem mem_dueRecurring {due : List (MemoryId × EntryId)} {entry : EntryId}
    (answered : dueRecurring calendar overflowChecks graph now = some due) :
    entry ∈ due.map Prod.snd ↔ ∃ row ∈ graph.entries, row.entryId = entry ∧
      RecursBy calendar overflowChecks graph now row := by
  obtain ⟨chosen, selects, rfl⟩ := Option.map_eq_some_iff.mp answered
  rw [List.map_map, List.mem_map]
  constructor
  · rintro ⟨row, member, rfl⟩
    obtain ⟨listed, holds⟩ := (mem_selected selects).mp member
    obtain ⟨stored, awaits⟩ := mem_entryRowsWhere.mp listed
    exact ⟨row, stored, rfl, awaits, holds⟩
  · rintro ⟨row, stored, rfl, awaits, holds⟩
    exact ⟨row, (mem_selected selects).mpr ⟨mem_entryRowsWhere.mpr ⟨stored, awaits⟩, holds⟩, rfl⟩

end Selection

/-! ### What a sweep leaves of the rows -/

/-- Some entries are retired, no dated one is added, and the rest stays as it is. -/
structure RetiresOnly (gone : List EntryId) (before after : Graph) : Prop where
  stays : ∀ row ∈ before.entries, row.entryId ∉ gone → row ∈ after.entries
  drawn : ∀ row ∈ after.entries, row.supersededBy = none → row.occurrence.occurredAt.isSome = true →
    row ∈ before.entries ∧ row.entryId ∉ gone
  classes : ∀ id, after.classId id = before.classId id

section Retiring

variable {gone more : List EntryId} {before middle after : Graph} {row : EntryRow}

theorem RetiresOnly.refl : RetiresOnly [] before before where
  stays := fun _ member _ => member
  drawn := fun _ member _ _ => ⟨member, List.not_mem_nil⟩
  classes := fun _ => rfl

theorem RetiresOnly.trans (first : RetiresOnly gone before middle)
    (second : RetiresOnly more middle after) : RetiresOnly (gone ++ more) before after where
  stays := by
    intro row member kept
    rw [List.mem_append, not_or] at kept
    exact second.stays row (first.stays row member kept.1) kept.2
  drawn := by
    intro row member live dated
    obtain ⟨earlier, kept⟩ := second.drawn row member live dated
    obtain ⟨earliest, kept'⟩ := first.drawn row earlier live dated
    exact ⟨earliest, fun among => (List.mem_append.mp among).elim kept' kept⟩
  classes := fun id => (second.classes id).trans (first.classes id)

theorem retiresOnly_apply {event : Event} (applied : apply event before = .ok after)
    (write : isSweepWrite event.payload = true) (undated : datedAppend event.payload = none) :
    RetiresOnly (supersededBy event.payload) before after where
  stays := by
    intro row member kept
    refine (mem_entries_apply applied).mpr (.inl ⟨row, member, ?_⟩)
    cases payload : event.payload with
    | memoryContentAppended | entryAttested => simp only [entryChange, payload]
    | entriesConsolidated id sources replacement producedBy =>
      rw [payload] at kept
      have kept : row.entryId ∉ sources := kept
      simp only [entryChange, payload]
      rw [if_neg kept]
    | _ =>
      rw [payload] at write
      cases write
  drawn := by
    intro row member live dated
    rcases (mem_entries_apply applied).mp member with ⟨old, oldMem, rfl⟩ | appended
    · cases payload : event.payload with
      | memoryContentAppended | entryAttested =>
        simp only [entryChange, payload, supersededBy]
        exact ⟨oldMem, List.not_mem_nil⟩
      | entriesConsolidated id sources replacement producedBy =>
        simp only [entryChange, payload, supersededBy] at live ⊢
        split at live
        · cases live
        · rename_i kept
          rw [if_neg kept]
          exact ⟨oldMem, kept⟩
      | _ =>
        rw [payload] at write
        cases write
    · -- what is appended has no date
      cases payload : event.payload with
      | memoryContentAppended id entryId assertedAt occurredAt text toldBy toldIn visibility =>
        simp only [appendedRow, payload, Option.some.injEq] at appended
        subst appended
        rw [payload] at undated
        obtain ⟨given, occurs⟩ := Option.isSome_iff_exists.mp dated
        have none : occurredAt = none := Option.map_eq_none_iff.mp undated
        have occurs : occurredAt = some given := occurs
        rw [none] at occurs
        cases occurs
      | _ => simp only [appendedRow, payload] at appended; cases appended
  classes := classId_apply applied (keepsClasses_of_isSweepWrite write)

theorem retiresOnly_commit {recordedAt : Timestamp} {source : EventSource}
    {payloads : List EventPayload} (committed : commit recordedAt source payloads before = .ok after)
    (writes : ∀ payload ∈ payloads, isSweepWrite payload = true ∧ datedAppend payload = none) :
    RetiresOnly (payloads.flatMap supersededBy) before after := by
  induction payloads generalizing before with
  | nil =>
    cases committed
    exact .refl
  | cons payload rest ih =>
    obtain ⟨middle, applied, remaining⟩ := commit_cons_ok.mp committed
    obtain ⟨write, undated⟩ := writes payload List.mem_cons_self
    have first := retiresOnly_apply applied write undated
    exact first.trans (ih remaining fun other member => writes other (List.mem_cons_of_mem _ member))

theorem Swept.undated {block : MemoryBlock} (swept : Swept block) :
    ∀ payload ∈ block.buffer, datedAppend payload = none := by
  induction swept with
  | opened => simp [newBlock, MemoryBlock.open]
  | @retires engine block after id sources producedBy retirement _ done ih =>
    have buffered : ∃ events, after = block.pushAll events ∧
        ∀ payload ∈ events, datedAppend payload = none := by
      cases retirement with
      | synthesized =>
        obtain ⟨_, _, _, _, _, _, rfl⟩ := consolidate_ok done
        refine ⟨_, rfl, ?_⟩
        simp only [List.forall_mem_cons, List.forall_mem_append, List.forall_mem_map]
        exact ⟨rfl, fun _ _ => rfl, rfl, by simp⟩
      | absorbed =>
        obtain ⟨_, _, _, _, _, _, _, rfl⟩ := consolidateInto_ok done
        refine ⟨_, rfl, ?_⟩
        simp only [List.forall_mem_cons, List.forall_mem_append, List.forall_mem_map]
        exact ⟨fun _ _ => rfl, rfl, by simp⟩
    obtain ⟨events, rfl, rest⟩ := buffered
    exact List.forall_mem_append.mpr ⟨ih, rest⟩

variable (retires : RetiresOnly gone before after)
include retires

theorem RetiresOnly.isLive_eq (row : EntryRow) : isLive after row = isLive before row := by
  have same : (after.liveRow row.memoryId).isSome = (before.liveRow row.memoryId).isSome := by
    simpa [classId] using congrArg Option.isSome (retires.classes row.memoryId)
  rw [isLive, isLive, same]

theorem RetiresOnly.inClass_eq (id other : MemoryId) : after.inClass id other = before.inClass id other :=
  inClass_congr retires.classes other

theorem RetiresOnly.answers {calendar : Calendar} {overflowChecks : Bool} {now : Timestamp}
    (answered : (dueRecurring calendar overflowChecks before now).isSome = true) :
    (dueRecurring calendar overflowChecks after now).isSome = true := by
  rw [dueRecurring_isSome] at answered ⊢
  intro row member awaits
  have live : isLive after row = true ∧ row.occurrence.occurredAt.isSome = true := by
    simp only [awaitsInstance, Bool.and_eq_true] at awaits
    exact ⟨awaits.1.1, awaits.2⟩
  have standing : row.supersededBy = none := by
    have both := live.1
    simp only [isLive, Bool.and_eq_true, Option.isNone_iff_eq_none] at both
    exact both.1
  refine answered row (retires.drawn row member standing live.2).1 ?_
  rwa [awaitsInstance, ← retires.isLive_eq]

theorem RetiresOnly.reports_iff {calendar : Calendar} {overflowChecks : Bool} {now : Timestamp}
    {read : DueRead} (member : row ∈ before.entries) (kept : row.entryId ∉ gone)
    (answered : read = .recurring → (dueRecurring calendar overflowChecks before now).isSome = true) :
    Reports calendar overflowChecks after now read row.entryId ↔
      Reports calendar overflowChecks before now read row.entryId := by
  have stays := retires.stays row member kept
  cases read with
  | occurrences =>
    simp only [Reports, mem_dueOccurrences]
    constructor
    · rintro ⟨other, stored, live, same, due⟩
      obtain rfl := Table.eq_of_key_eq stored stays same
      exact ⟨other, member, retires.isLive_eq other ▸ live, rfl, due⟩
    · rintro ⟨other, stored, live, same, due⟩
      obtain rfl := Table.eq_of_key_eq stored member same
      exact ⟨other, stays, (retires.isLive_eq other).symm ▸ live, rfl, due⟩
  | recurring =>
    obtain ⟨due, first⟩ := Option.isSome_iff_exists.mp (answered rfl)
    obtain ⟨due', second⟩ := Option.isSome_iff_exists.mp (retires.answers (answered rfl))
    have awaits : awaitsInstance after row = awaitsInstance before row := by
      rw [awaitsInstance, awaitsInstance, retires.isLive_eq]
    have recurs : RecursBy calendar overflowChecks after now row ↔
        RecursBy calendar overflowChecks before now row := by
      rw [RecursBy, RecursBy, awaits]
    simp only [Reports, first, second, Option.some.injEq, exists_eq_left', mem_dueRecurring first,
      mem_dueRecurring second]
    constructor
    · rintro ⟨other, stored, same, holds⟩
      obtain rfl := Table.eq_of_key_eq stored stays same
      exact ⟨other, member, rfl, recurs.mp holds⟩
    · rintro ⟨other, stored, same, holds⟩
      obtain rfl := Table.eq_of_key_eq stored member same
      exact ⟨other, stays, rfl, recurs.mpr holds⟩

end Retiring

/-! ### Dates and wake-ups kept -/

/-- A live entry of a row's class carries the row's occurrence. -/
structure CarriesSame (graph : Graph) (row other : EntryRow) : Prop where
  live : isLive graph other = true
  member : graph.inClass row.memoryId other.memoryId = true
  occurrence : other.occurrence.occurredAt = row.occurrence.occurredAt

/-- Every occurrence a live source carried is carried by a live entry of its class, and at every
later time at which the source would have been reported such an entry is. -/
def DatesKept (calendar : Calendar) (overflowChecks : Bool) (recordedAt : Timestamp)
    (gone : List EntryId) (before after : Graph) : Prop :=
  ∀ row ∈ before.entries, row.entryId ∈ gone → isLive before row = true →
    row.occurrence.occurredAt.isSome = true →
      (∃ other ∈ after.entries, CarriesSame after row other) ∧
        ∀ now, recordedAt.millis ≤ now.millis → ∀ read,
          Reports calendar overflowChecks before now read row.entryId →
            ∃ other ∈ after.entries, CarriesSame after row other ∧
              Reports calendar overflowChecks after now read other.entryId

/-- Every dated live source has its like among the entries that stay: one of its class with its
occurrence, and at every later time at which the source comes due one that comes due too. -/
def Doubled (calendar : Calendar) (overflowChecks : Bool) (recordedAt : Timestamp)
    (gone : List EntryId) (graph : Graph) : Prop :=
  ∀ row ∈ graph.entries, row.entryId ∈ gone → isLive graph row = true →
    row.occurrence.occurredAt.isSome = true →
      (∃ other ∈ graph.entries, other.entryId ∉ gone ∧ CarriesSame graph row other) ∧
        ∀ now, recordedAt.millis ≤ now.millis → ∀ read,
          Reports calendar overflowChecks graph now read row.entryId →
            ∃ other ∈ graph.entries, other.entryId ∉ gone ∧ CarriesSame graph row other ∧
              Reports calendar overflowChecks graph now read other.entryId

section Keeping

variable {calendar : Calendar} {overflowChecks : Bool} {recordedAt : Timestamp}
variable {gone : List EntryId} {before after : Graph} {row other : EntryRow}

theorem RetiresOnly.carriesSame_iff (retires : RetiresOnly gone before after) :
    CarriesSame after row other ↔ CarriesSame before row other := by
  constructor
  · intro ⟨live, member, occurrence⟩
    exact ⟨retires.isLive_eq other ▸ live, retires.inClass_eq _ _ ▸ member, occurrence⟩
  · intro ⟨live, member, occurrence⟩
    exact ⟨(retires.isLive_eq other).symm ▸ live, (retires.inClass_eq _ _).symm ▸ member, occurrence⟩

theorem RetiresOnly.stayed (retires : RetiresOnly gone before after) (member : other ∈ after.entries)
    (carries : CarriesSame after row other) (dated : row.occurrence.occurredAt.isSome = true) :
    other ∈ before.entries ∧ other.entryId ∉ gone := by
  have live := carries.live
  simp only [isLive, Bool.and_eq_true, Option.isNone_iff_eq_none] at live
  exact retires.drawn other member live.1 (carries.occurrence.symm ▸ dated)

theorem answered_of_reports {now : Timestamp} {read : DueRead} {entry : EntryId} {graph : Graph}
    (reports : Reports calendar overflowChecks graph now read entry) :
    read = .recurring → (dueRecurring calendar overflowChecks graph now).isSome = true := by
  rintro rfl
  obtain ⟨due, answer, _⟩ := reports
  exact Option.isSome_iff_exists.mpr ⟨due, answer⟩

theorem RetiresOnly.datesKept_iff (retires : RetiresOnly gone before after) :
    DatesKept calendar overflowChecks recordedAt gone before after ↔
      Doubled calendar overflowChecks recordedAt gone before := by
  constructor
  · intro kept row member among live dated
    obtain ⟨⟨other, otherMem, carries⟩, wakes⟩ := kept row member among live dated
    obtain ⟨earlier, outside⟩ := retires.stayed otherMem carries dated
    refine ⟨⟨other, earlier, outside, retires.carriesSame_iff.mp carries⟩, ?_⟩
    intro now later read reports
    obtain ⟨other, otherMem, carries, told⟩ := wakes now later read reports
    obtain ⟨earlier, outside⟩ := retires.stayed otherMem carries dated
    exact ⟨other, earlier, outside, retires.carriesSame_iff.mp carries,
      (retires.reports_iff earlier outside (answered_of_reports reports)).mp told⟩
  · intro doubled row member among live dated
    obtain ⟨⟨other, otherMem, outside, carries⟩, wakes⟩ := doubled row member among live dated
    refine ⟨⟨other, retires.stays other otherMem outside, retires.carriesSame_iff.mpr carries⟩, ?_⟩
    intro now later read reports
    obtain ⟨other, otherMem, outside, carries, told⟩ := wakes now later read reports
    exact ⟨other, retires.stays other otherMem outside, retires.carriesSame_iff.mpr carries,
      (retires.reports_iff otherMem outside (answered_of_reports reports)).mpr told⟩

/-- The commit of a sweep keeps the dates and the wake-ups of what it retires exactly when each
dated entry it retires has its like among those that stay. -/
theorem consolidation_keeps_dates_iff {block : MemoryBlock} {source : EventSource}
    (calendar : Calendar) (overflowChecks : Bool) (swept : Swept block)
    (committed : commit recordedAt source block.buffer before = .ok after) :
    DatesKept calendar overflowChecks recordedAt (pendingSuperseded block) before after ↔
      Doubled calendar overflowChecks recordedAt (pendingSuperseded block) before := by
  have retires := retiresOnly_commit committed fun payload member =>
    ⟨swept.buffer payload member, swept.undated payload member⟩
  exact retires.datesKept_iff

end Keeping

/-! ### The ferry's last trip

A person tells twice when the ferry makes its last trip, the second time in public or in
confidence. -/

namespace LastTrip

def lastTrip : TemporalRef := .instant ⟨5000⟩

/-- The log of the two accounts. -/
def log (posture : Visibility) : List EventPayload :=
  [.memoryCreated harbour ⟨"topic/harbour"⟩, .memoryCreated ines ⟨"person/ines"⟩,
    .memoryContentAppended harbour ⟨11⟩ ⟨0⟩ (some lastTrip) "the last ferry" (.participant ines) none
      .public,
    .memoryContentAppended harbour ⟨12⟩ ⟨0⟩ (some lastTrip) "the ferry's last trip"
      (.participant ines) none posture]

/-- The graph the accounts leave. -/
def told (posture : Visibility) : Graph :=
  ((commit ⟨0⟩ .agent (log posture) Graph.fresh).toOption).getD Graph.fresh

theorem told_reachable (posture : Visibility)
    (answers : (commit ⟨0⟩ .agent (log posture) Graph.fresh).isOk = true) :
    Reachable (told posture) := by
  have committed : commit ⟨0⟩ .agent (log posture) Graph.fresh = .ok (told posture) := by
    rw [told]
    cases outcome : commit ⟨0⟩ .agent (log posture) Graph.fresh with
    | ok => rfl
    | error =>
      rw [outcome] at answers
      cases answers
  exact Reachable.fresh.commit committed

def synthesis : Retirement := .synthesized ⟨21⟩ "the ferry makes its last trip"

/-- The synthesis of two entries that carry one date carries none, and nothing wakes the agent
when it comes. -/
theorem synthesis_drops_date :
    Reachable (told .public) ∧
      tier1Groups ((told .public).classEntries harbour) = [[0, 1]] ∧
      retire ⟨told .public, ⟨1⟩⟩ (newBlock (told .public) 4000) harbour [⟨11⟩, ⟨12⟩] none synthesis =
        .ok (sweepBlock (told .public) harbour [⟨11⟩, ⟨12⟩] synthesis) ∧
      commit ⟨1⟩ .orchestration (sweepBlock (told .public) harbour [⟨11⟩, ⟨12⟩] synthesis).buffer
          (told .public) = .ok (sweepGraph (told .public) harbour [⟨11⟩, ⟨12⟩] synthesis) ∧
      (harbour, (⟨11⟩ : EntryId)) ∈ dueOccurrences (told .public) ⟨6000⟩ ∧
      dueOccurrences (sweepGraph (told .public) harbour [⟨11⟩, ⟨12⟩] synthesis) ⟨6000⟩ = [] ∧
      ∀ calendar overflowChecks,
        ¬DatesKept calendar overflowChecks ⟨1⟩
          (pendingSuperseded (sweepBlock (told .public) harbour [⟨11⟩, ⟨12⟩] synthesis))
          (told .public) (sweepGraph (told .public) harbour [⟨11⟩, ⟨12⟩] synthesis) := by
  refine ⟨told_reachable .public rfl, by decide, rfl, rfl, by decide, by decide, ?_⟩
  intro calendar overflowChecks kept
  have live : ∃ row ∈ (told .public).entries, row.entryId = ⟨11⟩ ∧ isLive (told .public) row = true ∧
      row.occurrence.occurredAt = some lastTrip := by decide
  obtain ⟨row, member, named, stands, dated⟩ := live
  have gone : row.entryId ∈
      pendingSuperseded (sweepBlock (told .public) harbour [⟨11⟩, ⟨12⟩] synthesis) := by
    rw [named]
    decide
  obtain ⟨⟨other, stored, carries⟩, _⟩ := kept row member gone stands (by rw [dated]; rfl)
  have undated : ∀ other ∈ (sweepGraph (told .public) harbour [⟨11⟩, ⟨12⟩] synthesis).entries,
      isLive (sweepGraph (told .public) harbour [⟨11⟩, ⟨12⟩] synthesis) other = true →
        other.occurrence.occurredAt = none := by decide
  have lost := undated other stored carries.live
  rw [carries.occurrence, dated] at lost
  cases lost

def folding : MemoryBlock :=
  sweepBlock (told .privateToTeller) harbour [⟨12⟩] (.absorbed ⟨11⟩)

def folded : Graph := sweepGraph (told .privateToTeller) harbour [⟨12⟩] (.absorbed ⟨11⟩)

theorem folding_doubled (calendar : Calendar) (overflowChecks : Bool) :
    Doubled calendar overflowChecks ⟨1⟩ (pendingSuperseded folding) (told .privateToTeller) := by
  have staying : ∃ other ∈ (told .privateToTeller).entries,
      other.entryId ∉ pendingSuperseded folding ∧ isLive (told .privateToTeller) other = true ∧
        other.memoryId = harbour ∧ other.occurrence.occurredAt = some lastTrip ∧
          ∀ row ∈ (told .privateToTeller).entries, row.entryId ∈ pendingSuperseded folding →
            row.memoryId = harbour ∧ row.occurrence = other.occurrence ∧
              row.assertedAt = other.assertedAt ∧ row.firedAt = other.firedAt := by decide
  obtain ⟨other, stored, outside, live, placed, dated, each⟩ := staying
  intro row member among _ _
  obtain ⟨home, same, asserted, fired⟩ := each row member among
  have carries : CarriesSame (told .privateToTeller) row other := by
    refine ⟨live, ?_, by rw [same]⟩
    rw [home, placed]
    decide
  refine ⟨⟨other, stored, outside, carries⟩, fun now _ read reports => ?_⟩
  refine ⟨other, stored, outside, carries, ?_⟩
  cases read with
  | occurrences =>
    obtain ⟨found, stored', _, named, due⟩ := mem_dueOccurrences.mp reports
    obtain rfl := Table.eq_of_key_eq stored' member named
    refine mem_dueOccurrences.mpr ⟨other, stored, live, rfl, ?_⟩
    rwa [occurrenceDue, ← same, ← asserted, ← fired]
  | recurring =>
    obtain ⟨due, answer, listed⟩ := reports
    obtain ⟨found, stored', named, awaits, _⟩ := (mem_dueRecurring answer).mp listed
    obtain rfl := Table.eq_of_key_eq stored' member named
    have timed : ∀ row ∈ (told .privateToTeller).entries,
        awaitsInstance (told .privateToTeller) row = false := by decide
    rw [timed found member] at awaits
    cases awaits

/-- The fold keeps the date and the wake-up. -/
theorem folding_keeps_dates :
    tier2Absorptions ((told .privateToTeller).classEntries harbour) (fun _ _ => 1) 1 =
        [(⟨11⟩, [⟨12⟩])] ∧
      ∀ calendar overflowChecks, DatesKept calendar overflowChecks ⟨1⟩ (pendingSuperseded folding)
        (told .privateToTeller) folded := by
  refine ⟨by decide, fun calendar overflowChecks => ?_⟩
  have done : retire ⟨told .privateToTeller, ⟨1⟩⟩ (newBlock (told .privateToTeller) 4000) harbour
      [⟨12⟩] none (.absorbed ⟨11⟩) = .ok folding := rfl
  have committed : commit ⟨1⟩ .orchestration folding.buffer (told .privateToTeller) = .ok folded := rfl
  have swept : Swept folding := .retires (.opened (told .privateToTeller) 4000) done
  exact (consolidation_keeps_dates_iff calendar overflowChecks swept committed).mpr
    (folding_doubled calendar overflowChecks)

end LastTrip

end Zuihitsu.Consolidation
