/-
# Wake-ups over a whole run

The log, the graph that lags behind it, and the calls that fire what is due: each
call reads the graph and appends, and the graph catches up in a step of its own, so
another call can read it in between. Which entries a call fires is compared with
what the whole log says is due.
-/

import Zuihitsu.Schedule.Firings

namespace Zuihitsu.Schedule

open Zuihitsu.Core Zuihitsu.Graph Zuihitsu.Library

/-! ### Events no wake-up depends on -/

/-- An event may change which entries are due, or when. -/
def bearsOnWakeups : EventPayload → Bool
  | .memoryContentAppended _ _ _ _ _ _ _ _ => true
  | .memorySuperseded _ _ _ => true
  | .entriesConsolidated _ _ _ _ => true
  | .entryRetracted _ _ _ _ => true
  | .attestationRetracted _ _ _ _ _ => true
  | .entryTemporalResolved _ _ _ _ => true
  | .scheduledJobFired _ _ _ => true
  | .memoryDeleted _ => true
  | _ => false

/-- The columns of an entry the scheduler reads. -/
def scheduleOf (row : EntryRow) : EntryRow :=
  { row with descriptionMirror := false, surfacedAt := none }

/-- Two graphs hold the same live and superseded entries, as far as the scheduler reads. -/
structure SameSchedule (one other : Graph) : Prop where
  forth : ∀ row ∈ one.entries, ∃ row' ∈ other.entries,
    scheduleOf row' = scheduleOf row ∧ isLive other row' = isLive one row
  back : ∀ row' ∈ other.entries, ∃ row ∈ one.entries,
    scheduleOf row' = scheduleOf row ∧ isLive other row' = isLive one row

section Frame

variable {calendar : Calendar} {overflowChecks : Bool} {before after : Graph} {event : Event}
variable {now : Timestamp} {row row' : EntryRow}

theorem rowDue_congr (same : scheduleOf row' = scheduleOf row) :
    RowDue calendar now row' ↔ RowDue calendar now row := by
  change RowDue calendar now (scheduleOf row') ↔ RowDue calendar now (scheduleOf row)
  rw [same]

theorem entryId_congr (same : scheduleOf row' = scheduleOf row) : row'.entryId = row.entryId := by
  change (scheduleOf row').entryId = (scheduleOf row).entryId
  rw [same]

theorem scheduleOf_entryChange (quiet : bearsOnWakeups event.payload = false) (row : EntryRow) :
    scheduleOf (entryChange event before row) = scheduleOf row := by
  unfold entryChange
  split <;> (try split) <;> simp_all [bearsOnWakeups, scheduleOf]

theorem isLive_entryChange (reachable : Reachable before)
    (applied : apply event before = .ok after) (quiet : bearsOnWakeups event.payload = false)
    (member : row ∈ before.entries) :
    isLive after (entryChange event before row) = isLive before row := by
  have superseded : (entryChange event before row).supersededBy = row.supersededBy := by
    change (scheduleOf (entryChange event before row)).supersededBy = (scheduleOf row).supersededBy
    rw [scheduleOf_entryChange quiet]
  obtain ⟨memory, stored, owner, _⟩ := reachable.dated.behind row member
  have here : before.memoryRow row.memoryId = some memory :=
    Table.find_eq_some_iff.mpr ⟨stored, owner⟩
  have there : after.memoryRow row.memoryId = some (memoryChange event before memory) := by
    rw [memoryRow_apply applied, here]
    rfl
  have deleted : (memoryChange event before memory).deleted = memory.deleted := by
    rw [memoryChange_deleted]
    have kept : event.payload ≠ .memoryDeleted memory.id := by
      intro payload
      simp [bearsOnWakeups, payload] at quiet
    simp [kept]
  rw [isLive, isLive, superseded, entryChange_memoryId, liveRow, liveRow, here, there]
  cases alive : memory.deleted <;> simp [Option.filter, deleted, alive]

theorem sameSchedule_fold {pending : List Event} (reachable : Reachable before)
    (numbered : Numbered before.head pending)
    (quiet : ∀ event ∈ pending, bearsOnWakeups event.payload = false)
    (folded : foldLog apply pending before = .ok after) : SameSchedule before after := by
  induction pending generalizing before with
  | nil =>
    cases folded
    exact ⟨fun row member => ⟨row, member, rfl, rfl⟩, fun row member => ⟨row, member, rfl, rfl⟩⟩
  | cons event rest ih =>
    obtain ⟨middle, applied, remaining⟩ := foldLog_cons_ok.mp folded
    have here := quiet event (by simp)
    have next := ih (reachable.apply numbered.1 applied)
      (by rw [head_of_apply applied]; exact numbered.2)
      (fun other member => quiet other (by simp [member])) remaining
    have nothing : appendedRow event before = none := by
      unfold appendedRow
      split
      · rename_i payload
        simp [bearsOnWakeups, payload] at here
      · rfl
    constructor
    · intro row member
      obtain ⟨row', stored, same, live⟩ := next.forth _
        ((mem_entries_apply applied).mpr (.inl ⟨row, member, rfl⟩))
      refine ⟨row', stored, same.trans (scheduleOf_entryChange here row), ?_⟩
      rw [live, isLive_entryChange reachable applied here member]
    · intro row' stored
      obtain ⟨row, member, same, live⟩ := next.back row' stored
      rcases (mem_entries_apply applied).mp member with ⟨old, kept, rfl⟩ | appended
      · refine ⟨old, kept, same.trans (scheduleOf_entryChange here old), ?_⟩
        rw [live, isLive_entryChange reachable applied here kept]
      · rw [nothing] at appended
        cases appended

end Frame

/-! ### Calls, appends and materializations, in any order -/

/-- The log, and the graph materialized from a part of it. -/
structure State where
  log : List Event := []
  graph : Graph := Graph.fresh

/-- What happens next: something other than the scheduler appends an event, some task
materializes the log, or a call fires what is due. -/
inductive Act where
  | append (recordedAt : Timestamp) (source : EventSource) (payload : EventPayload)
  | materialize
  | fire (now : Timestamp)

section Runs

variable (calendar : Calendar) (overflowChecks : Bool)

/-- The events a call appends, of the graph it reads. A call that fails appends none. -/
def firedBy (state : State) (now : Timestamp) : List Event :=
  stamp state.log.length now .orchestration
    ((fireDue calendar overflowChecks state.graph now).getD [])

/-- One step. Only a call appends firings. -/
inductive Step : State → Act → State → Prop
  | append {state : State} {recordedAt : Timestamp} {source : EventSource}
      {payload : EventPayload} (unfired : ∀ entry memory at', payload ≠ .scheduledJobFired entry memory at')
      (written : Written calendar payload) :
      Step state (.append recordedAt source payload)
        { state with log := state.log ++ stamp state.log.length recordedAt source [payload] }
  | materialize {state : State} {graph : Graph}
      (folds : materializeFrom state.log state.graph = .ok graph) :
      Step state .materialize { state with graph }
  | fire {state : State} {now : Timestamp} (reads : calendar.represents now = true) :
      Step state (.fire now)
        { state with log := state.log ++ firedBy calendar overflowChecks state now }

/-- What a step must meet. An append gives no occurrence back to an entry that was withdrawn
after a firing, and to one that has fired it gives a recurrence at most. A call reads a graph
that lags behind in nothing a wake-up depends on, and the scan of every live recurring entry
finds what has come due. -/
def Meets (state : State) : Act → Prop
  | .append _ _ payload => Rearms state.log payload
  | .materialize => True
  | .fire now =>
    (∀ event ∈ state.log, state.graph.head < event.seq → bearsOnWakeups event.payload = false) ∧
      ∀ row ∈ state.graph.entries, isLive state.graph row = true →
        Found calendar overflowChecks now row

/-- An entry is live and due by the whole log. -/
def LiveAndDue (log : List Event) (full : Graph) (now : Timestamp) (entry : EntryId) : Prop :=
  ∃ row ∈ full.entries, isLive full row = true ∧ row.entryId = entry ∧
    DueBy calendar log now row

/-- A call fires exactly the entries that are live and due by the log before it, each once and
at the instant of the call. -/
def FiresExactly (before : State) (now : Timestamp) (after : State) : Prop :=
  ∀ full, foldLog apply before.log Graph.fresh = .ok full → ∀ entry,
    (LiveAndDue calendar before.log full now entry →
      firings after.log entry = firings before.log entry ++ [now]) ∧
    (¬ LiveAndDue calendar before.log full now entry →
      firings after.log entry = firings before.log entry)

/-- An entry with a concrete occurrence has fired once at most, and not early. -/
def FiredOnce (state : State) : Prop :=
  ∀ full, foldLog apply state.log Graph.fresh = .ok full → ∀ row ∈ full.entries,
    ∀ sort, row.occurrence.bounds.sort = some sort →
      firings state.log row.entryId = [] ∨
        ∃ firedAt, firings state.log row.entryId = [firedAt] ∧ sort.millis ≤ firedAt.millis

/-- What holds of every state: the log is numbered, the graph is the fold of a part of it,
every firing is at an instant that can be represented, and the columns agree with the log. -/
structure Sound (state : State) : Prop where
  numbered : Numbered 0 state.log
  folded : ∃ behind pending, state.log = behind ++ pending ∧
    foldLog apply behind Graph.fresh = .ok state.graph
  represented : ∀ entry, ∀ firedAt ∈ firings state.log entry, calendar.represents firedAt = true
  agrees : ∀ full, foldLog apply state.log Graph.fresh = .ok full →
    Agrees calendar state.log full

end Runs

section Preservation

variable {calendar : Calendar} {overflowChecks : Bool} {before after : State} {now : Timestamp}
variable {entry : EntryId}

theorem firings_stamp (position : Nat) (due : List (MemoryId × EntryId)) :
    firings (stamp position now .orchestration
        (due.map fun due => .scheduledJobFired due.2 due.1 now)) entry =
      List.replicate ((due.map Prod.snd).count entry) now := by
  induction due generalizing position with
  | nil => rfl
  | cons pair rest ih =>
    have split : firings (stamp position now .orchestration
        ((pair :: rest).map fun due => .scheduledJobFired due.2 due.1 now)) entry =
        (if pair.2 = entry then [now] else []) ++
          List.replicate ((rest.map Prod.snd).count entry) now := by
      rw [← ih (position + 1)]
      by_cases here : pair.2 = entry <;> simp [firings, stamp, firing, here]
    rw [split, List.map_cons, List.count_cons]
    by_cases here : pair.2 = entry
    · simp [here, List.replicate_succ]
    · simp [here]

theorem Sound.sameSchedule (sound : Sound calendar before)
    (quiet : ∀ event ∈ before.log, before.graph.head < event.seq →
      bearsOnWakeups event.payload = false)
    {full : Graph} (projects : foldLog apply before.log Graph.fresh = .ok full) :
    SameSchedule before.graph full := by
  obtain ⟨behind, pending, split, folded⟩ := sound.folded
  have numbered := sound.numbered
  rw [split] at numbered projects quiet
  have ⟨earlier, later⟩ := numbered_append.mp numbered
  have ⟨reachable, head⟩ := foldLog_reachable Reachable.fresh earlier folded
  have level : before.graph.head = 0 + behind.length := head
  rw [← level] at later
  obtain ⟨middle, first, rest⟩ := foldLog_append_ok.mp projects
  rw [folded] at first
  cases first
  exact sameSchedule_fold reachable later (fun event member =>
    quiet event (by simp [member]) (numbered_bounds later event member).1) rest

theorem Sound.fired (laws : calendar.Lawful) (sound : Sound calendar before)
    (meets : Meets calendar overflowChecks before (.fire now))
    {full : Graph} (projects : foldLog apply before.log Graph.fresh = .ok full) :
    ∃ due : List (MemoryId × EntryId),
      firedBy calendar overflowChecks before now = stamp before.log.length now .orchestration
        (due.map fun due => .scheduledJobFired due.2 due.1 now) ∧
      (due.map Prod.snd).Nodup ∧
      ∀ entry, entry ∈ due.map Prod.snd ↔ LiveAndDue calendar before.log full now entry := by
  have ⟨quiet, found⟩ := meets
  have same := sound.sameSchedule quiet projects
  have agrees := sound.agrees full projects
  have asserted : ∀ row ∈ before.graph.entries, calendar.represents row.assertedAt = true := by
    intro row member
    obtain ⟨row', stored, equal, _⟩ := same.forth row member
    have there := agrees.asserted row' stored
    change calendar.represents (scheduleOf row).assertedAt = true
    rw [← equal]
    exact there
  have fired : ∀ row ∈ before.graph.entries, ∀ rule, ruleOf row = some rule →
      calendar.represents (baseline row) = true := by
    intro row member rule ruled
    obtain ⟨row', stored, equal, _⟩ := same.forth row member
    change ruleOf (scheduleOf row) = some rule at ruled
    change calendar.represents (baseline (scheduleOf row)) = true
    rw [← equal] at ruled ⊢
    change ruleOf row' = some rule at ruled
    change calendar.represents (baseline row') = true
    rw [baseline, agrees.firedAt stored (occurs_of_ruleOf ruled)]
    cases last : lastFiring before.log row'.entryId with
    | none => exact agrees.asserted row' stored
    | some firedAt =>
      exact sound.represented _ firedAt (List.mem_of_getLast? last)
  obtain ⟨due, computed, once, exact'⟩ := fireDue_exact laws asserted fired found
  refine ⟨due, by rw [firedBy, computed, Option.getD_some], once, fun entry => ?_⟩
  rw [exact']
  constructor
  · rintro ⟨row, member, live, named, rowDue⟩
    obtain ⟨row', stored, equal, alive⟩ := same.forth row member
    refine ⟨row', stored, alive.trans live, (entryId_congr equal).trans named, ?_⟩
    exact (agrees.rowDue_iff stored).mp ((rowDue_congr equal).mpr rowDue)
  · rintro ⟨row', stored, live, named, dueBy⟩
    obtain ⟨row, member, equal, alive⟩ := same.back row' stored
    refine ⟨row, member, alive.symm.trans live, (entryId_congr equal).symm.trans named, ?_⟩
    exact (rowDue_congr equal).mp ((agrees.rowDue_iff stored).mpr dueBy)

theorem Sound.firesExactly (laws : calendar.Lawful) (sound : Sound calendar before)
    (meets : Meets calendar overflowChecks before (.fire now)) :
    FiresExactly calendar before now
      { before with log := before.log ++ firedBy calendar overflowChecks before now } := by
  intro full projects entry
  obtain ⟨due, computed, once, exact'⟩ := sound.fired laws meets projects
  simp only [computed, firings_append, firings_stamp]
  constructor
  · intro isDue
    rw [List.count_eq_one_of_mem once ((exact' entry).mpr isDue)]
    rfl
  · intro notDue
    rw [List.count_eq_zero_of_not_mem fun member => notDue ((exact' entry).mp member)]
    exact List.append_nil _

/-- The firings of one call keep the columns in agreement. -/
theorem Agrees.batch {due : List (MemoryId × EntryId)} {position : Nat} {log : List Event}
    {start final : Graph} (agrees : Agrees calendar log start)
    (once : (due.map Prod.snd).Nodup)
    (fires : ∀ entry ∈ due.map Prod.snd, start.entries.contains entry = true ∧
      ∀ row ∈ start.entries, row.entryId = entry →
        ∀ sort, row.occurrence.bounds.sort = some sort →
          firings log entry = [] ∧ sort.millis ≤ now.millis)
    (folded : foldLog apply (stamp position now .orchestration
      (due.map fun due => .scheduledJobFired due.2 due.1 now)) start = .ok final) :
    Agrees calendar (log ++ stamp position now .orchestration
      (due.map fun due => .scheduledJobFired due.2 due.1 now)) final := by
  induction due generalizing position log start with
  | nil =>
    cases folded
    simpa [stamp] using agrees
  | cons pair rest ih =>
    obtain ⟨middle, applied, remaining⟩ := foldLog_cons_ok.mp folded
    obtain ⟨fresh, later⟩ := List.nodup_cons.mp once
    obtain ⟨there, first⟩ := fires pair.2 (by simp)
    have next := agrees.concat_firing applied rfl there first
    have continued := ih next later ?_ remaining
    · simpa [stamp] using continued
    · intro entry member
      have different : entry ≠ pair.2 := fun same => fresh (same ▸ member)
      obtain ⟨known, waiting⟩ := fires entry (by simp [member])
      refine ⟨Agrees.contains_entries_apply applied known, ?_⟩
      intro row stored named sort sorted
      have silent : firing entry
          ⟨position + 1, now, .orchestration, .scheduledJobFired pair.2 pair.1 now⟩ = none := by
        simp [firing, Ne.symm different]
      rw [firings_concat_of_none silent]
      rcases (mem_entries_apply applied).mp stored with ⟨old, kept, rfl⟩ | appended
      · have other : old.entryId ≠ pair.2 := by
          rw [← @entryChange_entryId _ start old, named]
          exact different
        rw [show entryChange _ start old = old by simp [entryChange, other]] at named sorted
        exact waiting old kept named sort sorted
      · cases appended

theorem firedBy_eq :
    ∃ due : List (MemoryId × EntryId),
      firedBy calendar overflowChecks before now = stamp before.log.length now .orchestration
        (due.map fun due => .scheduledJobFired due.2 due.1 now) := by
  unfold firedBy fireDue
  cases dueRecurring calendar overflowChecks before.graph now with
  | none => exact ⟨[], rfl⟩
  | some => exact ⟨_, rfl⟩

theorem Sound.folded_append (sound : Sound calendar before) (more : List Event) :
    ∃ behind pending, before.log ++ more = behind ++ pending ∧
      foldLog apply behind Graph.fresh = .ok before.graph := by
  obtain ⟨behind, pending, split, folded⟩ := sound.folded
  exact ⟨behind, pending ++ more, by rw [split, List.append_assoc], folded⟩

theorem Sound.folds_all {graph : Graph} (sound : Sound calendar before)
    (folds : materializeFrom before.log before.graph = .ok graph) :
    foldLog apply before.log Graph.fresh = .ok graph := by
  obtain ⟨behind, pending, split, folded⟩ := sound.folded
  have numbered := sound.numbered
  rw [split] at numbered folds ⊢
  rw [← materializeFrom_of_folded numbered folded]
  exact folds

theorem Sound.step (laws : calendar.Lawful) {act : Act} (sound : Sound calendar before)
    (taken : Step calendar overflowChecks before act after)
    (meets : Meets calendar overflowChecks before act) : Sound calendar after := by
  cases taken with
  | @append recordedAt source payload unfired written =>
    have silent : ∀ entry, firings (stamp before.log.length recordedAt source [payload]) entry = [] := by
      intro entry
      simp only [firings, stamp, List.filterMap_cons, List.filterMap_nil, firing]
    constructor
    case numbered => exact numbered_log_stamp sound.numbered _ _ _
    case folded => exact sound.folded_append _
    case represented =>
      intro entry firedAt member
      rw [firings_append, silent, List.append_nil] at member
      exact sound.represented entry firedAt member
    case agrees =>
      intro full projects
      obtain ⟨middle, first, rest⟩ := foldLog_append_ok.mp projects
      obtain ⟨final, applied, done⟩ := foldLog_cons_ok.mp rest
      cases done
      exact (sound.agrees middle first).concat applied unfired meets written
  | @materialize graph folds =>
    exact ⟨sound.numbered, ⟨before.log, [], (List.append_nil _).symm, sound.folds_all folds⟩,
      sound.represented, sound.agrees⟩
  | @fire now reads =>
    constructor
    case numbered => exact numbered_log_stamp sound.numbered _ _ _
    case folded => exact sound.folded_append _
    case represented =>
      intro entry firedAt member
      obtain ⟨due, computed⟩ := @firedBy_eq calendar overflowChecks before now
      simp only [computed, firings_append, firings_stamp, List.mem_append,
        List.mem_replicate] at member
      rcases member with earlier | ⟨_, rfl⟩
      · exact sound.represented entry firedAt earlier
      · exact reads
    case agrees =>
      intro full projects
      obtain ⟨middle, first, rest⟩ := foldLog_append_ok.mp projects
      have agrees := sound.agrees middle first
      obtain ⟨due, computed, once, exact'⟩ := sound.fired laws meets first
      simp only [computed] at rest ⊢
      refine agrees.batch once ?_ rest
      intro entry member
      obtain ⟨row, stored, _, named, dueBy⟩ := (exact' entry).mp member
      refine ⟨Table.contains_iff.mpr ⟨row, stored, named⟩, ?_⟩
      intro other storedToo sameName sort sorted
      have same : row = other := Table.eq_of_key_eq stored storedToo (named.trans sameName.symm)
      subst same
      rw [DueBy, sorted] at dueBy
      exact ⟨named ▸ dueBy.2.2, dueBy.2.1⟩

theorem Sound.start : Sound calendar {} where
  numbered := trivial
  folded := ⟨[], [], rfl, rfl⟩
  represented := by
    intro entry firedAt member
    cases member
  agrees := by
    intro full projects
    cases projects
    exact Agrees.fresh

theorem Sound.firedOnce (sound : Sound calendar before) : FiredOnce before :=
  fun full projects row member sort sorted =>
    (sound.agrees full projects).once row member sort sorted

end Preservation

/-! ### The whole run -/

/-- A step that meets the condition. -/
def Careful (calendar : Calendar) (overflowChecks : Bool) (before : State) (act : Act)
    (after : State) : Prop :=
  Step calendar overflowChecks before act after ∧ Meets calendar overflowChecks before act

/-- After any run whose steps all meet the condition no concrete wake-up has fired twice or
early, and a further call that meets it fires exactly what is live and due by the log, each
entry once. -/
theorem fired_exactly_when_due (calendar : Calendar) (laws : calendar.Lawful)
    (overflowChecks : Bool) (acts : List Act) (state : State)
    (run : Trace (Careful calendar overflowChecks) {} acts state) :
    FiredOnce state ∧ ∀ now after, Careful calendar overflowChecks state (.fire now) after →
      FiresExactly calendar state now after := by
  have sound : Sound calendar state := by
    refine run.invariant (Sound calendar) ?_ Sound.start
    intro one act two taken holds
    exact holds.step laws taken.1 taken.2
  refine ⟨sound.firedOnce, ?_⟩
  intro now after ⟨taken, meets⟩
  have exact' := sound.firesExactly laws meets
  cases taken
  exact exact'

/-! One reminder, fired by one call and by two that overlap. -/

namespace OneReminder

def calendar : Calendar where
  represents instant := -377705023201000 ≤ instant.millis && instant.millis ≤ 253402207200999
  addCalendar start months years :=
    if months = 0 ∧ years = 0 ∧ -377705023201000 ≤ start.millis ∧
      start.millis ≤ 253402207200999 then some start else none

theorem lawful : calendar.Lawful := by
  constructor <;> simp only [calendar, FitsI64, Bool.and_eq_true, decide_eq_true_eq] <;> grind

def memory : EventPayload := .memoryCreated ⟨1⟩ ⟨"topic/launch"⟩

def reminder : EventPayload :=
  .memoryContentAppended ⟨1⟩ ⟨2⟩ ⟨0⟩ (some (.instant ⟨10⟩)) "call the venue" .agent none .public

def written : List Event :=
  stamp 0 ⟨0⟩ .agent [memory] ++ stamp 1 ⟨0⟩ .agent [reminder]

def shown : Graph := ((foldLog apply written Graph.fresh).toOption).getD Graph.fresh

theorem shown_eq : foldLog apply written Graph.fresh = .ok shown := rfl

def firedLog : List Event :=
  written ++ stamp 2 ⟨20⟩ .orchestration [.scheduledJobFired ⟨2⟩ ⟨1⟩ ⟨20⟩]

theorem fires_once : firedBy calendar true ⟨written, shown⟩ ⟨20⟩ =
    stamp 2 ⟨20⟩ .orchestration [.scheduledJobFired ⟨2⟩ ⟨1⟩ ⟨20⟩] := by
  decide

theorem fires_again : firedBy calendar true ⟨firedLog, shown⟩ ⟨20⟩ =
    stamp 3 ⟨20⟩ .orchestration [.scheduledJobFired ⟨2⟩ ⟨1⟩ ⟨20⟩] := by
  decide

theorem written_run : Trace (Careful calendar true) {}
    [.append ⟨0⟩ .agent memory, .append ⟨0⟩ .agent reminder, .materialize] ⟨written, shown⟩ := by
  have first : Step calendar true {} (.append ⟨0⟩ .agent memory)
      ⟨stamp 0 ⟨0⟩ .agent [memory], Graph.fresh⟩ := .append (by intros; simp [memory]) trivial
  have second : Step calendar true ⟨stamp 0 ⟨0⟩ .agent [memory], Graph.fresh⟩
      (.append ⟨0⟩ .agent reminder) ⟨written, Graph.fresh⟩ :=
    .append (by intros; simp [reminder]) (show calendar.represents ⟨0⟩ = true by decide)
  have third : Step calendar true ⟨written, Graph.fresh⟩ .materialize ⟨written, shown⟩ :=
    .materialize rfl
  exact .cons ⟨first, trivial⟩ (.cons ⟨second, trivial⟩ (.cons ⟨third, trivial⟩ (.nil _)))

theorem call : Step calendar true ⟨written, shown⟩ (.fire ⟨20⟩) ⟨firedLog, shown⟩ := by
  have fired : Step calendar true ⟨written, shown⟩ (.fire ⟨20⟩)
      ⟨written ++ firedBy calendar true ⟨written, shown⟩ ⟨20⟩, shown⟩ := .fire (by decide)
  rw [fires_once] at fired
  exact fired

/-- A second call reads the graph before the first call's materialization, and fires the
reminder a second time. -/
theorem fired_twice : ∃ acts before after,
    Trace (Step calendar true) {} acts before ∧
      Step calendar true before (.fire ⟨20⟩) after ∧
      firings after.log ⟨2⟩ = [⟨20⟩, ⟨20⟩] ∧ ¬ FiresExactly calendar before ⟨20⟩ after := by
  have again : Step calendar true ⟨firedLog, shown⟩ (.fire ⟨20⟩)
      ⟨firedLog ++ firedBy calendar true ⟨firedLog, shown⟩ ⟨20⟩, shown⟩ := .fire (by decide)
  rw [fires_again] at again
  have reached := (written_run.mono fun _ _ _ taken => taken.1).append (Trace.single call)
  refine ⟨_, _, _, reached, again, by decide, ?_⟩
  intro exact'
  have projects : foldLog apply firedLog Graph.fresh =
      .ok (((foldLog apply firedLog Graph.fresh).toOption).getD Graph.fresh) := rfl
  have quiet := (exact' _ projects ⟨2⟩).2 ?_
  · exact absurd quiet (by decide)
  · -- it is no longer due by the log
    rintro ⟨row, member, live, named, due⟩
    have timed : ∀ row ∈ (((foldLog apply firedLog Graph.fresh).toOption).getD
        Graph.fresh).entries.rows, row.occurrence.bounds.sort = some ⟨10⟩ := by decide
    rw [DueBy, timed row member] at due
    rw [named] at due
    exact absurd due.2.2 (by decide)

/-- One call fires the reminder once. -/
theorem fired_once : FiredOnce ⟨written, shown⟩ ∧
    FiresExactly calendar ⟨written, shown⟩ ⟨20⟩ ⟨firedLog, shown⟩ := by
  have general := fired_exactly_when_due calendar lawful true _ _ written_run
  refine ⟨general.1, general.2 ⟨20⟩ ⟨firedLog, shown⟩ ⟨call, ?_, ?_⟩⟩
  · decide
  · intro row member _ rule freq interval ruled
    have unruled : ∀ row ∈ shown.entries.rows, ruleOf row = none := by decide
    rw [unruled row member] at ruled
    cases ruled

end OneReminder

end Zuihitsu.Schedule
