/-
# Description passes beside the writers

A pass takes the describer guard, reads its memory's watermarks, takes a snapshot
of what it will consider, waits on the model, and appends what came of it with
the completion that marks the memory considered. Writers hold no part of the
guard, so they commit in any of those gaps. The completion puts the described
watermark at its own position in the log rather than at the snapshot's, and the
main result says what follows: an entry told of the memory while the pass was
waiting is taken for considered, and no other entry ever is.
-/

import Zuihitsu.Describe.Staleness

namespace Zuihitsu.Describe

open Zuihitsu.Core Zuihitsu.Graph Zuihitsu.Library

/-! ### The system -/

/-- What a pass holds while it waits on the model: the memory, its snapshot of the
class's live entries, the entries it may time and those whose date it may
withdraw. `position` is where the log stood when the snapshot was taken. -/
structure Pass where
  id : MemoryId
  memory : MemoryView
  entries : List EntryView
  eligible : List EntryId
  challengeable : List EntryId
  position : Nat

/-- The snapshot a pass takes of a memory last described at a position. -/
def Pass.snapshot (graph : Graph) (id : MemoryId) (memory : MemoryView) (described : Nat) :
    Pass where
  id := id
  memory := memory
  entries := graph.classEntries id
  eligible := graph.untimedEntriesSince id described
  challengeable := graph.timedEntriesSince id described
  position := graph.head

/-- Whether a pass may record an event before its completion. What it records of
that is the model's choice. -/
def Pass.mayRecord (pass : Pass) : EventPayload → Bool
  | .memoryDescriptionRegenerated id .. =>
    id = pass.id && pass.entries.any (·.visibility = .public)
  | .entryTemporalResolved id entry (some _) _ => id = pass.id && entry ∈ pass.eligible
  | .entryTemporalResolved id entry none _ => id = pass.id && entry ∈ pass.challengeable
  | .entryTemporalResolveFailed id entry .. => id = pass.id && entry ∈ pass.eligible
  | .beliefArbitrated id competing .. =>
    id = pass.id && 2 ≤ competing.length && competing.all fun entry =>
      pass.entries.any fun view =>
        view.entryId = entry && (view.visibility = .public || view.visibility = .attributed)
  | _ => false

/-- Whoever holds the describer guard, and how far it is. -/
inductive Phase where
  | idle
  | considering (id : MemoryId) (described : Nat)
  | awaiting (pass : Pass)

/-- The graph, the guard, and for each memory where the log stood at the snapshot
of the last pass that completed over it. -/
structure System where
  graph : Graph
  phase : Phase
  considered : MemoryId → Nat

/-- The watermark a memory's last pass left, and none before the first. -/
def describedUpTo (graph : Graph) (id : MemoryId) : Nat :=
  ((graph.memoryRow id).map (·.lastDescribedSeq)).getD 0

/-- No pass is running, and the memories were considered up to their watermarks. -/
def System.start (graph : Graph) : System := ⟨graph, .idle, describedUpTo graph⟩

/-- What can happen next. -/
inductive Label where
  | writes (recordedAt : Timestamp) (source : EventSource) (payloads : List EventPayload)
  | considers (id : MemoryId)
  | snapshots
  | abandons
  | completes (now : Timestamp) (synthesis : List EventPayload)

/-- Whether a writer other than the describer commits a payload: genesis is over. -/
def ofWriter : EventPayload → Bool
  | .genesisCompleted => false
  | .describePassCompleted _ => false
  | _ => true

/-- The steps of one instance: its writers, and the one pass the guard admits. -/
inductive Step : System → Label → System → Prop
  | writes {system : System} {recordedAt : Timestamp} {source : EventSource}
      {payloads : List EventPayload} {graph : Graph}
      (others : ∀ payload ∈ payloads, ofWriter payload = true)
      (committed : commit recordedAt source payloads system.graph = .ok graph) :
      Step system (.writes recordedAt source payloads) { system with graph }
  | considers {system : System} {id : MemoryId} {content described : Nat}
      (free : system.phase = .idle)
      (watermarks : system.graph.describedState id = some (content, described))
      (owed : described < content) :
      Step system (.considers id) { system with phase := .considering id described }
  | snapshots {system : System} {id : MemoryId} {described : Nat} {memory : MemoryView}
      (guarded : system.phase = .considering id described)
      (found : system.graph.memoryById id = some memory) :
      Step system .snapshots
        { system with phase := .awaiting (Pass.snapshot system.graph id memory described) }
  | abandons {system : System} {id : MemoryId} {described : Nat}
      (guarded : system.phase = .considering id described)
      (missing : system.graph.memoryById id = none) :
      Step system .abandons { system with phase := .idle }
  | completes {system : System} {pass : Pass} {now : Timestamp} {synthesis : List EventPayload}
      {graph : Graph} (guarded : system.phase = .awaiting pass)
      (recorded : ∀ payload ∈ synthesis, pass.mayRecord payload = true)
      (committed : commit now .orchestration (synthesis ++ [.describePassCompleted [pass.id]])
        system.graph = .ok graph) :
      Step system (.completes now synthesis)
        ⟨graph, .idle, fun id => if id = pass.id then pass.position else system.considered id⟩

/-! ### What is asked of it -/

/-- Whether a payload tells an entry of a memory. -/
def appendsTo (id : MemoryId) : EventPayload → Bool
  | .memoryContentAppended appended .. => appended = id
  | _ => false

/-- Whether a step tells an entry of a memory. -/
def Label.appendsTo (id : MemoryId) : Label → Bool
  | .writes _ _ payloads => payloads.any (Describe.appendsTo id)
  | _ => false

/-- A later pass still owes an entry its consideration: its memory is stale and, if
it is untimed and mirrors no description, it is among the entries to be timed. -/
def Owed (graph : Graph) (row : EntryRow) : Prop :=
  Stale graph row.memoryId ∧
    (row.occurrence.occurredAt = none → row.descriptionMirror = false →
      row.entryId ∈ graph.untimedEntriesSince row.memoryId (describedUpTo graph row.memoryId))

/-- No entry of a memory is later than a position. -/
def Quiet (graph : Graph) (id : MemoryId) (position : Nat) : Prop :=
  ∀ row ∈ graph.entries, row.memoryId = id → row.seq ≤ position

/-- Every live entry of a live memory that no completed pass considered is owed. -/
def NothingLost (system : System) : Prop :=
  ∀ row ∈ system.graph.entries, row.supersededBy = none →
    (system.graph.liveRow row.memoryId).isSome = true →
    system.considered row.memoryId < row.seq → Owed system.graph row

/-- A step that, if it completes a pass, completes one over a memory no entry was
told of since the snapshot. -/
def Undisturbed (before : System) (label : Label) (after : System) : Prop :=
  Step before label after ∧
    ∀ pass, (∃ now synthesis, label = .completes now synthesis) → before.phase = .awaiting pass →
      Quiet before.graph pass.id pass.position

/-! ### What one event does -/

section Events

variable {before after graph result : Graph} {event : Event} {id : MemoryId} {position : Nat}
variable {recordedAt : Timestamp} {source : EventSource} {payloads : List EventPayload}

theorem appendedRow_memoryId {row : EntryRow} (appended : appendedRow event before = some row) :
    appendsTo row.memoryId event.payload = true ∧ row.seq = event.seq := by
  unfold appendedRow at appended
  split at appended
  · rename_i payload
    cases appended
    simp [payload, appendsTo, appendedEntry]
  · cases appended

theorem quiet_apply_iff (applied : apply event before = .ok after) (later : position < event.seq) :
    Quiet after id position ↔ Quiet before id position ∧ appendsTo id event.payload = false := by
  constructor
  · intro quiet
    constructor
    · intro row member owner
      have kept := quiet _ ((mem_entries_apply applied).mpr (.inl ⟨row, member, rfl⟩))
        (by rw [entryChange_memoryId, owner])
      rwa [entryChange_seq] at kept
    · cases payload : event.payload with
      | memoryContentAppended appended entryId assertedAt occurredAt text toldBy toldIn visibility =>
        -- an entry told by the event is later than the position
        by_contra told
        have here : appended = id := by simpa [appendsTo] using told
        have added : appendedRow event before = some (appendedEntry event before appended entryId
            assertedAt occurredAt text toldBy toldIn visibility) := by
          rw [appendedRow, payload]
        have early := quiet _ ((mem_entries_apply applied).mpr (.inr added)) here
        exact absurd early (not_le.mpr later)
      | _ => rfl
  · rintro ⟨quiet, silent⟩ row member owner
    rcases (mem_entries_apply applied).mp member with ⟨old, oldMem, rfl⟩ | appended
    · rw [entryChange_memoryId] at owner
      rw [entryChange_seq]
      exact quiet old oldMem owner
    · have told := (appendedRow_memoryId appended).1
      rw [owner, silent] at told
      cases told

theorem quiet_commit_iff (committed : commit recordedAt source payloads graph = .ok result)
    (later : position ≤ graph.head) :
    Quiet result id position ↔
      Quiet graph id position ∧ payloads.any (appendsTo id) = false := by
  induction payloads generalizing graph with
  | nil =>
    cases committed
    simp
  | cons payload rest ih =>
    obtain ⟨middle, applied, remaining⟩ := commit_cons_ok.mp committed
    have head := head_of_apply applied
    rw [ih remaining (by rw [head]; exact Nat.le_succ_of_le later),
      quiet_apply_iff applied (Nat.lt_succ_of_le later), List.any_cons, Bool.or_eq_false_iff,
      and_assoc]

theorem head_commit (committed : commit recordedAt source payloads graph = .ok result) :
    graph.head ≤ result.head := by
  refine commit_induction (motive := fun other => graph.head ≤ other.head) ?_ committed le_rfl
  intro payload _ before after applied behind
  rw [head_of_apply applied]
  exact Nat.le_succ_of_le behind

/-- Every entry of a memory was considered by the last pass that completed, or is
later than the watermark the pass left. -/
def Owes (considered : MemoryId → Nat) (graph : Graph) : Prop :=
  ∀ row ∈ graph.entries, ∀ memory ∈ graph.memories, memory.id = row.memoryId →
    row.seq ≤ considered row.memoryId ∨ memory.lastDescribedSeq < row.seq

theorem Owes.apply {considered : MemoryId → Nat} (owes : Owes considered before)
    (dated : Dated before) (folds : Folds before event after)
    (covers : ∀ id, completesPass event id = true → Quiet after id (considered id)) :
    Owes considered after := by
  intro row member memory memoryMem owner
  cases completes : completesPass event memory.id with
  | true => exact .inl (covers row.memoryId (by rw [← owner, completes]) row member rfl)
  | false =>
    -- no pass: the watermark stays, and an entry told now is past it
    rcases (mem_memories_apply folds.2).mp memoryMem with ⟨old, oldMem, rfl⟩ | created
    · rw [memoryChange_id] at owner completes
      rw [memoryChange_lastDescribedSeq_of_not_completes old completes]
      rcases (mem_entries_apply folds.2).mp member with ⟨told, toldMem, rfl⟩ | appended
      · rw [entryChange_memoryId] at owner
        rw [entryChange_memoryId, entryChange_seq]
        exact owes told toldMem old oldMem owner
      · have described := dated.described old oldMem
        have next := folds.1
        have at_event := (appendedRow_memoryId appended).2
        right
        omega
    · -- an entry's memory exists before the entry does
      have fresh := (created_of_apply folds.2 created).1
      have exists_before : ∃ known ∈ before.memories, known.id = memory.id := by
        rcases (mem_entries_apply folds.2).mp member with ⟨told, toldMem, rfl⟩ | appended
        · obtain ⟨known, knownMem, same, _⟩ := dated.behind told toldMem
          rw [entryChange_memoryId] at owner
          exact ⟨known, knownMem, same.trans owner.symm⟩
        · obtain ⟨known, knownMem, same⟩ :=
            Table.contains_iff.mp (appended_of_apply folds.2 appended).1
          exact ⟨known, knownMem, same.trans owner.symm⟩
      obtain ⟨known, knownMem, same⟩ := exists_before
      rw [← same, Table.contains_of_mem knownMem] at fresh
      cases fresh

theorem Owes.commit {considered : MemoryId → Nat} (owes : Owes considered graph)
    (reachable : Reachable graph) (others : ∀ payload ∈ payloads, ofWriter payload = true)
    (committed : commit recordedAt source payloads graph = .ok result) :
    Owes considered result := by
  refine (commit_induction (motive := fun other => Reachable other ∧ Owes considered other)
    ?_ committed ⟨reachable, owes⟩).2
  rintro payload member before after applied ⟨earlier, owed⟩
  have folds : Folds before _ after := ⟨rfl, applied⟩
  refine ⟨earlier.step folds, owed.apply earlier.dated folds ?_⟩
  intro id completes
  have writer := others payload member
  unfold completesPass at completes
  cases payload <;> simp_all [ofWriter]

theorem describedUpTo_of_mem {memory : MemoryRow} (member : memory ∈ graph.memories) :
    describedUpTo graph memory.id = memory.lastDescribedSeq := by
  have found : graph.memoryRow memory.id = some memory :=
    Table.find_eq_some_iff.mpr ⟨member, rfl⟩
  simp [describedUpTo, found]

theorem owes_start : Owes (describedUpTo graph) graph := by
  intro row member memory memoryMem owner
  rw [← owner, describedUpTo_of_mem memoryMem]
  exact le_or_gt _ _

theorem owed_of_owes {considered : MemoryId → Nat} (owes : Owes considered graph)
    (dated : Dated graph) {row : EntryRow} (member : row ∈ graph.entries)
    (standing : row.supersededBy = none)
    (live : (graph.liveRow row.memoryId).isSome = true)
    (later : considered row.memoryId < row.seq) : Owed graph row := by
  obtain ⟨memory, found⟩ := Option.isSome_iff_exists.mp live
  obtain ⟨memoryMem, owner⟩ := Table.find_eq_some_iff.mp (Option.filter_eq_some_iff.mp found).1
  have ahead : memory.lastDescribedSeq < row.seq := by
    rcases owes row member memory memoryMem owner with early | ahead
    · omega
    · exact ahead
  obtain ⟨other, otherMem, same, behind⟩ := dated.behind row member
  have unique : other = memory := Table.eq_of_key_eq otherMem memoryMem (same.trans owner.symm)
  subst unique
  -- the content watermark is at or past the entry, the described one behind it
  refine ⟨stale_iff.mpr ⟨other, found, ahead.trans_le behind⟩, fun untimed plain => ?_⟩
  simp only [untimedEntriesSince, List.mem_map, mem_entryRowsWhere]
  refine ⟨row, ⟨member, ?_⟩, rfl⟩
  rw [← same, describedUpTo_of_mem otherMem]
  simp [same, untimed, plain, standing, ahead]

theorem not_stale_of_completes (dated : Dated before) (folds : Folds before event after)
    (completes : event.payload = .describePassCompleted [id]) : ¬Stale after id := by
  intro stale
  obtain ⟨row, live, outrun⟩ := stale_iff.mp stale
  rcases liveRow_of_apply folds.2 live with ⟨old, oldLive, rfl⟩ | ⟨_, created, _⟩
  · obtain ⟨oldMem, oldId⟩ := Table.find_eq_some_iff.mp (Option.filter_eq_some_iff.mp oldLive).1
    have content := dated.content old oldMem
    have next := folds.1
    have untouched : (memoryChange event before old).lastContentSeq = old.lastContentSeq := by
      rw [memoryChange_lastContentSeq, touchesContent, completes]
      rfl
    have described : (memoryChange event before old).lastDescribedSeq = event.seq := by
      rw [memoryChange_eq]
      simp [memoryColumns, completes, oldId]
    omega
  · simp [createdMemory, completes] at created

end Events

/-! ### What one step does -/

section Steps

variable {before after : System} {label : Label} {pass : Pass}

theorem Pass.mayRecord_ofWriter {payload : EventPayload} (may : pass.mayRecord payload = true) :
    ofWriter payload = true := by
  unfold Pass.mayRecord at may
  split at may <;> first | rfl | cases may

theorem Pass.mayRecord_silent {payload : EventPayload} (may : pass.mayRecord payload = true)
    (id : MemoryId) : appendsTo id payload = false := by
  unfold Pass.mayRecord at may
  split at may <;> first | rfl | cases may

theorem Step.reachable (step : Step before label after) (reachable : Reachable before.graph) :
    Reachable after.graph := by
  cases step with
  | writes _ committed => exact reachable.commit committed
  | considers | snapshots | abandons => exact reachable
  | completes _ _ committed => exact reachable.commit committed

theorem Step.completes_inv {now : Timestamp} {synthesis : List EventPayload}
    (step : Step before (.completes now synthesis) after)
    (guarded : before.phase = .awaiting pass) :
    (∀ payload ∈ synthesis, pass.mayRecord payload = true) ∧
      (after.considered = fun id => if id = pass.id then pass.position else before.considered id) ∧
      ∃ middle, commit now .orchestration synthesis before.graph = .ok middle ∧
        Folds middle ⟨middle.head + 1, now, .orchestration, .describePassCompleted [pass.id]⟩
          after.graph := by
  cases step with
  | completes held recorded committed =>
    rw [guarded] at held
    cases held
    obtain ⟨middle, first, last⟩ := commit_append_ok.mp committed
    obtain ⟨result, applied, done⟩ := commit_cons_ok.mp last
    cases done
    exact ⟨recorded, rfl, middle, first, rfl, applied⟩

theorem Undisturbed.owes (step : Undisturbed before label after)
    (reachable : Reachable before.graph) (owes : Owes before.considered before.graph)
    (behind : ∀ pass, before.phase = .awaiting pass → pass.position ≤ before.graph.head) :
    Owes after.considered after.graph := by
  obtain ⟨taken, quiet⟩ := step
  cases label with
  | completes now synthesis =>
    have held : ∃ pass, before.phase = .awaiting pass := by
      cases taken with
      | completes guarded => exact ⟨_, guarded⟩
    obtain ⟨pass, guarded⟩ := held
    obtain ⟨recorded, considered, middle, first, folds⟩ := taken.completes_inv guarded
    have quietBefore := quiet pass ⟨now, synthesis, rfl⟩ guarded
    rw [considered]
    -- up to the snapshot the pass considered everything, so nothing changes in what is owed
    have covered : Owes (fun id => if id = pass.id then pass.position else before.considered id)
        before.graph := by
      intro row member memory memoryMem owner
      by_cases here : row.memoryId = pass.id
      · simp only [here, if_true]
        exact .inl (quietBefore row member here)
      · simp only [here, if_false]
        exact owes row member memory memoryMem owner
    -- what it recorded tells no entry, so it is still all there is
    have quietMiddle : Quiet middle pass.id pass.position := by
      refine (quiet_commit_iff first (behind pass guarded)).mpr ⟨quietBefore, ?_⟩
      simp only [List.any_eq_false, Bool.not_eq_true]
      exact fun payload member => Pass.mayRecord_silent (recorded payload member) _
    have early := head_commit first
    have quietAfter : Quiet after.graph pass.id pass.position :=
      (quiet_apply_iff folds.2
        (Nat.lt_succ_of_le ((behind pass guarded).trans early))).mpr ⟨quietMiddle, rfl⟩
    have written := covered.commit reachable
      (fun payload member => Pass.mayRecord_ofWriter (recorded payload member)) first
    refine written.apply (reachable.commit first).dated folds ?_
    intro id completes
    have here : id = pass.id := by simpa [completesPass] using completes
    simp only [here, if_true]
    exact quietAfter
  | writes =>
    cases taken with
    | writes others committed => exact owes.commit reachable others committed
  | considers | snapshots | abandons =>
    cases taken
    exact owes

theorem Step.behind (step : Step before label after)
    (behind : ∀ pass, before.phase = .awaiting pass → pass.position ≤ before.graph.head) :
    ∀ pass, after.phase = .awaiting pass → pass.position ≤ after.graph.head := by
  cases step with
  | writes _ committed =>
    intro pass guarded
    exact (behind pass guarded).trans (head_commit committed)
  | considers | abandons | completes => rintro pass ⟨⟩
  | snapshots =>
    rintro pass ⟨⟩
    exact le_refl _

end Steps

/-! ### What a run does -/

section Runs

variable {taken waiting done : System} {labels : List Label} {pass : Pass}

theorem quiet_waiting_iff (run : Trace Step taken labels waiting)
    (held : taken.phase = .awaiting pass)
    (waits : ∀ now synthesis, Label.completes now synthesis ∉ labels) {position : Nat}
    (later : position ≤ taken.graph.head) :
    waiting.phase = .awaiting pass ∧ position ≤ waiting.graph.head ∧
      (Quiet waiting.graph pass.id position ↔
        Quiet taken.graph pass.id position ∧ labels.any (·.appendsTo pass.id) = false) := by
  induction run with
  | nil => exact ⟨held, later, by simp⟩
  | @cons taken middle waiting label labels first rest ih =>
    have stillWaits : ∀ now synthesis, Label.completes now synthesis ∉ labels :=
      fun now synthesis member => waits now synthesis (List.mem_cons_of_mem _ member)
    cases first with
    | writes _ committed =>
      obtain ⟨guarded, behind, quiet⟩ := ih held stillWaits (later.trans (head_commit committed))
      refine ⟨guarded, behind, quiet.trans ?_⟩
      rw [quiet_commit_iff committed later, List.any_cons, Bool.or_eq_false_iff, and_assoc]
      rfl
    | considers free =>
      -- a waiting pass holds the guard, so no other can start
      rw [free] at held
      cases held
    | snapshots guarded =>
      rw [guarded] at held
      cases held
    | abandons guarded =>
      rw [guarded] at held
      cases held
    | completes => exact absurd List.mem_cons_self (waits _ _)

theorem owes_run {before after : System} (run : Trace Undisturbed before labels after)
    (reachable : Reachable before.graph) (owes : Owes before.considered before.graph)
    (behind : ∀ pass, before.phase = .awaiting pass → pass.position ≤ before.graph.head) :
    Reachable after.graph ∧ Owes after.considered after.graph := by
  induction run with
  | nil => exact ⟨reachable, owes⟩
  | cons first _ ih =>
    exact ih (first.1.reachable reachable) (first.owes reachable owes behind)
      (first.1.behind behind)

end Runs

/-- No update is lost exactly where no pass is disturbed. When a pass completes,
every entry of its memory later than its snapshot is still owed if and only if the
writers told no entry of the memory while the pass waited; and in a run whose every
completed pass was left undisturbed so, every entry no pass considered is owed. -/
theorem owed_iff_undisturbed (base : System) (reachable : Reachable base.graph) :
    (∀ (taken waiting done : System) (pass : Pass) (labels : List Label) (now : Timestamp)
        (synthesis : List EventPayload),
      Step base .snapshots taken → taken.phase = .awaiting pass →
      Trace Step taken labels waiting →
      (∀ now synthesis, Label.completes now synthesis ∉ labels) →
      Step waiting (.completes now synthesis) done →
      ((∀ row ∈ done.graph.entries, row.memoryId = pass.id → pass.position < row.seq →
          Owed done.graph row) ↔
        labels.any (·.appendsTo pass.id) = false)) ∧
    ∀ (labels : List Label) (final : System),
      Trace Undisturbed (System.start base.graph) labels final → NothingLost final := by
  constructor
  · intro taken waiting done pass labels now synthesis snapshot held run waits last
    have takenReachable := snapshot.reachable reachable
    have position : pass.position = taken.graph.head := by
      cases snapshot with
      | snapshots =>
        cases held
        rfl
    obtain ⟨guarded, later, quiet⟩ := quiet_waiting_iff run held waits position.le
    have waitingReachable : Reachable waiting.graph :=
      run.invariant (fun system => Reachable system.graph)
        (fun _ _ _ step earlier => step.reachable earlier) takenReachable
    obtain ⟨recorded, _, middle, first, folds⟩ := last.completes_inv guarded
    -- at the snapshot no entry is later than the head
    have quietTaken : Quiet taken.graph pass.id pass.position := by
      intro row member _
      rw [position]
      exact takenReachable.dated.entries row member
    have silent : synthesis.any (appendsTo pass.id) = false := by
      simp only [List.any_eq_false, Bool.not_eq_true]
      exact fun payload member => Pass.mayRecord_silent (recorded payload member) _
    have quietDone : Quiet done.graph pass.id pass.position ↔
        labels.any (·.appendsTo pass.id) = false := by
      rw [quiet_apply_iff folds.2 (Nat.lt_succ_of_le (later.trans (head_commit first))),
        quiet_commit_iff first later, quiet]
      simp [quietTaken, silent, appendsTo]
    rw [← quietDone]
    -- the completion clears the mark, so nothing later than the snapshot is owed
    have fresh := not_stale_of_completes (waitingReachable.commit first).dated folds rfl
    constructor
    · intro owed row member owner
      by_contra late
      have stale := (owed row member owner (not_le.mp late)).1
      rw [owner] at stale
      exact fresh stale
    · intro still row member owner late
      exact absurd (still row member owner) (not_le.mpr late)
  · intro labels final run row member standing live later
    obtain ⟨finalReachable, owes⟩ := owes_run run reachable owes_start (by rintro pass ⟨⟩)
    exact owed_of_owes owes finalReachable.dated member standing live later

/-! A pass over the garden while a turn tells of a second flower. -/

/-- The entry told while the pass waits. -/
def tulip : EntryId := ⟨3⟩

/-- Its stored row. -/
def tulipRow : EntryRow where
  entryId := tulip
  memoryId := garden
  assertedAt := ⟨1⟩
  occurrence := ⟨none, .unbounded⟩
  occurredAuthored := false
  text := "the tulip is white"
  toldBy := .agent
  toldIn := none
  visibility := .public
  originPlatform := none
  seq := 3

/-- The pass while it waits on the model. -/
def gardenPass : Pass :=
  Pass.snapshot toldGraph garden ⟨garden, ⟨"topic/garden"⟩, "", .medium, ⟨0⟩, []⟩ 0

/-- The turn that tells the second flower. -/
def interleaved : Label :=
  .writes ⟨1⟩ .agent
    [.memoryContentAppended garden tulip ⟨1⟩ none "the tulip is white" .agent none .public]

/-- The graph once the turn has committed. -/
def interleavedGraph : Graph :=
  ((commit ⟨1⟩ .agent
    [.memoryContentAppended garden tulip ⟨1⟩ none "the tulip is white" .agent none .public]
    toldGraph).toOption).getD toldGraph

/-- The graph once the pass has completed. -/
def overtakenGraph : Graph :=
  ((commit ⟨2⟩ .orchestration [.describePassCompleted [garden]] interleavedGraph).toOption).getD
    interleavedGraph

/-- The system with the guard taken for the garden. -/
def guarded : System := { System.start toldGraph with phase := .considering garden 0 }

/-- The system once the snapshot is taken. -/
def snapshotTaken : System := { System.start toldGraph with phase := .awaiting gardenPass }

/-- The system once the turn has committed. -/
def overtaking : System := { snapshotTaken with graph := interleavedGraph }

/-- The system once the pass has completed. -/
def overtaken : System :=
  ⟨overtakenGraph, .idle,
    fun id => if id = gardenPass.id then gardenPass.position else overtaking.considered id⟩

theorem snapshot_step : Step guarded .snapshots snapshotTaken := .snapshots rfl rfl

theorem interleaved_step : Step snapshotTaken interleaved overtaking :=
  .writes (by simp [ofWriter]) rfl

theorem completion_step : Step overtaking (.completes ⟨2⟩ []) overtaken :=
  .completes rfl (by simp) rfl

/-- An entry told while a pass waits is neither stale nor to be timed once the pass completes. -/
theorem interleaved_entry_lost :
    Trace Step (System.start toldGraph)
        [.considers garden, .snapshots, interleaved, .completes ⟨2⟩ []] overtaken ∧
      ∃ row ∈ overtaken.graph.entries, row.memoryId = garden ∧ gardenPass.position < row.seq ∧
        row.occurrence.occurredAt = none ∧ row.descriptionMirror = false ∧
        row.supersededBy = none ∧ ¬Stale overtaken.graph garden ∧
        row.entryId ∉
          overtaken.graph.untimedEntriesSince garden (describedUpTo overtaken.graph garden) := by
  have watermarks : toldGraph.describedState garden = some (2, 0) := rfl
  refine ⟨.cons (.considers rfl watermarks (by decide))
    (.cons snapshot_step (.cons interleaved_step (.single completion_step))), ?_⟩
  refine ⟨tulipRow, by decide, rfl, by decide, rfl, rfl, rfl, ?_, by decide⟩
  unfold Stale
  decide

/-- The overtaken pass, as the general result decides it. -/
theorem owed_iff_undisturbed_garden :
    ((∀ row ∈ overtaken.graph.entries, row.memoryId = gardenPass.id →
        gardenPass.position < row.seq → Owed overtaken.graph row) ↔
      [interleaved].any (·.appendsTo gardenPass.id) = false) ∧
    NothingLost { System.start toldGraph with graph := interleavedGraph } := by
  have reachable : Reachable toldGraph := plantedGraph_reachable.step telling_folds
  constructor
  · exact (owed_iff_undisturbed guarded reachable).1 snapshotTaken overtaking overtaken gardenPass
      [interleaved] ⟨2⟩ [] snapshot_step rfl (.single interleaved_step) (by simp [interleaved])
      completion_step
  · have step : Undisturbed (System.start toldGraph) interleaved
        { System.start toldGraph with graph := interleavedGraph } :=
      ⟨.writes (by simp [ofWriter]) rfl, by rintro pass ⟨now, synthesis, ⟨⟩⟩⟩
    exact (owed_iff_undisturbed guarded reachable).2 [interleaved] _ (.single step)

end Zuihitsu.Describe
