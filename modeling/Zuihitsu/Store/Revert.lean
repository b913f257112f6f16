/-
# Reverting the log

A revert truncates the log, then removes the derived files one by one: the graph, the
vectors, and each snapshot past the cut. A boot restores the newest snapshot if it leads
the graph file, and replays what the log holds past the head it finds; it never asks
whether that head is one the log still reaches. The main result says after which of its
steps a revert may stop: the boot then folds the truncated log, and goes on doing so,
exactly if nothing that is left was captured past the cut.
-/

import Zuihitsu.Graph.Resume

namespace Zuihitsu.Store

open Zuihitsu.Core Zuihitsu.Graph Zuihitsu.Library

/-! ### What is on disk -/

/-- Reading a database file back under the write-ahead log beside it. A file that is not
there is opened as an empty database, whatever log was left beside it. -/
structure Sqlite (file wal : Type) where
  read : Option file → Option wal → Graph
  absent : ∀ beside, read none beside = Graph.fresh

/-- A snapshot file, with the head its name carries. -/
structure Snapshot (file : Type) where
  head : Nat
  file : file

/-- The log, the graph and vector files with their siblings, and the snapshot directory. -/
structure Disk (file wal : Type) where
  log : List Event
  graph : Option file
  graphWal : Option wal
  graphShm : Bool
  vectors : Bool
  vectorsWal : Bool
  vectorsShm : Bool
  snapshots : Table (@Snapshot.head file)

section Files

variable {file wal : Type}

/-- The log without the events past a position. -/
def truncateTo (cut : Nat) (log : List Event) : List Event := log.filter fun event => event.seq ≤ cut

/-- Every snapshot, oldest first. -/
def snapshotsOf (disk : Disk file wal) : List (Snapshot file) :=
  disk.snapshots.rows.insertionSort fun first second => first.head ≤ second.head

/-- The newest snapshot. -/
def latest (disk : Disk file wal) : Option (Snapshot file) := (snapshotsOf disk).getLast?

/-! ### The revert, one removal at a time -/

/-- Remove the graph database, then its siblings. -/
def removeGraph : List (Disk file wal → Disk file wal) :=
  [fun disk => { disk with graph := none },
   fun disk => { disk with graphWal := none },
   fun disk => { disk with graphShm := false }]

/-- Remove the vector database, then its siblings. -/
def removeVectors : List (Disk file wal → Disk file wal) :=
  [fun disk => { disk with vectors := false },
   fun disk => { disk with vectorsWal := false },
   fun disk => { disk with vectorsShm := false }]

/-- The snapshots a revert discards, oldest first. -/
def pastCut (cut : Nat) (disk : Disk file wal) : List (Snapshot file) :=
  (snapshotsOf disk).filter fun snapshot => cut < snapshot.head

/-- Discard the snapshots past the cut, one by one. -/
def discardAfter (cut : Nat) (disk : Disk file wal) : List (Disk file wal → Disk file wal) :=
  (pastCut cut disk).map fun snapshot disk =>
    { disk with snapshots := disk.snapshots.delete fun other => other.head = snapshot.head }

/-- The steps of a revert. -/
def revert (cut : Nat) (disk : Disk file wal) : List (Disk file wal → Disk file wal) :=
  (fun disk => { disk with log := truncateTo cut disk.log }) ::
    (removeGraph ++ removeVectors ++ discardAfter cut disk)

/-- The disk after the first steps of a revert. -/
def stoppedAfter (count cut : Nat) (disk : Disk file wal) : Disk file wal :=
  ((revert cut disk).take count).foldl (fun disk step => step disk) disk

/-! ### The boot -/

/-- The head of the graph file, before it is opened. -/
def readGraphHead (sqlite : Sqlite file wal) (disk : Disk file wal) : Nat :=
  match disk.graph with
  | none => 0
  | some _ => (sqlite.read disk.graph disk.graphWal).head

/-- Copy the newest snapshot to the graph's path, if the graph is behind it. -/
def restoreIfStale (sqlite : Sqlite file wal) (disk : Disk file wal) : Disk file wal :=
  match latest disk with
  | none => disk
  | some snapshot =>
    if snapshot.head ≤ readGraphHead sqlite disk then disk
    else { disk with graph := some snapshot.file, graphWal := none, graphShm := false }

/-- A running instance: the log it holds open, and the graph. -/
structure Running where
  log : List Event
  graph : Graph

/-- What a boot opens, the tail of the log not replayed yet. -/
def opened (sqlite : Sqlite file wal) (disk : Disk file wal) : Running :=
  let restored := restoreIfStale sqlite disk
  ⟨restored.log, sqlite.read restored.graph restored.graphWal⟩

end Files

/-- What a running instance does: append to the log, or materialize it. -/
inductive Act where
  | append (recordedAt : Timestamp) (source : EventSource) (payloads : List EventPayload)
  | materialize

inductive Lives : Running → Act → Running → Prop
  | append (running : Running) (recordedAt : Timestamp) (source : EventSource)
      (payloads : List EventPayload) :
      Lives running (.append recordedAt source payloads)
        { running with log := running.log ++ stamp running.log.length recordedAt source payloads }
  | materialize {running : Running} {graph : Graph}
      (folds : materializeFrom running.log running.graph = .ok graph) :
      Lives running .materialize { running with graph }

/-- Whenever the instance materializes, from its boot on, it has the fold of its log. -/
def FoldsItsLog (booted : Running) : Prop :=
  ∀ acts running, Trace Lives booted acts running →
    materializeFrom running.log running.graph = foldLog apply running.log Graph.fresh

/-- The graph and every snapshot are folds of a prefix of the log. -/
structure Derived {file wal : Type} (sqlite : Sqlite file wal) (disk : Disk file wal) : Prop where
  numbered : Numbered 0 disk.log
  graph : ∃ count ≤ disk.log.length,
    foldLog apply (disk.log.take count) Graph.fresh = .ok (sqlite.read disk.graph disk.graphWal)
  snapshots : ∀ snapshot ∈ disk.snapshots, snapshot.head ≤ disk.log.length ∧
    foldLog apply (disk.log.take snapshot.head) Graph.fresh =
      .ok (sqlite.read (some snapshot.file) none)

/-- Nothing that a revert has not removed yet was captured past the cut: not the graph file
before its removal, and not a snapshot before the last one is discarded. -/
def NothingPast {file wal : Type} (sqlite : Sqlite file wal) (disk : Disk file wal)
    (cut count : Nat) : Prop :=
  (count < 2 → (sqlite.read disk.graph disk.graphWal).head ≤ cut) ∧
    (count < (revert cut disk).length → ∀ snapshot ∈ disk.snapshots, snapshot.head ≤ cut)

/-! ### What is left after some steps -/

section Stops

variable {file wal : Type} {sqlite : Sqlite file wal} {disk : Disk file wal} {cut count : Nat}

@[simp] theorem length_revert : (revert cut disk).length = 7 + (pastCut cut disk).length := by
  simp [revert, removeGraph, removeVectors, discardAfter]
  omega

theorem discard_each (gone : List (Snapshot file)) (disk : Disk file wal) :
    (gone.map fun snapshot (disk : Disk file wal) =>
        { disk with snapshots := disk.snapshots.delete fun other =>
            other.head = snapshot.head }).foldl (fun disk step => step disk) disk =
      { disk with snapshots := disk.snapshots.delete fun other =>
          other.head ∈ gone.map (·.head) } := by
  induction gone generalizing disk with
  | nil => simp [Table.delete]
  | cons first rest ih =>
    rw [List.map_cons, List.foldl_cons, ih]
    congr 1
    apply Table.ext
    simp only [Table.rows_delete, List.filter_filter]
    apply List.filter_congr
    intro other _
    by_cases here : other.head = first.head <;> simp [here]

theorem stoppedAfter_spec (started : 0 < count) :
    (stoppedAfter count cut disk).log = truncateTo cut disk.log ∧
      (stoppedAfter count cut disk).graph = (if count < 2 then disk.graph else none) ∧
      (count < 2 → (stoppedAfter count cut disk).graphWal = disk.graphWal) ∧
      (stoppedAfter count cut disk).snapshots = disk.snapshots.delete fun other =>
        other.head ∈ ((pastCut cut disk).take (count - 7)).map (·.head) := by
  have nothing : disk.snapshots.delete (fun _ => false) = disk.snapshots :=
    Table.delete_eq_self (by simp)
  match count with
  | 1 | 2 | 3 | 4 | 5 | 6 =>
    simp [stoppedAfter, revert, removeGraph, removeVectors, nothing]
  | discarded + 7 =>
    have steps : stoppedAfter (discarded + 7) cut disk =
        (((pastCut cut disk).take discarded).map fun snapshot (disk : Disk file wal) =>
          { disk with snapshots := disk.snapshots.delete fun other =>
              other.head = snapshot.head }).foldl (fun disk step => step disk)
          { disk with
            log := truncateTo cut disk.log, graph := none, graphWal := none, graphShm := false
            vectors := false, vectorsWal := false, vectorsShm := false } := by
      simp [stoppedAfter, revert, removeGraph, removeVectors, discardAfter, List.map_take]
    rw [steps, discard_each]
    simp

end Stops

/-! ### What a boot opens -/

section Boots

variable {file wal : Type} {sqlite : Sqlite file wal} {disk : Disk file wal} {cut count : Nat}
variable {snapshot : Snapshot file}

instance : Std.Total fun first second : Snapshot file => first.head ≤ second.head :=
  ⟨fun first second => Nat.le_total first.head second.head⟩

instance : IsTrans (Snapshot file) fun first second => first.head ≤ second.head :=
  ⟨fun _ _ _ => Nat.le_trans⟩

theorem mem_snapshotsOf : snapshot ∈ snapshotsOf disk ↔ snapshot ∈ disk.snapshots :=
  List.mem_insertionSort _

theorem latest_spec (newest : latest disk = some snapshot) :
    snapshot ∈ disk.snapshots ∧ ∀ other ∈ disk.snapshots, other.head ≤ snapshot.head := by
  obtain ⟨older, sorted⟩ := List.getLast?_eq_some_iff.mp newest
  have ordered := List.pairwise_insertionSort
    (fun first second : Snapshot file => first.head ≤ second.head) disk.snapshots.rows
  refine ⟨mem_snapshotsOf.mp (List.mem_of_getLast? newest), fun other member => ?_⟩
  have listed := mem_snapshotsOf.mpr member
  change (snapshotsOf disk).Pairwise _ at ordered
  rw [sorted] at listed ordered
  rcases List.mem_append.mp listed with earlier | last
  · exact (List.pairwise_append.mp ordered).2.2 other earlier snapshot (by simp)
  · rw [List.mem_singleton.mp last]

theorem readGraphHead_eq : readGraphHead sqlite disk = (sqlite.read disk.graph disk.graphWal).head := by
  unfold readGraphHead
  split
  · rename_i absent
    rw [absent, sqlite.absent]
    rfl
  · rfl

theorem opened_graph :
    (∃ snapshot ∈ disk.snapshots, (∀ other ∈ disk.snapshots, other.head ≤ snapshot.head) ∧
      (sqlite.read disk.graph disk.graphWal).head < snapshot.head ∧
      (opened sqlite disk).graph = sqlite.read (some snapshot.file) none) ∨
    ((∀ other ∈ disk.snapshots, other.head ≤ (sqlite.read disk.graph disk.graphWal).head) ∧
      (opened sqlite disk).graph = sqlite.read disk.graph disk.graphWal) := by
  rw [← readGraphHead_eq, opened, restoreIfStale]
  cases newest : latest disk with
  | none =>
    refine .inr ⟨fun other member => ?_, rfl⟩
    have empty : snapshotsOf disk = [] := List.getLast?_eq_none_iff.mp newest
    have listed := mem_snapshotsOf.mpr member
    rw [empty] at listed
    cases listed
  | some snapshot =>
    obtain ⟨member, newer⟩ := latest_spec newest
    dsimp only
    split
    · rename_i level
      exact .inr ⟨fun other there => (newer other there).trans level, rfl⟩
    · rename_i behind
      exact .inl ⟨snapshot, member, newer, Nat.lt_of_not_le behind, rfl⟩

theorem opened_log : (opened sqlite disk).log = disk.log := by
  rw [opened, restoreIfStale]
  cases latest disk with
  | none => rfl
  | some =>
    dsimp only
    split <;> rfl

theorem materializes_of_prefix {log : List Event} {graph : Graph} {position : Nat}
    (numbered : Numbered 0 log)
    (folded : foldLog apply (log.take position) Graph.fresh = .ok graph) :
    materializeFrom log graph = foldLog apply log Graph.fresh := by
  have whole := List.take_append_drop position log
  rw [← whole] at numbered
  have same := materializeFrom_of_folded numbered folded
  rwa [whole] at same

theorem foldsItsLog_of_prefix {booted : Running} (numbered : Numbered 0 booted.log)
    (folded : ∃ position, foldLog apply (booted.log.take position) Graph.fresh = .ok booted.graph) :
    FoldsItsLog booted := by
  intro acts running run
  have kept : Numbered 0 running.log ∧ ∃ position ≤ running.log.length,
      foldLog apply (running.log.take position) Graph.fresh = .ok running.graph := by
    refine run.invariant (fun running => Numbered 0 running.log ∧ ∃ position ≤ running.log.length,
      foldLog apply (running.log.take position) Graph.fresh = .ok running.graph) ?_ ?_
    · rintro one act other step ⟨numbered, position, within, folded⟩
      cases step with
      | append =>
        refine ⟨numbered_log_stamp numbered _ _ _, position, ?_, ?_⟩
        · rw [List.length_append]
          omega
        · show foldLog apply ((one.log ++ _).take position) Graph.fresh = _
          rw [List.take_append_of_le_length within]
          exact folded
      | materialize folds =>
        -- the graph is now the fold of the whole log
        refine ⟨numbered, one.log.length, le_rfl, ?_⟩
        show foldLog apply (one.log.take _) Graph.fresh = _
        rw [List.take_length, ← materializes_of_prefix numbered folded]
        exact folds
    · refine ⟨numbered, ?_⟩
      obtain ⟨position, folded⟩ := folded
      refine ⟨min position booted.log.length, Nat.min_le_right _ _, ?_⟩
      rw [← List.take_eq_take_min]
      exact folded
  obtain ⟨numbered, position, _, folded⟩ := kept
  exact materializes_of_prefix numbered folded

theorem head_of_prefix {log : List Event} {graph : Graph} {position : Nat}
    (numbered : Numbered 0 log) (within : position ≤ log.length)
    (folded : foldLog apply (log.take position) Graph.fresh = .ok graph) :
    graph.head = position := by
  have head := (foldLog_reachable Reachable.fresh (numbered_take numbered position) folded).2
  rw [head, List.length_take, Nat.min_eq_left within]
  exact Nat.zero_add _

theorem truncateTo_eq (derived : Derived sqlite disk) (cut : Nat) :
    truncateTo cut disk.log = disk.log.take cut := by
  have front := filter_upTo derived.numbered cut
  rw [Nat.zero_add] at front
  exact front

theorem read_stoppedAfter (started : 0 < count) :
    let stopped := stoppedAfter count cut disk
    sqlite.read stopped.graph stopped.graphWal =
      if count < 2 then sqlite.read disk.graph disk.graphWal else Graph.fresh := by
  obtain ⟨_, graph, wal, _⟩ := @stoppedAfter_spec _ _ disk cut count started
  dsimp only
  rw [graph]
  split
  · rename_i early
    rw [wal early]
  · exact sqlite.absent _

theorem mem_stoppedAfter_snapshots (started : 0 < count) :
    snapshot ∈ (stoppedAfter count cut disk).snapshots ↔ snapshot ∈ disk.snapshots ∧
      snapshot.head ∉ ((pastCut cut disk).take (count - 7)).map (·.head) := by
  rw [(stoppedAfter_spec started).2.2.2, Table.mem_delete]
  simp

theorem newest_left (started : 0 < count) (unfinished : count < (revert cut disk).length)
    (stored : snapshot ∈ disk.snapshots) (past : cut < snapshot.head) :
    ∃ newest ∈ (stoppedAfter count cut disk).snapshots, cut < newest.head := by
  have listed : snapshot ∈ pastCut cut disk :=
    List.mem_filter.mpr ⟨mem_snapshotsOf.mpr stored, by simpa using past⟩
  obtain ⟨older, newest, split⟩ : ∃ older newest, pastCut cut disk = older ++ [newest] := by
    refine ⟨_, _, (List.dropLast_append_getLast (List.ne_nil_of_mem listed)).symm⟩
  have last : newest ∈ pastCut cut disk := by simp [split]
  obtain ⟨sorted, newestPast⟩ := List.mem_filter.mp last
  refine ⟨newest, (mem_stoppedAfter_snapshots started).mpr ⟨mem_snapshotsOf.mp sorted, ?_⟩,
    by simpa using newestPast⟩
  have heads : ((pastCut cut disk).map (·.head)).Nodup := by
    refine (List.filter_sublist.map _).nodup ?_
    exact ((List.perm_insertionSort _ _).map _).nodup_iff.mpr disk.snapshots.nodup
  rw [length_revert, split, List.length_append, List.length_singleton] at unfinished
  rw [split, List.map_append, List.nodup_append] at heads
  rw [split, List.take_append_of_le_length (by omega)]
  intro taken
  have among : newest.head ∈ older.map (·.head) := by
    obtain ⟨other, member, same⟩ := List.mem_map.mp taken
    exact List.mem_map.mpr ⟨other, List.mem_of_mem_take member, same⟩
  exact heads.2.2 _ among _ (by simp) rfl

theorem opened_stoppedAfter (derived : Derived sqlite disk) (started : 0 < count) :
    let booted := opened sqlite (stoppedAfter count cut disk)
    ∃ position ≤ disk.log.length,
      foldLog apply (disk.log.take position) Graph.fresh = .ok booted.graph ∧
      ((count < 2 → (sqlite.read disk.graph disk.graphWal).head ≤ position) ∧
        ∀ snapshot ∈ (stoppedAfter count cut disk).snapshots, snapshot.head ≤ position) ∧
      (position = 0 ∨ (count < 2 ∧ position = (sqlite.read disk.graph disk.graphWal).head) ∨
        ∃ snapshot ∈ (stoppedAfter count cut disk).snapshots, snapshot.head = position) := by
  have read := @read_stoppedAfter _ _ sqlite disk cut count started
  have boot := @opened_graph _ _ sqlite (stoppedAfter count cut disk)
  dsimp only at read ⊢
  rw [read] at boot
  rcases boot with ⟨snapshot, left, newer, behind, graph⟩ | ⟨older, graph⟩
  · -- the newest snapshot is restored
    have stored := ((mem_stoppedAfter_snapshots started).mp left).1
    obtain ⟨within, folded⟩ := derived.snapshots snapshot stored
    refine ⟨snapshot.head, within, by rw [graph, folded], ⟨fun early => ?_, newer⟩,
      .inr (.inr ⟨snapshot, left, rfl⟩)⟩
    rw [if_pos early] at behind
    exact behind.le
  · by_cases early : count < 2
    · rw [if_pos early] at older graph
      obtain ⟨position, within, folded⟩ := derived.graph
      have head := head_of_prefix derived.numbered within folded
      rw [head] at older ⊢
      exact ⟨position, within, by rw [graph, folded], ⟨fun _ => le_rfl, older⟩,
        .inr (.inl ⟨early, rfl⟩)⟩
    · rw [if_neg early] at older graph
      exact ⟨0, Nat.zero_le _, by rw [graph]; rfl, ⟨fun here => absurd here early, older⟩, .inl rfl⟩

end Boots

/-- Stopped after any of its steps, a revert leaves a disk whose next boot folds the
truncated log, and goes on folding what is appended to it, exactly if nothing that is left
was captured past the cut. -/
theorem revert_crash_safe_iff {file wal : Type} {sqlite : Sqlite file wal}
    {disk : Disk file wal} {cut count : Nat} (derived : Derived sqlite disk)
    (reverts : cut < disk.log.length) (started : 0 < count) :
    FoldsItsLog (opened sqlite (stoppedAfter count cut disk)) ↔
      NothingPast sqlite disk cut count := by
  obtain ⟨position, within, folded, ⟨file, snapshots⟩, source⟩ :=
    @opened_stoppedAfter _ _ sqlite disk cut count derived started
  have log : (opened sqlite (stoppedAfter count cut disk)).log = disk.log.take cut := by
    rw [opened_log, (stoppedAfter_spec started).1, truncateTo_eq derived]
  have head := head_of_prefix derived.numbered within folded
  have numbered := numbered_take derived.numbered cut
  constructor
  · intro folds
    have booted := folds [] _ (.nil _)
    rw [log] at booted
    -- a graph past the cut replays nothing, and is not the fold of the truncated log
    have upTo : position ≤ cut := by
      by_contra ahead
      have nothing : (disk.log.take cut).filter
          (fun event => (opened sqlite (stoppedAfter count cut disk)).graph.head < event.seq) =
            [] := by
        rw [List.filter_eq_nil_iff]
        intro event member
        have bound := (numbered_bounds numbered event member).2
        rw [List.length_take] at bound
        simp only [decide_eq_true_eq]
        omega
      rw [materializeFrom, nothing] at booted
      have level := head_of_prefix derived.numbered reverts.le booted.symm
      omega
    refine ⟨fun early => (file early).trans upTo, fun unfinished snapshot stored => ?_⟩
    by_contra past
    obtain ⟨newest, left, newestPast⟩ :=
      newest_left started unfinished stored (Nat.lt_of_not_le past)
    have bound := snapshots newest left
    omega
  · rintro ⟨graphUpTo, snapshotsUpTo⟩
    have upTo : position ≤ cut := by
      rcases source with nothing | ⟨early, same⟩ | ⟨snapshot, left, same⟩
      · omega
      · rw [same]
        exact graphUpTo early
      · obtain ⟨stored, spared⟩ := (mem_stoppedAfter_snapshots started).mp left
        rw [← same]
        by_cases unfinished : count < (revert cut disk).length
        · exact snapshotsUpTo unfinished snapshot stored
        · -- every snapshot past the cut is discarded
          rw [length_revert] at unfinished
          rw [List.take_of_length_le (by omega)] at spared
          by_contra past
          refine spared (List.mem_map_of_mem (List.mem_filter.mpr
            ⟨mem_snapshotsOf.mpr stored, ?_⟩))
          simpa using past
    refine foldsItsLog_of_prefix (by rw [log]; exact numbered) ⟨position, ?_⟩
    rw [log, List.take_take, Nat.min_eq_left upTo]
    exact folded

/-! ### A server and its snapshots -/

section Serving

variable {file wal : Type}

/-- A prune that stops after so many removals. It removes the oldest snapshots, but for those to
keep, at least one. -/
def prune (keep count : Nat) (disk : Disk file wal) : Disk file wal :=
  let all := snapshotsOf disk
  let removed := (all.take (all.length - max keep 1)).take count
  { disk with snapshots := disk.snapshots.delete fun other => other.head ∈ removed.map (·.head) }

/-- What a server does to its files, and what starts one. -/
inductive Deed where
  | append (recordedAt : Timestamp) (source : EventSource) (payloads : List EventPayload)
  | project (upTo : Nat)
  | snapshot (minNewEvents : Nat)
  | prune (keep count : Nat)
  | boot

/-- The deeds, between any two of which the server may be killed. The graph is projected up to
some event, and a snapshot reads back as the graph it was taken of. -/
inductive Serves (sqlite : Sqlite file wal) : Disk file wal → Deed → Disk file wal → Prop
  | append (disk : Disk file wal) (recordedAt : Timestamp) (source : EventSource)
      (payloads : List EventPayload) :
      Serves sqlite disk (.append recordedAt source payloads)
        { disk with log := disk.log ++ stamp disk.log.length recordedAt source payloads }
  | project {disk : Disk file wal} {upTo : Nat} {graph : Graph} {main : file} {beside : Option wal}
      (ahead : (sqlite.read disk.graph disk.graphWal).head ≤ upTo)
      (folds : materializeFrom (disk.log.take upTo) (sqlite.read disk.graph disk.graphWal) =
        .ok graph) (persists : sqlite.read (some main) beside = graph) :
      Serves sqlite disk (.project upTo) { disk with graph := some main, graphWal := beside }
  | snapshot {disk : Disk file wal} {minNewEvents : Nat} {copy : file}
      {written : Table (@Snapshot.head file)}
      (due : minNewEvents ≤ (sqlite.read disk.graph disk.graphWal).head -
        (latest disk).elim 0 (·.head))
      (captures : sqlite.read (some copy) none = sqlite.read disk.graph disk.graphWal)
      (new : disk.snapshots.insert ⟨(sqlite.read disk.graph disk.graphWal).head, copy⟩ =
        some written) :
      Serves sqlite disk (.snapshot minNewEvents) { disk with snapshots := written }
  | prune (disk : Disk file wal) (keep count : Nat) :
      Serves sqlite disk (.prune keep count) (Store.prune keep count disk)
  | boot (disk : Disk file wal) : Serves sqlite disk .boot (restoreIfStale sqlite disk)

variable {sqlite : Sqlite file wal} {disk after : Disk file wal}

theorem Derived.serves {deed : Deed} (derived : Derived sqlite disk)
    (serves : Serves sqlite disk deed after) : Derived sqlite after := by
  obtain ⟨position, within, folded⟩ := derived.graph
  have head := head_of_prefix derived.numbered within folded
  cases serves with
  | append recordedAt source payloads =>
    have front : ∀ {count}, count ≤ disk.log.length → (disk.log ++ stamp disk.log.length recordedAt
        source payloads).take count = disk.log.take count := List.take_append_of_le_length
    refine ⟨numbered_log_stamp derived.numbered _ _ _, ⟨position, ?_, ?_⟩, fun snapshot stored => ?_⟩
    · exact within.trans (List.length_append ▸ Nat.le_add_right ..)
    · rw [front within]
      exact folded
    · obtain ⟨upTo, folds⟩ := derived.snapshots snapshot stored
      exact ⟨upTo.trans (List.length_append ▸ Nat.le_add_right ..), (front upTo).symm ▸ folds⟩
  | @project upTo _ _ _ ahead folds persists =>
    refine ⟨derived.numbered, ⟨min upTo disk.log.length, Nat.min_le_right .., ?_⟩, derived.snapshots⟩
    rw [head] at ahead
    have reached : foldLog apply ((disk.log.take upTo).take position) Graph.fresh =
        .ok (sqlite.read disk.graph disk.graphWal) := by
      rw [List.take_take, Nat.min_eq_left ahead]
      exact folded
    rw [← List.take_eq_take_min, persists, ← folds,
      materializes_of_prefix (numbered_take derived.numbered upTo) reached]
  | snapshot _ captures new =>
    refine ⟨derived.numbered, derived.graph, fun snapshot stored => ?_⟩
    rcases (Table.mem_insert new).mp stored with earlier | rfl
    · exact derived.snapshots snapshot earlier
    · refine ⟨head.trans_le within, ?_⟩
      rw [captures, head]
      exact folded
  | prune keep count =>
    exact ⟨derived.numbered, derived.graph, fun snapshot stored =>
      derived.snapshots snapshot (Table.mem_delete.mp stored).1⟩
  | boot =>
    unfold restoreIfStale
    split
    · exact derived
    · rename_i snapshot newest
      split
      · exact derived
      · obtain ⟨upTo, folds⟩ := derived.snapshots snapshot (latest_spec newest).1
        exact ⟨derived.numbered, ⟨_, upTo, folds⟩, derived.snapshots⟩

theorem latest_prune (keep count : Nat) (disk : Disk file wal) :
    latest (prune keep count disk) = latest disk := by
  have older : ∀ snapshot ∈ (prune keep count disk).snapshots, snapshot ∈ disk.snapshots :=
    fun _ left => (Table.mem_delete.mp left).1
  cases newest : latest disk with
  | none =>
    have empty : snapshotsOf disk = [] := List.getLast?_eq_none_iff.mp newest
    refine List.getLast?_eq_none_iff.mpr (List.eq_nil_iff_forall_not_mem.mpr fun snapshot left => ?_)
    have stored := mem_snapshotsOf.mpr (older snapshot (mem_snapshotsOf.mp left))
    rw [empty] at stored
    cases stored
  | some snapshot =>
    obtain ⟨stored, newer⟩ := latest_spec newest
    obtain ⟨earlier, split⟩ := List.getLast?_eq_some_iff.mp newest
    have heads : ((snapshotsOf disk).map (·.head)).Nodup :=
      ((List.perm_insertionSort _ _).map _).nodup_iff.mpr disk.snapshots.nodup
    rw [split, List.map_append, List.nodup_append] at heads
    -- the removed ones are among the earlier ones
    have survives : snapshot ∈ (prune keep count disk).snapshots := by
      refine Table.mem_delete.mpr ⟨stored, decide_eq_false fun removed => ?_⟩
      obtain ⟨other, taken, same⟩ := List.mem_map.mp removed
      have front := List.mem_of_mem_take taken
      have several := Nat.le_max_right keep 1
      rw [split, List.take_append_of_le_length (by simp)] at front
      exact heads.2.2 _ (List.mem_map_of_mem (List.mem_of_mem_take front)) _
        List.mem_cons_self same
    cases left : latest (prune keep count disk) with
    | none =>
      have none' := List.getLast?_eq_none_iff.mp left
      have listed := mem_snapshotsOf.mpr survives
      rw [none'] at listed
      cases listed
    | some other =>
      obtain ⟨kept, above⟩ := latest_spec left
      exact congrArg some (Table.eq_of_key_eq (older other kept) stored
        (le_antisymm (newer other (older other kept)) (above snapshot survives)))

theorem serving_folds {deeds : List Deed} (derived : Derived sqlite disk)
    (run : Trace (Serves sqlite) disk deeds after) :
    FoldsItsLog (opened sqlite after) ∧
      (∀ snapshot ∈ after.snapshots, snapshot.head ≤ (opened sqlite after).graph.head) ∧
      ∀ keep count, latest (prune keep count after) = latest after := by
  have held : Derived sqlite after :=
    run.invariant (Derived sqlite) (fun _ _ _ serves derived => derived.serves serves) derived
  have booted := held.serves (.boot after)
  obtain ⟨position, within, folded⟩ := booted.graph
  have folds : FoldsItsLog (opened sqlite after) :=
    foldsItsLog_of_prefix booted.numbered ⟨position, folded⟩
  refine ⟨folds, ?_, fun keep count => latest_prune keep count after⟩
  rcases @opened_graph _ _ sqlite after with ⟨newest, stored, newer, _, graph⟩ | ⟨older, graph⟩
  · obtain ⟨upTo, folds'⟩ := held.snapshots newest stored
    rw [graph, head_of_prefix held.numbered upTo folds']
    exact newer
  · rw [graph]
    exact older

end Serving

/-! ### A revert stopped after the truncation -/

namespace Halfway

def sqlite : Sqlite Graph Graph where
  read main beside := main.elim Graph.fresh beside.getD
  absent := by
    intro beside
    rfl

def kept : Event := ⟨1, ⟨0⟩, .agent, .memoryCreated ⟨1⟩ ⟨"topic/kept"⟩⟩

def reverted : Event := ⟨2, ⟨0⟩, .agent, .memoryCreated ⟨2⟩ ⟨"topic/reverted"⟩⟩

/-- What folding a log leaves. -/
def folded (log : List Event) : Graph := ((foldLog apply log Graph.fresh).toOption).getD Graph.fresh

/-- A graph level with its log, its last event still in the write-ahead log, and a snapshot of
the event before. -/
def disk : Disk Graph Graph where
  log := [kept, reverted]
  graph := some (folded [kept])
  graphWal := some (folded [kept, reverted])
  graphShm := true
  vectors := true
  vectorsWal := false
  vectorsShm := false
  snapshots := ⟨[⟨1, folded [kept]⟩], List.nodup_singleton _⟩

theorem disk_derived : Derived sqlite disk where
  numbered := ⟨rfl, rfl, trivial⟩
  graph := ⟨2, le_rfl, rfl⟩
  snapshots := by
    intro snapshot member
    cases List.mem_singleton.mp member
    exact ⟨by decide, rfl⟩

/-- The graph file outlives the truncation, and the boot keeps what was reverted. -/
theorem reverted_kept :
    Derived sqlite disk ∧ 1 < disk.log.length ∧
      ¬FoldsItsLog (opened sqlite (stoppedAfter 1 1 disk)) := by
  refine ⟨disk_derived, by decide, fun folds => ?_⟩
  have booted := folds [] _ (.nil _)
  have whole : materializeFrom [kept] (folded [kept, reverted]) = .ok (folded [kept, reverted]) := rfl
  have truncated : foldLog apply [kept] Graph.fresh = .ok (folded [kept]) := rfl
  have same := (whole.symm.trans booted).trans truncated
  have heads : (2 : Nat) = 1 := congrArg Graph.head (Except.ok.inj same)
  omega

/-- Once the graph file is removed, the boot rebuilds from the snapshot. -/
theorem reverted_gone : FoldsItsLog (opened sqlite (stoppedAfter 2 1 disk)) := by
  refine (revert_crash_safe_iff disk_derived (by decide) (by decide)).mpr ⟨by omega, ?_⟩
  intro _ snapshot member
  cases List.mem_singleton.mp member
  exact le_rfl

theorem disk_serves : FoldsItsLog (opened sqlite (restoreIfStale sqlite
    (prune 1 1 { disk with log := disk.log ++ stamp 2 ⟨3⟩ .agent [] }))) :=
  (serving_folds disk_derived (.cons (.append disk ⟨3⟩ .agent [])
    (.cons (.prune _ 1 1) (.single (.boot _))))).1

end Halfway

end Zuihitsu.Store
