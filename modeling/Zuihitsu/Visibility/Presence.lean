/-
# Who is present

The predicates ask whether somebody of a party's identity class is in the room,
and the graph answers with the class of a live memory and with the memory itself
otherwise. For a live party that is the component of the identity links it belongs
to. A party whose memory was deleted keeps its links, and the room is searched for
it under its own id alone.
-/

import Zuihitsu.Block.Reads
import Zuihitsu.Graph.Lookup

namespace Zuihitsu

open Zuihitsu.Core Zuihitsu.Graph Zuihitsu.Library Zuihitsu.MemoryBlock

/-! ### The presence tests over a graph -/

section Tests

theorem isPresent_eq (graph : Graph) (entity : MemoryId) (presentSet : List MemoryId) :
    isPresent (blockClassOf graph) entity presentSet =
      .ok (decide (∃ present ∈ presentSet, graph.classOf present = graph.classOf entity)) := by
  simp only [isPresent, blockClassOf, bind, Except.bind, pure, Except.pure]
  induction presentSet with
  | nil => rfl
  | cons present rest ih =>
    by_cases same : graph.classOf present = graph.classOf entity
    · simp [List.anyM, bind, Except.bind, pure, Except.pure, same]
    · simp only [List.anyM, bind, Except.bind, same, decide_false, ih, List.exists_mem_cons_iff,
        false_or]

theorem noExcludeePresent_eq (graph : Graph) (excluded : IdSet) (presentSet : List MemoryId) :
    noExcludeePresent (blockClassOf graph) excluded presentSet =
      .ok (decide (∀ party ∈ excluded.members, ∀ present ∈ presentSet,
        graph.classOf present ≠ graph.classOf party)) := by
  unfold noExcludeePresent
  simp only [isPresent_eq, bind, Except.bind, pure, Except.pure]
  induction excluded.members with
  | nil => rfl
  | cons party rest ih =>
    by_cases here : ∃ present ∈ presentSet, graph.classOf present = graph.classOf party
    · obtain ⟨present, member, same⟩ := here
      have found : decide (∃ present ∈ presentSet, graph.classOf present = graph.classOf party) =
          true := decide_eq_true ⟨present, member, same⟩
      simp only [List.allM, bind, Except.bind, pure, Except.pure, found, Bool.not_true]
      refine congrArg Except.ok (decide_eq_false fun absent => ?_).symm
      exact absent party List.mem_cons_self present member same
    · have missing : decide (∃ present ∈ presentSet, graph.classOf present = graph.classOf party) =
          false := decide_eq_false here
      simp only [List.allM, bind, Except.bind, missing, Bool.not_false, ih]
      refine congrArg Except.ok ?_
      rw [Bool.eq_iff_iff, decide_eq_true_iff, decide_eq_true_iff, List.forall_mem_cons]
      exact ⟨fun absent => ⟨fun present member same => here ⟨present, member, same⟩, absent⟩,
        And.right⟩

end Tests

/-! ### Presence against the components -/

/-- Somebody present is of a party's component of the identity links, whatever was
deleted. -/
def SomebodyOf (graph : Graph) (entity : MemoryId) (presentSet : List MemoryId) : Prop :=
  ∃ present ∈ presentSet, UnionFind.Connected (sameAsEdges graph) present entity

/-- A party whose memory was deleted while merged under another primary, with
somebody of its component present. -/
def LostInDeletion (graph : Graph) (entity : MemoryId) (presentSet : List MemoryId) : Prop :=
  (∃ row ∈ graph.memories, row.id = entity ∧ row.deleted = true ∧ row.classId ≠ entity) ∧
    SomebodyOf graph entity presentSet

section Components

variable {graph : Graph} {entity : MemoryId} {presentSet : List MemoryId}

theorem classOf_eq_iff_of_live (reachable : Reachable graph) {present : MemoryId}
    {presentRow row : MemoryRow} (attends : graph.liveRow present = some presentRow)
    (live : graph.liveRow entity = some row) :
    graph.classOf present = graph.classOf entity ↔
      UnionFind.Connected (sameAsEdges graph) present entity := by
  rw [classOf_of_live attends, classOf_of_live live]
  obtain ⟨presentMem, rfl, _⟩ := liveRow_eq_some.mp attends
  obtain ⟨member, rfl, _⟩ := liveRow_eq_some.mp live
  exact reachable.classed.classId_eq_iff presentMem member

theorem not_found_of_unknown (reachable : Reachable graph) {present : MemoryId}
    {presentRow : MemoryRow} (attends : graph.liveRow present = some presentRow)
    (unknown : graph.memories.contains entity = false) :
    graph.classOf present ≠ entity ∧
      ¬UnionFind.Connected (sameAsEdges graph) present entity := by
  obtain ⟨presentMem, rfl, _⟩ := liveRow_eq_some.mp attends
  constructor
  · -- a class is named after a memory the graph knows
    rw [classOf_of_live attends]
    obtain ⟨best, bestMem, named, _⟩ := reachable.classed.best presentMem
    rintro rfl
    have known := Table.contains_of_mem bestMem
    rw [named, unknown] at known
    cases known
  · exact reachable.linked.not_connected_of_unknown unknown presentMem

theorem classOf_eq_iff_of_deleted (reachable : Reachable graph) {present : MemoryId}
    {presentRow row : MemoryRow} (attends : graph.liveRow present = some presentRow)
    (member : row ∈ graph.memories) :
    graph.classOf present = row.id ↔
      row.classId = row.id ∧ UnionFind.Connected (sameAsEdges graph) present row.id := by
  obtain ⟨presentMem, rfl, _⟩ := liveRow_eq_some.mp attends
  rw [classOf_of_live attends]
  have classed := reachable.classed
  constructor
  · intro same
    obtain ⟨best, bestMem, named, connected, _⟩ := classed.best presentMem
    -- the class is named after the deleted memory, which is thus of the component
    rw [named, same] at connected
    have alike := (classed.classId_eq_iff member presentMem).mpr connected
    exact ⟨alike.trans same, connected.symm⟩
  · rintro ⟨own, connected⟩
    exact ((classed.classId_eq_iff presentMem member).mpr connected).trans own

/-- Over a reachable graph, and an audience of live memories, a party is found
present exactly when somebody of its component is, unless its memory was deleted
while merged under another primary and somebody of its component is there. -/
theorem presence_is_component_iff (reachable : Reachable graph)
    (attending : ∀ present ∈ presentSet, (graph.liveRow present).isSome = true) :
    (isPresent (blockClassOf graph) entity presentSet = .ok true ↔
        SomebodyOf graph entity presentSet) ↔
      ¬LostInDeletion graph entity presentSet := by
  simp only [isPresent_eq, Except.ok.injEq, decide_eq_true_eq]
  have rowOf : ∀ present ∈ presentSet, ∃ row, graph.liveRow present = some row :=
    fun present attends => Option.isSome_iff_exists.mp (attending present attends)
  cases live : graph.liveRow entity with
  | some row =>
    -- a live party is never lost
    obtain ⟨member, rfl, kept⟩ := liveRow_eq_some.mp live
    have found : (∃ present ∈ presentSet, graph.classOf present = graph.classOf row.id) ↔
        SomebodyOf graph row.id presentSet := by
      refine exists_congr fun present => and_congr_right fun attends => ?_
      obtain ⟨presentRow, presentLive⟩ := rowOf present attends
      exact classOf_eq_iff_of_live reachable presentLive live
    refine iff_of_true found ?_
    rintro ⟨⟨other, otherMem, same, deleted, _⟩, _⟩
    rw [Table.eq_of_key_eq otherMem member same, kept] at deleted
    cases deleted
  | none =>
    rw [classOf_of_absent live]
    cases known : graph.memories.contains entity with
    | false =>
      -- nobody is found, and nobody is of its component
      have nobody : ¬SomebodyOf graph entity presentSet := by
        rintro ⟨present, attends, connected⟩
        obtain ⟨presentRow, presentLive⟩ := rowOf present attends
        exact (not_found_of_unknown reachable presentLive known).2 connected
      have unfound : ¬∃ present ∈ presentSet, graph.classOf present = entity := by
        rintro ⟨present, attends, same⟩
        obtain ⟨presentRow, presentLive⟩ := rowOf present attends
        exact (not_found_of_unknown reachable presentLive known).1 same
      exact iff_of_true (iff_of_false unfound nobody) fun lost => nobody lost.2
    | true =>
      obtain ⟨row, member, rfl⟩ := Table.contains_iff.mp known
      -- there but not live, so it was deleted: it is asked for by its own id
      have deleted : row.deleted = true := by
        by_contra kept
        rw [liveRow_eq_some.mpr ⟨member, rfl, by simpa using kept⟩] at live
        cases live
      have found : (∃ present ∈ presentSet, graph.classOf present = row.id) ↔
          row.classId = row.id ∧ SomebodyOf graph row.id presentSet := by
        rw [SomebodyOf, ← exists_and_left]
        refine exists_congr fun present => ?_
        rw [and_left_comm]
        refine and_congr_right fun attends => ?_
        obtain ⟨presentRow, presentLive⟩ := rowOf present attends
        exact classOf_eq_iff_of_deleted reachable presentLive member
      rw [found]
      constructor
      · rintro agree ⟨⟨other, otherMem, same, _, renamed⟩, somebody⟩
        rw [Table.eq_of_key_eq otherMem member same] at renamed
        exact renamed (agree.mpr somebody).1
      · intro kept
        refine ⟨And.right, fun somebody => ⟨?_, somebody⟩⟩
        by_contra renamed
        exact kept ⟨⟨row, member, rfl, deleted, renamed⟩, somebody⟩

end Components

/-! One of the two accounts of an excluded person is deleted after they were merged. -/

namespace Parted

/-- The log: the aside excludes the later account, which is merged into the earlier
one and then deleted. -/
def told : List EventPayload :=
  [.linkTypeRegistered .sameAs .sameAs .many .many true false "",
    .memoryCreated ⟨1⟩ ⟨"person/dave"⟩, .memoryCreated ⟨2⟩ ⟨"person/dave@chat"⟩,
    .memoryCreated ⟨3⟩ ⟨"topic/party"⟩,
    .memoryContentAppended ⟨3⟩ ⟨1⟩ ⟨0⟩ none "it is a surprise" .agent none (.exclude (.singleton ⟨2⟩)),
    .linkCreated ⟨2⟩ ⟨1⟩ .sameAs .operator none none .public, .memoryDeleted ⟨2⟩]

def graph : Graph :=
  ((commit ⟨0⟩ .operator told Graph.fresh).toOption).getD Graph.fresh

theorem graph_reachable : Reachable graph := by
  have committed : commit ⟨0⟩ .operator told Graph.fresh = .ok graph := rfl
  exact Reachable.fresh.commit committed

/-- The excluded person is in the room under their other account, and is not found. -/
theorem deleted_excludee_missed :
    Reachable graph ∧
      (∃ row ∈ graph.entries, row.supersededBy = none ∧ row.visibility = .exclude (.singleton ⟨2⟩)) ∧
      (∀ present ∈ [MemoryId.mk 1], (graph.liveRow present).isSome = true) ∧
      ¬(isPresent (blockClassOf graph) ⟨2⟩ [⟨1⟩] = .ok true ↔ SomebodyOf graph ⟨2⟩ [⟨1⟩]) := by
  have linked : UnionFind.Connected (sameAsEdges graph) ⟨1⟩ ⟨2⟩ :=
    .rel _ _ (show (⟨1⟩, ⟨2⟩) ∈ sameAsEdges graph by decide)
  have unfound : isPresent (blockClassOf graph) ⟨2⟩ [⟨1⟩] = .ok false := rfl
  refine ⟨graph_reachable, by decide, by decide, fun agree => ?_⟩
  have found := agree.mpr ⟨⟨1⟩, List.mem_singleton_self _, linked⟩
  rw [unfound] at found
  cases found

/-- The account that was kept is found, as the general result has it. -/
theorem presence_is_component_iff_kept :
    (isPresent (blockClassOf graph) ⟨1⟩ [⟨1⟩] = .ok true ↔ SomebodyOf graph ⟨1⟩ [⟨1⟩]) ↔
      ¬LostInDeletion graph ⟨1⟩ [⟨1⟩] :=
  presence_is_component_iff graph_reachable (by decide)

end Parted

end Zuihitsu
