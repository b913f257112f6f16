/-
# Identity classes are the components of the identity links

The class of every memory is denormalized on its row and recomputed as a whole
where an identity link or a designation is written. The main result is that
nothing else can change what a recomputation would give: in every reachable graph
two memories have the same class exactly when identity links connect them, and a
class is named after its primary.
-/

import Zuihitsu.Graph.Registry
import Mathlib.Data.Prod.Lex
import Mathlib.Order.Bounds.Basic

namespace Zuihitsu.Graph

open Zuihitsu.Core Zuihitsu.Library

/-! ### The primary of a component -/

section Primary

/-- How a member is ranked in the choice of a primary: designated members first,
then the earlier id. -/
def rank (member : MemoryId × Bool) : Bool ×ₗ Nat := toLex (!member.2, member.1.ulid)

theorem outranks_iff {candidate best : MemoryId × Bool} :
    outranks candidate best = true ↔ rank candidate < rank best := by
  rw [rank, rank, Prod.Lex.toLex_lt_toLex]
  obtain ⟨candidate, chosen⟩ := candidate
  obtain ⟨best, designated⟩ := best
  cases chosen <;> cases designated <;> simp [outranks] <;> exact Iff.rfl

theorem rank_le_iff {best other : MemoryId × Bool} :
    rank best ≤ rank other ↔
      best.2 = true ∧ other.2 = false ∨ best.2 = other.2 ∧ best.1 ≤ other.1 := by
  rw [rank, rank, Prod.Lex.toLex_le_toLex]
  obtain ⟨best, chosen⟩ := best
  obtain ⟨other, designated⟩ := other
  cases chosen <;> cases designated <;> simp [MemoryId.le_def]

private theorem foldl_outranks_le (first : MemoryId × Bool) (rest : List (MemoryId × Bool)) :
    ∀ member ∈ first :: rest,
      rank (rest.foldl (fun best candidate => if outranks candidate best then candidate else best)
        first) ≤ rank member := by
  induction rest generalizing first with
  | nil =>
    intro member single
    rw [List.mem_singleton.mp single]
    exact le_rfl
  | cons candidate rest ih =>
    intro member inList
    rw [List.foldl_cons]
    -- the better of the two goes on, and beats both
    have better : rank (if outranks candidate first then candidate else first) ≤ rank first ∧
        rank (if outranks candidate first then candidate else first) ≤ rank candidate := by
      split
      · rename_i wins
        exact ⟨(outranks_iff.mp wins).le, le_rfl⟩
      · rename_i loses
        exact ⟨le_rfl, not_lt.mp fun wins => loses (outranks_iff.mpr wins)⟩
    have onward := ih (if outranks candidate first then candidate else first)
    have head := onward _ List.mem_cons_self
    rcases List.mem_cons.mp inList with rfl | later
    · exact head.trans better.1
    · rcases List.mem_cons.mp later with rfl | later
      · exact head.trans better.2
      · exact onward member (List.mem_cons_of_mem _ later)

variable {members : List (MemoryId × Bool)} {root : MemoryId → MemoryId} {id : MemoryId}

theorem primaryOf_best (known : id ∈ members.map Prod.fst) :
    ∃ best ∈ members, best.1 = primaryOf members root id ∧ root best.1 = root id ∧
      ∀ member ∈ members, root member.1 = root id → rank best ≤ rank member := by
  obtain ⟨entry, inMembers, rfl⟩ := List.mem_map.mp known
  have inComponent : entry ∈ members.filter fun member => root member.1 = root entry.1 :=
    List.mem_filter.mpr ⟨inMembers, by simp⟩
  unfold primaryOf
  split
  · rename_i none
    rw [none] at inComponent
    cases inComponent
  · rename_i first rest listed
    have member := foldl_outranks_mem first rest
    have least := foldl_outranks_le first rest
    rw [← listed] at member least
    obtain ⟨bestMember, sameRoot⟩ := List.mem_filter.mp member
    refine ⟨_, bestMember, rfl, by simpa using sameRoot, fun other otherMem same => ?_⟩
    exact least other (List.mem_filter.mpr ⟨otherMem, by simpa using same⟩)

end Primary

/-! ### What keeps the classes current -/

/-- Every link is between memories that are there. -/
def Linked (graph : Graph) : Prop :=
  ∀ link ∈ graph.links, graph.memories.contains link.fromId = true ∧
    graph.memories.contains link.toId = true

/-- Every memory carries the class a recomputation would give it. -/
def Classed (graph : Graph) : Prop :=
  ∀ row ∈ graph.memories,
    row.classId = primaryOf (recomputeMembers graph) (classRoot (sameAsEdges graph)) row.id

section Current

variable {event : Event} {before after : Graph}

theorem contains_memory_apply {id : MemoryId} (known : before.memories.contains id = true)
    (applied : apply event before = .ok after) : after.memories.contains id = true := by
  obtain ⟨row, member, rfl⟩ := Table.contains_iff.mp known
  exact Table.contains_iff.mpr
    ⟨_, (mem_memories_apply applied).mpr (.inl ⟨row, member, rfl⟩), by simp⟩

theorem contains_memory_commit {recordedAt : Timestamp} {source : EventSource}
    {payloads : List EventPayload} {id : MemoryId} (known : before.memories.contains id = true)
    (committed : commit recordedAt source payloads before = .ok after) :
    after.memories.contains id = true :=
  commit_induction (motive := fun graph => graph.memories.contains id = true)
    (fun _ _ _ _ applied earlier => contains_memory_apply earlier applied) committed known

theorem linked_of_apply (applied : apply event before = .ok after) {fromId toId : MemoryId}
    {relation : RelationName} {source : LinkSource} {toldBy : Option Teller}
    {toldIn : Option ConversationRef} {visibility : Visibility}
    (payload : event.payload = .linkCreated fromId toId relation source toldBy toldIn visibility)
    (fresh : before.links.contains (canonicalEdge before fromId toId relation) = false) :
    before.memories.contains fromId = true ∧ before.memories.contains toId = true := by
  obtain ⟨projected, ran, _⟩ := apply_ok.mp applied
  simp only [project, payload, Script.run_read, Script.run_exec_ok, upsertLink_ok] at ran
  obtain ⟨_, ⟨taken | ⟨parents, _⟩, _⟩, _⟩ := ran
  · have clash : before.links.contains (canonicalEdge before fromId toId relation) = true := taken
    rw [fresh] at clash
    cases clash
  · have ends := canonicalEdge_ends before fromId toId relation
    rcases ends with ⟨first, second⟩ | ⟨first, second⟩
    · rwa [first, second] at parents
    · rw [first, second] at parents
      exact parents.symm

theorem Linked.apply (linked : Linked before) (applied : apply event before = .ok after) :
    Linked after := by
  have kept : ∀ link ∈ before.links, after.memories.contains link.fromId = true ∧
      after.memories.contains link.toId = true := fun link member =>
    ⟨contains_memory_apply (linked link member).1 applied,
      contains_memory_apply (linked link member).2 applied⟩
  intro link member
  rw [apply_links applied] at member
  cases payload : event.payload with
  | linkCreated fromId toId relation source toldBy toldIn visibility =>
    simp only [linksAfter, payload] at member
    -- an upsert keeps the old rows, rewrites one, or adds the new link
    rcases Table.mem_upsert.mp member with ⟨old, _⟩ | ⟨old, oldMem, _, rfl⟩ | ⟨fresh, rfl⟩
    · exact kept link old
    · exact kept old oldMem
    · obtain ⟨first, second⟩ := linked_of_apply applied payload fresh
      have first := contains_memory_apply first applied
      have second := contains_memory_apply second applied
      rcases canonicalEdge_ends before fromId toId relation with ⟨one, other⟩ | ⟨one, other⟩
      · exact ⟨by rwa [one], by rwa [other]⟩
      · exact ⟨by rwa [one], by rwa [other]⟩
  | linkRemoved =>
    simp only [linksAfter, payload] at member
    exact kept link (Table.mem_delete.mp member).1
  | _ =>
    simp only [linksAfter, payload] at member
    exact kept link member

/-- The endpoints of an identity link. -/
def sameAsEdge (link : LinkRow) : Option (MemoryId × MemoryId) :=
  if link.relation = .sameAs then some (link.fromId, link.toId) else none

theorem mem_sameAsEdges {graph : Graph} {edge : MemoryId × MemoryId} :
    edge ∈ sameAsEdges graph ↔
      ∃ link ∈ graph.links, link.relation = .sameAs ∧ (link.fromId, link.toId) = edge := by
  simp [sameAsEdges, Table.mem_def, and_assoc]

theorem sameAsEdges_eq (graph : Graph) :
    sameAsEdges graph = graph.links.rows.filterMap sameAsEdge := by
  unfold sameAsEdges
  induction graph.links.rows with
  | nil => rfl
  | cons link rest ih =>
    by_cases identity : link.relation = .sameAs
    · simp [sameAsEdge, identity, ih]
    · simp [sameAsEdge, identity, ih]

theorem sameAsEdges_apply (applied : apply event before = .ok after)
    (kept : recomputes event before = false) : sameAsEdges after = sameAsEdges before := by
  rw [sameAsEdges_eq, sameAsEdges_eq, apply_links applied]
  cases payload : event.payload with
  | linkCreated fromId toId relation source toldBy toldIn visibility =>
    have other : (canonicalEdge before fromId toId relation).2.2 ≠ .sameAs := by
      simpa [recomputes, writesSameAs, payload] using kept
    simp only [linksAfter, payload]
    -- a link of another relation is no identity edge, old or new
    exact Table.filterMap_upsert (fun _ => rfl) (if_neg other)
  | linkRemoved fromId toId relation =>
    have other : (canonicalEdge before fromId toId relation).2.2 ≠ .sameAs := by
      simpa [recomputes, writesSameAs, payload] using kept
    simp only [linksAfter, payload]
    refine Table.filterMap_delete fun link _ same => if_neg fun identity => ?_
    have key : link.key = canonicalEdge before fromId toId relation := by simpa using same
    exact other (by rw [← key]; exact identity)
  | _ => simp only [linksAfter, payload]

theorem classRoot_eq_iff (edges : List (MemoryId × MemoryId)) (first second : MemoryId) :
    classRoot edges first = classRoot edges second ↔ UnionFind.Connected edges first second :=
  UnionFind.find_forest_eq_iff edges le_rfl first second

theorem connected_of_unnamed {edges : List (MemoryId × MemoryId)} {id other : MemoryId}
    (unnamed : ∀ edge ∈ edges, edge.1 ≠ id ∧ edge.2 ≠ id)
    (connected : UnionFind.Connected edges other id) : other = id := by
  have along : ∀ edge ∈ edges,
      (fun one => decide (one = id)) edge.1 = (fun one => decide (one = id)) edge.2 := by
    intro edge member
    simp only [(unnamed edge member).1, (unnamed edge member).2]
  simpa using @UnionFind.Connected.value_eq _ Bool edges (fun one => decide (one = id)) along _ _
    connected

theorem designated_memoryChange (row : MemoryRow)
    (spared : designatesPrimary event.payload = false) :
    (memoryChange event before row).designatedPrimary = row.designatedPrimary := by
  have columns : (memoryColumns event row).designatedPrimary = row.designatedPrimary := by
    unfold memoryColumns
    split <;> (try split) <;> first | rfl | simp_all [designatesPrimary]
  rw [memoryChange_eq]
  exact columns

theorem recomputeMembers_apply (applied : apply event before = .ok after)
    (spared : designatesPrimary event.payload = false) :
    recomputeMembers after = recomputeMembers before ++
      (createdMemory event).toList.map fun row => (row.id, row.designatedPrimary) := by
  unfold recomputeMembers
  rw [apply_memories applied, List.map_append, List.map_map]
  -- every old memory keeps its flag, the created one comes last
  congr 1
  refine List.map_congr_left fun row _ => ?_
  simp [designated_memoryChange row spared]

theorem primaryOf_created {members : List (MemoryId × Bool)} {edges : List (MemoryId × MemoryId)}
    {id : MemoryId} (unnamed : ∀ edge ∈ edges, edge.1 ≠ id ∧ edge.2 ≠ id) :
    primaryOf (members ++ [(id, false)]) (classRoot edges) id = id ∧
      ∀ other ≠ id, primaryOf (members ++ [(id, false)]) (classRoot edges) other =
        primaryOf members (classRoot edges) other := by
  have alone : ∀ other, classRoot edges other = classRoot edges id → other = id := fun other same =>
    connected_of_unnamed unnamed ((classRoot_eq_iff edges other id).mp same)
  constructor
  · have known : id ∈ (members ++ [(id, false)]).map Prod.fst := by simp
    obtain ⟨best, _, named, same, _⟩ := @primaryOf_best _ (classRoot edges) _ known
    rw [← named]
    exact alone best.1 same
  · intro other different
    have apart : classRoot edges id ≠ classRoot edges other := fun same =>
      different (alone other same.symm)
    unfold primaryOf
    simp [List.filter_append, apart]

theorem classed_of_recomputes (applied : apply event before = .ok after)
    (recomputed : recomputes event before = true) : Classed after := by
  have uncreated : createdMemory event = none := by
    rw [recomputes_eq] at recomputed
    cases payload : event.payload <;>
      simp_all [createdMemory, designatesPrimary, linkLabel]
  have members : recomputeMembers after = recomputeMembers (classBasis event before) := by
    unfold recomputeMembers classBasis
    rw [apply_memories applied, uncreated]
    simp [memoryChange, recomputed, reclassed]
  have edges : sameAsEdges after = sameAsEdges (classBasis event before) := by
    rw [sameAsEdges_eq, sameAsEdges_eq, apply_links applied]
    rfl
  intro row member
  rcases (mem_memories_apply applied).mp member with ⟨old, _, rfl⟩ | created
  · rw [members, edges]
    simp [memoryChange, recomputed, reclassed]
  · rw [uncreated] at created
    cases created

theorem Linked.unnamed (linked : Linked before) {id : MemoryId}
    (absent : before.memories.contains id = false) :
    ∀ edge ∈ sameAsEdges before, edge.1 ≠ id ∧ edge.2 ≠ id := by
  intro edge member
  obtain ⟨link, linkMem, rfl⟩ := List.mem_map.mp member
  obtain ⟨fromKnown, toKnown⟩ := linked link (List.mem_filter.mp linkMem).1
  constructor
  · rintro rfl
    cases fromKnown.symm.trans absent
  · rintro rfl
    cases toKnown.symm.trans absent

theorem createdMemory_alone {row : MemoryRow} (created : createdMemory event = some row) :
    row.designatedPrimary = false ∧ row.classId = row.id := by
  unfold createdMemory at created
  split at created
  · cases created
    exact ⟨rfl, rfl⟩
  · cases created

theorem Classed.apply (classed : Classed before) (linked : Linked before)
    (applied : apply event before = .ok after) : Classed after := by
  cases recomputed : recomputes event before with
  | true => exact classed_of_recomputes applied recomputed
  | false =>
    have spared : designatesPrimary event.payload = false := by
      rw [recomputes_eq, Bool.or_eq_false_iff] at recomputed
      exact recomputed.1
    have edges := sameAsEdges_apply applied recomputed
    have members := recomputeMembers_apply applied spared
    have kept : ∀ row, (memoryChange event before row).classId = row.classId := by
      intro row
      rw [memoryChange, recomputed]
      exact memoryColumns_classId event row
    unfold Classed
    rw [members, edges]
    cases created : createdMemory event with
    | none =>
      intro row member
      rcases (mem_memories_apply applied).mp member with ⟨old, oldMem, rfl⟩ | new
      · rw [kept, memoryChange_id]
        simpa using classed old oldMem
      · rw [created] at new
        cases new
    | some made =>
      -- the created memory joins no component, and the others have theirs as before
      obtain ⟨absent, _⟩ := created_of_apply applied created
      obtain ⟨undesignated, itself⟩ := createdMemory_alone created
      obtain ⟨own, others⟩ := @primaryOf_created (recomputeMembers before) _ _ (linked.unnamed absent)
      intro row member
      rcases (mem_memories_apply applied).mp member with ⟨old, oldMem, rfl⟩ | new
      · have different : old.id ≠ made.id := fun same =>
          Table.contains_eq_false_iff.mp absent old oldMem same
        rw [kept, memoryChange_id]
        simp only [Option.toList_some, List.map_cons, List.map_nil, undesignated]
        rw [others old.id different]
        exact classed old oldMem
      · rw [created] at new
        cases new
        simp only [Option.toList_some, List.map_cons, List.map_nil, undesignated]
        rw [own, itself]

theorem Reachable.linked {graph : Graph} (reachable : Reachable graph) : Linked graph := by
  induction reachable with
  | fresh => exact fun _ member => nomatch member
  | apply _ _ applied ih => exact ih.apply applied

theorem Reachable.classed {graph : Graph} (reachable : Reachable graph) : Classed graph := by
  induction reachable with
  | fresh => exact fun _ member => nomatch member
  | apply earlier _ applied ih => exact ih.apply earlier.linked applied

end Current

/-! ### Classes are components -/

/-- The members of a memory's component, deleted ones included. -/
def component (graph : Graph) (id : MemoryId) : Set MemoryId :=
  {other | graph.memories.contains other = true ∧
    UnionFind.Connected (sameAsEdges graph) other id}

/-- The members of a memory's component that are designated its primary. -/
def designatedIn (graph : Graph) (id : MemoryId) : Set MemoryId :=
  {other | other ∈ component graph id ∧
    ∃ row ∈ graph.memories, row.id = other ∧ row.designatedPrimary = true}

/-- The classes of a graph are the components of its identity links, each named after
its earliest designated member, or after its earliest member when none is designated. -/
structure ClassesAreComponents (graph : Graph) : Prop where
  connected : ∀ first ∈ graph.memories, ∀ second ∈ graph.memories,
    first.classId = second.classId ↔
      UnionFind.Connected (sameAsEdges graph) first.id second.id
  designated : ∀ row ∈ graph.memories, (designatedIn graph row.id).Nonempty →
    IsLeast (designatedIn graph row.id) row.classId
  earliest : ∀ row ∈ graph.memories, ¬(designatedIn graph row.id).Nonempty →
    IsLeast (component graph row.id) row.classId

section Components

variable {graph : Graph}

theorem mem_recomputeMembers {member : MemoryId × Bool} :
    member ∈ recomputeMembers graph ↔
      ∃ row ∈ graph.memories, row.id = member.1 ∧ row.designatedPrimary = member.2 := by
  simp only [recomputeMembers, List.mem_map, Table.mem_def, Prod.ext_iff]

theorem Classed.best (classed : Classed graph) {row : MemoryRow} (member : row ∈ graph.memories) :
    ∃ best ∈ graph.memories, best.id = row.classId ∧
      UnionFind.Connected (sameAsEdges graph) best.id row.id ∧
      ∀ other ∈ graph.memories, UnionFind.Connected (sameAsEdges graph) other.id row.id →
        rank (best.id, best.designatedPrimary) ≤ rank (other.id, other.designatedPrimary) := by
  have known : row.id ∈ (recomputeMembers graph).map Prod.fst := by
    rw [recomputeMembers_ids]
    exact List.mem_map_of_mem member
  obtain ⟨⟨bestId, chosen⟩, bestMem, named, same, least⟩ :=
    @primaryOf_best _ (classRoot (sameAsEdges graph)) _ known
  obtain ⟨best, inGraph, rfl, rfl⟩ := mem_recomputeMembers.mp bestMem
  refine ⟨best, inGraph, named.trans (classed row member).symm, (classRoot_eq_iff _ _ _).mp same, ?_⟩
  intro other otherMem connected
  exact least (other.id, other.designatedPrimary)
    (mem_recomputeMembers.mpr ⟨other, otherMem, rfl, rfl⟩) ((classRoot_eq_iff _ _ _).mpr connected)

theorem Classed.classId_eq_iff (classed : Classed graph) {first second : MemoryRow}
    (firstMem : first ∈ graph.memories) (secondMem : second ∈ graph.memories) :
    first.classId = second.classId ↔
      UnionFind.Connected (sameAsEdges graph) first.id second.id := by
  constructor
  · intro same
    obtain ⟨best, _, named, toFirst, _⟩ := classed.best firstMem
    obtain ⟨other, _, alike, toSecond, _⟩ := classed.best secondMem
    have shared : best.id = other.id := by rw [named, alike, same]
    rw [shared] at toFirst
    exact toFirst.symm.trans _ _ _ toSecond
  · intro connected
    rw [classed first firstMem, classed second secondMem]
    refine primaryOf_congr ?_ ((classRoot_eq_iff _ _ _).mpr connected)
    rw [recomputeMembers_ids]
    exact List.mem_map_of_mem firstMem

theorem Linked.not_connected_of_unknown (linked : Linked graph) {id : MemoryId}
    (unknown : graph.memories.contains id = false) {row : MemoryRow}
    (member : row ∈ graph.memories) :
    ¬UnionFind.Connected (sameAsEdges graph) row.id id := by
  have unnamed : ∀ edge ∈ sameAsEdges graph, edge.1 ≠ id ∧ edge.2 ≠ id := by
    intro edge named
    obtain ⟨link, stored, rfl⟩ := List.mem_map.mp named
    obtain ⟨known, alsoKnown⟩ := linked link (List.mem_of_mem_filter stored)
    constructor
    · rintro rfl
      exact absurd known (by simp [unknown])
    · rintro rfl
      exact absurd alsoKnown (by simp [unknown])
  intro connected
  have known := Table.contains_of_mem member
  rw [connected_of_unnamed unnamed connected, unknown] at known
  cases known

/-- In every reachable graph the classes are the components of the identity links. -/
theorem classes_are_components (reachable : Reachable graph) : ClassesAreComponents graph where
  connected := by
    intro first firstMem second secondMem
    exact reachable.classed.classId_eq_iff firstMem secondMem
  designated := by
    rintro row member ⟨chosen, ⟨_, connected⟩, own, ownMem, rfl, designated⟩
    obtain ⟨best, bestMem, named, toRow, least⟩ := reachable.classed.best member
    have inComponent : ∀ other ∈ graph.memories,
        UnionFind.Connected (sameAsEdges graph) other.id row.id → other.designatedPrimary = true →
          best.designatedPrimary = true ∧ best.id ≤ other.id := by
      intro other otherMem connected isDesignated
      rcases rank_le_iff.mp (least other otherMem connected) with ⟨_, undesignated⟩ | ⟨same, before⟩
      · rw [show other.designatedPrimary = false from undesignated] at isDesignated
        cases isDesignated
      · exact ⟨(show best.designatedPrimary = other.designatedPrimary from same).trans isDesignated,
          before⟩
    rw [← named]
    refine ⟨⟨⟨Table.contains_of_mem bestMem, toRow⟩, best, bestMem, rfl,
      (inComponent own ownMem connected designated).1⟩, ?_⟩
    rintro _ ⟨⟨_, connected⟩, other, otherMem, rfl, isDesignated⟩
    exact (inComponent other otherMem connected isDesignated).2
  earliest := by
    intro row member undesignated
    obtain ⟨best, bestMem, named, toRow, least⟩ := reachable.classed.best member
    have inComponent : ∀ other ∈ graph.memories,
        UnionFind.Connected (sameAsEdges graph) other.id row.id → other.designatedPrimary = false := by
      intro other otherMem connected
      rw [← Bool.not_eq_true]
      intro designated
      exact undesignated ⟨other.id, ⟨Table.contains_of_mem otherMem, connected⟩, other, otherMem, rfl,
        designated⟩
    rw [← named]
    refine ⟨⟨Table.contains_of_mem bestMem, toRow⟩, ?_⟩
    rintro _ ⟨known, connected⟩
    obtain ⟨other, otherMem, rfl⟩ := Table.contains_iff.mp known
    rcases rank_le_iff.mp (least other otherMem connected) with ⟨designated, _⟩ | ⟨_, before⟩
    · cases (inComponent best bestMem toRow).symm.trans designated
    · exact before

end Components

/-! Two accounts of one person are linked. -/

/-- The log of the two accounts. -/
def accounts : List EventPayload :=
  [.linkTypeRegistered .sameAs .sameAs .many .many true false "",
    .memoryCreated ⟨1⟩ ⟨"person/ines"⟩, .memoryCreated ⟨2⟩ ⟨"person/ines@slack"⟩,
    .linkCreated ⟨2⟩ ⟨1⟩ .sameAs .operator none none .public]

/-- The graph the accounts leave. -/
def accountsMerged : Graph :=
  ((commit ⟨0⟩ .operator accounts Graph.fresh).toOption).getD Graph.fresh

theorem accountsMerged_reachable : Reachable accountsMerged := by
  have committed : commit ⟨0⟩ .operator accounts Graph.fresh = .ok accountsMerged := rfl
  exact Reachable.fresh.commit committed

/-- The two accounts are one component, as the general result has it. -/
theorem classes_are_components_accounts : ClassesAreComponents accountsMerged :=
  classes_are_components accountsMerged_reachable

end Zuihitsu.Graph
