/-
# Re-homing scattered links

The step of the canonicalize pass that moves the links of a merged identity from its
members onto its primary: the edges it gathers, those of them it moves, and the plan it
walks them with, which drops a move onto an edge that is there or planned already.
-/

import Zuihitsu.Block.Edges
import Zuihitsu.Block.Links

namespace Zuihitsu.Canonicalize

open Zuihitsu.Core Zuihitsu.Graph Zuihitsu.Library

/-! ### What is gathered -/

/-- The live memories of a class. -/
def liveOf (graph : Graph) (classId : MemoryId) : List MemoryRow :=
  graph.memories.rows.filter fun row => !row.deleted && decide (row.classId = classId)

/-- The primary of every class with more than one live member. -/
def sameAsClasses (graph : Graph) : List MemoryId :=
  (((graph.memories.rows.filter (!·.deleted)).map (·.classId)).dedup.filter fun classId =>
    1 < (liveOf graph classId).length).insertionSort (· ≤ ·)

/-- Every edge touching a class of several members, once. -/
def gathered (graph : Graph) : List LinkRow :=
  firsts LinkRow.key ((sameAsClasses graph).flatMap graph.classLinks)

/-- An edge the gathering comes upon. -/
def Gathered (graph : Graph) (edge : LinkRow) : Prop :=
  ∃ primary ∈ sameAsClasses graph, edge ∈ graph.classLinks primary

/-! ### What is moved -/

/-- Whether a relation is symmetric: an unknown label reads as directed. -/
def symmetricOf (graph : Graph) (relation : RelationName) : Bool :=
  ((graph.relations.rows.find? (RelationRow.carries relation)).map (·.symmetric)).getD false

/-- An edge's ends, the lower first if it is unordered. -/
def norm (fromId toId : MemoryId) (relation : RelationName) (symmetric : Bool) :
    MemoryId × MemoryId × RelationName :=
  if symmetric && decide (toId < fromId) then (toId, fromId, relation) else (fromId, toId, relation)

/-- The edge between the primaries of an edge's ends. -/
def slotOf (graph : Graph) (edge : LinkRow) : MemoryId × MemoryId × RelationName :=
  norm (graph.classOf edge.fromId) (graph.classOf edge.toId) edge.relation
    (symmetricOf graph edge.relation)

/-- The edge a planned move is onto. -/
def linkSlot (graph : Graph) (link : MemoryBlock.RehomedLink) : MemoryId × MemoryId × RelationName :=
  norm link.canonicalFrom link.canonicalTo link.relation (symmetricOf graph link.relation)

/-- Whether an edge is between primaries already. -/
def canonical (graph : Graph) (edge : LinkRow) : Bool :=
  graph.classOf edge.fromId = edge.fromId && graph.classOf edge.toId = edge.toId

/-- Whether an edge stays within one identity. -/
def within (graph : Graph) (edge : LinkRow) : Bool :=
  graph.classOf edge.fromId = graph.classOf edge.toId

/-- Whether a connector maintains an edge. -/
def ofConnector : LinkSource → Bool
  | .platformConnector _ => true
  | _ => false

/-- Whether an edge is to move: it is not the class structure, no connector's, not
canonical, and it joins two identities. -/
def moves (graph : Graph) (edge : LinkRow) : Bool :=
  edge.relation ≠ .sameAs && !ofConnector edge.source && !canonical graph edge && !within graph edge

/-- The move of an edge onto the primaries. -/
def rehomed (graph : Graph) (edge : LinkRow) (survivor : Bool) : MemoryBlock.RehomedLink where
  storedFrom := edge.fromId
  storedTo := edge.toId
  canonicalFrom := graph.classOf edge.fromId
  canonicalTo := graph.classOf edge.toId
  relation := edge.relation
  posture := ⟨edge.source, edge.toldBy, edge.toldIn, edge.visibility⟩
  survivor := survivor

/-! ### The plan -/

/-- The edges that sit between primaries already. -/
def seeded (graph : Graph) : List (MemoryId × MemoryId × RelationName) :=
  ((gathered graph).filter fun edge => canonical graph edge && !within graph edge).map (slotOf graph)

/-- Plan the moves of some edges: the first onto a slot creates it, and a later one is
dropped. -/
def planFrom (graph : Graph) (present : List (MemoryId × MemoryId × RelationName)) :
    List LinkRow → List MemoryBlock.RehomedLink
  | [] => []
  | edge :: rest =>
    if moves graph edge then
      rehomed graph edge (decide (slotOf graph edge ∈ present)) ::
        planFrom graph (slotOf graph edge :: present) rest
    else planFrom graph present rest

/-- Plan the moves over the committed graph. -/
def planRehomes (graph : Graph) : List MemoryBlock.RehomedLink :=
  planFrom graph (seeded graph) (gathered graph)

/-- Move every link scattered across a class onto its primary. -/
def rehomeScatteredLinks (graph : Graph) (block : MemoryBlock) : MemoryBlock :=
  (planRehomes graph).foldl MemoryBlock.rehomeLink block

/-- The events one move buffers. -/
def moveEvents (link : MemoryBlock.RehomedLink) : List EventPayload :=
  .linkRemoved link.storedFrom link.storedTo link.relation ::
    if link.survivor then []
    else
      [.linkCreated link.canonicalFrom link.canonicalTo link.relation link.posture.source
        link.posture.toldBy link.posture.toldIn link.posture.visibility]

/-- The events the whole plan buffers. -/
def rehomeEvents (graph : Graph) : List EventPayload := (planRehomes graph).flatMap moveEvents

section Plan

variable {graph : Graph} {edge other : LinkRow} {block : MemoryBlock}
variable {present : List (MemoryId × MemoryId × RelationName)} {edges : List LinkRow}
variable {link : MemoryBlock.RehomedLink}

theorem Gathered.stored (found : Gathered graph edge) : edge ∈ graph.links := by
  obtain ⟨primary, _, listed⟩ := found
  exact (mem_classLinks.mp listed).1

theorem mem_gathered : edge ∈ gathered graph ↔ Gathered graph edge := by
  constructor
  · intro member
    exact List.mem_flatMap.mp (mem_of_mem_firsts member)
  · intro found
    have listed : edge.key ∈ (gathered graph).map LinkRow.key :=
      mem_keys_firsts.mpr (List.mem_map_of_mem (List.mem_flatMap.mpr found))
    obtain ⟨other, member, same⟩ := List.mem_map.mp listed
    have stored : Gathered graph other := List.mem_flatMap.mp (mem_of_mem_firsts member)
    rwa [← Table.eq_of_key_eq stored.stored found.stored same]

theorem mem_planFrom (planned : link ∈ planFrom graph present edges) :
    ∃ edge ∈ edges, moves graph edge = true ∧ link = rehomed graph edge link.survivor := by
  induction edges generalizing present with
  | nil => cases planned
  | cons edge rest ih =>
    unfold planFrom at planned
    split at planned
    · rename_i moving
      rcases List.mem_cons.mp planned with rfl | later
      · exact ⟨edge, List.mem_cons_self, moving, rfl⟩
      · obtain ⟨other, member, found⟩ := ih later
        exact ⟨other, List.mem_cons_of_mem _ member, found⟩
    · obtain ⟨other, member, found⟩ := ih planned
      exact ⟨other, List.mem_cons_of_mem _ member, found⟩

theorem exists_planned (member : edge ∈ edges) (moving : moves graph edge = true) :
    ∃ survivor, rehomed graph edge survivor ∈ planFrom graph present edges := by
  induction edges generalizing present with
  | nil => cases member
  | cons first rest ih =>
    unfold planFrom
    rcases List.mem_cons.mp member with rfl | later
    · rw [if_pos moving]
      exact ⟨_, List.mem_cons_self⟩
    · split
      · obtain ⟨survivor, planned⟩ := ih later
        exact ⟨survivor, List.mem_cons_of_mem _ planned⟩
      · exact ih later

theorem created_absent (planned : link ∈ planFrom graph present edges)
    (creates : link.survivor = false) : linkSlot graph link ∉ present := by
  induction edges generalizing present with
  | nil => cases planned
  | cons edge rest ih =>
    unfold planFrom at planned
    split at planned
    · rcases List.mem_cons.mp planned with rfl | later
      · exact of_decide_eq_false creates
      · exact fun there => ih later (List.mem_cons_of_mem _ there)
    · exact ih planned

theorem slot_covered (planned : link ∈ planFrom graph present edges) :
    linkSlot graph link ∈ present ∨ ∃ maker ∈ planFrom graph present edges,
      maker.survivor = false ∧ linkSlot graph maker = linkSlot graph link := by
  induction edges generalizing present with
  | nil => cases planned
  | cons edge rest ih =>
    unfold planFrom at planned ⊢
    split at planned
    · rename_i moving
      rw [if_pos moving]
      by_cases there : slotOf graph edge ∈ present
      · rcases List.mem_cons.mp planned with rfl | later
        · exact .inl there
        · rcases ih later with found | ⟨maker, member, creates, same⟩
          · rcases List.mem_cons.mp found with here | found
            · exact .inl (here ▸ there)
            · exact .inl found
          · exact .inr ⟨maker, List.mem_cons_of_mem _ member, creates, same⟩
      · have first : (rehomed graph edge (decide (slotOf graph edge ∈ present))).survivor = false :=
          decide_eq_false there
        rcases List.mem_cons.mp planned with rfl | later
        · exact .inr ⟨_, List.mem_cons_self, first, rfl⟩
        · rcases ih later with found | ⟨maker, member, creates, same⟩
          · rcases List.mem_cons.mp found with here | found
            · exact .inr ⟨_, List.mem_cons_self, first, here.symm⟩
            · exact .inl found
          · exact .inr ⟨maker, List.mem_cons_of_mem _ member, creates, same⟩
    · rename_i still
      rw [if_neg still]
      exact ih planned

end Plan

end Zuihitsu.Canonicalize
