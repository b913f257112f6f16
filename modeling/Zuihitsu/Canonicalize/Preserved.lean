/-
# What re-homing leaves of the relationships

A sweep takes every stranded edge off its members and leaves an edge of the relation
between the primaries. Between two classes the readers then find what they found before,
and a second sweep finds nothing to move, as long as the registry still stores each
stranded edge as it is stored, and its classes' primaries are live. An edge onto a
deleted primary is read by nobody.
-/

import Zuihitsu.Canonicalize.Rehome
import Zuihitsu.Graph.Linking
import Zuihitsu.Graph.Lookup
import Mathlib.Data.Finset.Max

namespace Zuihitsu.Canonicalize

open Zuihitsu.Core Zuihitsu.Graph Zuihitsu.Library Zuihitsu.Library.Cursor

/-! ### What the readers report -/

/-- Of two classes, a live edge of a relation runs from the one to the other; an unordered
one runs both ways. -/
def Joins (graph : Graph) (relation : RelationName) (first second : MemoryId) (key : EdgeKey) :
    Prop :=
  key.2.2 = relation ∧ (graph.liveRow key.1).isSome = true ∧
    (graph.liveRow key.2.1).isSome = true ∧
      (graph.classOf key.1 = first ∧ graph.classOf key.2.1 = second ∨
        symmetricOf graph relation = true ∧
          graph.classOf key.1 = second ∧ graph.classOf key.2.1 = first)

/-- The links of a memory's class report a relation from it to another's. -/
def Reports (graph : Graph) (relation : RelationName) (first second : MemoryId) : Prop :=
  ∃ row ∈ graph.classLinks first, row.relation = relation ∧
    (graph.inClass first row.fromId = true ∧ graph.inClass second row.toId = true ∨
      symmetricOf graph relation = true ∧
        graph.inClass second row.fromId = true ∧ graph.inClass first row.toId = true)

/-- The relationships between classes are reported as before, no connector's edge and no
identity edge has changed, and nothing is left to move. -/
structure Preserves (before after : Graph) : Prop where
  reports : ∀ first second, (before.memoryById first).isSome = true →
    (before.memoryById second).isSome = true → ∀ relation ≠ .sameAs,
      (Reports after relation first second ↔ Reports before relation first second)
  untouched : ∀ row : LinkRow, ofConnector row.source = true ∨ row.relation = .sameAs →
    (row ∈ after.links ↔ row ∈ before.links)
  settled : planRehomes after = []

/-! ### When it holds -/

/-- An edge that touches a class of several members, and that the sweep is to move. -/
def Stranded (graph : Graph) (edge : LinkRow) : Prop :=
  Gathered graph edge ∧ moves graph edge = true

/-- The registry would store the edge as it is stored. -/
def AsStored (graph : Graph) (edge : LinkRow) : Prop :=
  canonicalEdge graph edge.fromId edge.toId edge.relation = edge.key

/-- The primaries of an edge's classes are live. -/
def PrimariesLive (graph : Graph) (edge : LinkRow) : Prop :=
  (graph.liveRow (graph.classOf edge.fromId)).isSome = true ∧
    (graph.liveRow (graph.classOf edge.toId)).isSome = true

/-- A connector's edge carries the relation between the classes as well, and none is
stored between their primaries. -/
def CarriedByConnector (graph : Graph) (edge : LinkRow) : Prop :=
  (∃ row ∈ graph.links, ofConnector row.source = true ∧
      Joins graph edge.relation (graph.classOf edge.fromId) (graph.classOf edge.toId) row.key) ∧
    ∀ row ∈ graph.links, row.key = slotOf graph edge → ofConnector row.source = false

section Reading

variable {graph after : Graph} {edge row : LinkRow} {first second : MemoryId}
variable {relation : RelationName}

theorem Joins.trans {key later : EdgeKey} (joins : Joins graph relation first second key)
    (joined : Joins graph key.2.2 (graph.classOf key.1) (graph.classOf key.2.1) later) :
    Joins graph relation first second later := by
  obtain ⟨rfl, _, _, ends⟩ := joins
  obtain ⟨named, fromLive, toLive, laterEnds⟩ := joined
  refine ⟨named, fromLive, toLive, ?_⟩
  rcases ends with ⟨rfl, rfl⟩ | ⟨unordered, rfl, rfl⟩
  · exact laterEnds
  · rcases laterEnds with ⟨one, other⟩ | ⟨_, one, other⟩
    · exact .inr ⟨unordered, one, other⟩
    · exact .inl ⟨one, other⟩

theorem inClass_iff_of_live (live : (graph.liveRow first).isSome = true) {memory : MemoryId} :
    graph.inClass first memory = true ↔
      (graph.liveRow memory).isSome = true ∧ graph.classOf memory = graph.classOf first := by
  obtain ⟨row, found⟩ := Option.isSome_iff_exists.mp live
  rw [inClass_iff, classOf_of_live found]
  simp only [classId, found, Option.map_some, Option.some.injEq, exists_eq_left',
    Option.map_eq_some_iff]
  constructor
  · rintro ⟨other, stands, same⟩
    exact ⟨by rw [stands]; rfl, by rw [classOf_of_live stands, same]⟩
  · rintro ⟨stands, same⟩
    obtain ⟨other, found⟩ := Option.isSome_iff_exists.mp stands
    rw [classOf_of_live found] at same
    exact ⟨other, found, same⟩

theorem reports_iff (live : (graph.liveRow first).isSome = true)
    (standing : (graph.liveRow second).isSome = true) :
    Reports graph relation first second ↔
      ∃ row ∈ graph.links,
        Joins graph relation (graph.classOf first) (graph.classOf second) row.key := by
  simp only [Reports, mem_classLinks, inClass_iff_of_live live, inClass_iff_of_live standing, Joins]
  refine exists_congr fun row => ?_
  constructor
  · rintro ⟨⟨stored, fromLive, toLive, _⟩, named, joins⟩
    refine ⟨stored, named, fromLive, toLive, ?_⟩
    rcases joins with ⟨⟨_, one⟩, _, other⟩ | ⟨unordered, ⟨_, one⟩, _, other⟩
    · exact .inl ⟨one, other⟩
    · exact .inr ⟨unordered, one, other⟩
  · rintro ⟨stored, named, fromLive, toLive, joins⟩
    rcases joins with ⟨one, other⟩ | ⟨unordered, one, other⟩
    · exact ⟨⟨stored, fromLive, toLive, .inl ⟨fromLive, one⟩⟩, named,
        .inl ⟨⟨fromLive, one⟩, toLive, other⟩⟩
    · exact ⟨⟨stored, fromLive, toLive, .inr ⟨toLive, other⟩⟩, named,
        .inr ⟨unordered, ⟨fromLive, one⟩, toLive, other⟩⟩

theorem Gathered.live (found : Gathered graph edge) :
    (graph.liveRow edge.fromId).isSome = true ∧ (graph.liveRow edge.toId).isSome = true := by
  obtain ⟨primary, _, listed⟩ := found
  obtain ⟨_, fromLive, toLive, _⟩ := mem_classLinks.mp listed
  exact ⟨fromLive, toLive⟩

theorem Gathered.of_joins (found : Gathered graph edge) (stored : row ∈ graph.links)
    (joins : Joins graph relation (graph.classOf edge.fromId) (graph.classOf edge.toId) row.key) :
    Gathered graph row := by
  obtain ⟨primary, several, listed⟩ := found
  obtain ⟨_, fromLive, toLive, touches⟩ := mem_classLinks.mp listed
  obtain ⟨_, rowFrom, rowTo, ends⟩ := joins
  have live : (graph.liveRow primary).isSome = true := by
    rcases touches with within | within <;>
    · obtain ⟨class', one, _⟩ := inClass_iff.mp within
      obtain ⟨row, found, _⟩ := Option.map_eq_some_iff.mp one
      rw [found]
      rfl
  refine ⟨primary, several, mem_classLinks.mpr ⟨stored, rowFrom, rowTo, ?_⟩⟩
  simp only [inClass_iff_of_live live, fromLive, toLive, true_and] at touches ⊢
  simp only at rowFrom rowTo ends
  simp only [rowFrom, rowTo, true_and]
  rcases ends with ⟨one, other⟩ | ⟨_, one, other⟩
  · rw [one, other]
    exact touches
  · rw [one, other]
    exact touches.symm

theorem moves_iff : moves graph edge = true ↔
    edge.relation ≠ .sameAs ∧ ofConnector edge.source = false ∧ canonical graph edge = false ∧
      graph.classOf edge.fromId ≠ graph.classOf edge.toId := by
  simp [moves, within, and_assoc]

end Reading

/-! ### Slots -/

/-- Both ends of an edge stand for their classes. -/
def Settled (graph : Graph) (key : EdgeKey) : Prop :=
  graph.classOf key.1 = key.1 ∧ graph.classOf key.2.1 = key.2.1

section Slots

variable {graph : Graph} {edge row : LinkRow} {link : MemoryBlock.RehomedLink}
variable {fromId toId : MemoryId} {relation : RelationName}

theorem canonical_iff : canonical graph edge = true ↔ Settled graph edge.key := by
  simp [canonical, Settled]

theorem norm_cases (fromId toId : MemoryId) (relation : RelationName) (symmetric : Bool) :
    norm fromId toId relation symmetric = (fromId, toId, relation) ∨
      symmetric = true ∧ norm fromId toId relation symmetric = (toId, fromId, relation) := by
  unfold norm
  cases symmetric with
  | false => exact .inl rfl
  | true => by_cases lower : toId < fromId <;> simp [lower]

theorem canonicalEdge_of_stored
    (stored : canonicalEdge graph fromId toId relation = (fromId, toId, relation))
    (first second : MemoryId) : canonicalEdge graph first second relation =
      norm first second relation (symmetricOf graph relation) := by
  have label := congrArg (fun key : EdgeKey => key.2.2) stored
  rw [canonicalEdge_label, canonicalLabel] at label
  unfold canonicalEdge symmetricOf norm
  unfold RelationRow.carries at label ⊢
  cases found : graph.relations.rows.find? fun row =>
      row.name = relation || row.inverse = relation with
  | none => simp
  | some row =>
    simp only [found, Option.map_some, Option.getD_some] at label ⊢
    rw [label]
    by_cases unordered : row.symmetric = true
    · by_cases ordered : first ≤ second
      · have kept : ¬second < first := Nat.not_lt.mpr ordered
        simp [unordered, ordered, kept]
      · have lower : second < first := Nat.lt_of_not_le ordered
        simp [unordered, ordered, lower]
    · simp [unordered]

theorem stranded_of_planned (planned : link ∈ planRehomes graph) :
    ∃ edge, Stranded graph edge ∧ link = rehomed graph edge link.survivor := by
  obtain ⟨edge, member, moving, same⟩ := mem_planFrom planned
  exact ⟨edge, ⟨mem_gathered.mp member, moving⟩, same⟩

theorem Stranded.planned (stranded : Stranded graph edge) :
    ∃ survivor, rehomed graph edge survivor ∈ planRehomes graph :=
  exists_planned (mem_gathered.mpr stranded.1) stranded.2

theorem Stranded.unsettled (stranded : Stranded graph edge) : ¬Settled graph edge.key := by
  intro settled
  have moving := (moves_iff.mp stranded.2).2.2.1
  rw [canonical_iff.mpr settled] at moving
  cases moving

end Slots

/-! ### What the sweep's events say -/

/-- The edges a move removes and creates. -/
def removedKey (graph : Graph) (link : MemoryBlock.RehomedLink) : EdgeKey :=
  canonicalEdge graph link.storedFrom link.storedTo link.relation

def createdKey (graph : Graph) (link : MemoryBlock.RehomedLink) : EdgeKey :=
  canonicalEdge graph link.canonicalFrom link.canonicalTo link.relation

section Words

variable {graph : Graph} {edge row : LinkRow} {link : MemoryBlock.RehomedLink} {key : EdgeKey}
variable {payload : EventPayload} {author : LinkSource}

theorem mem_rehomeEvents : payload ∈ rehomeEvents graph ↔ ∃ link ∈ planRehomes graph,
    payload = .linkRemoved link.storedFrom link.storedTo link.relation ∨
      link.survivor = false ∧ payload = .linkCreated link.canonicalFrom link.canonicalTo
        link.relation link.posture.source link.posture.toldBy link.posture.toldIn
        link.posture.visibility := by
  simp only [rehomeEvents, moveEvents, List.mem_flatMap, List.mem_cons]
  refine exists_congr fun link => and_congr_right fun _ => or_congr_right ?_
  cases link.survivor <;> simp

theorem linking_rehomeEvents (graph : Graph) : Linking (rehomeEvents graph) := by
  intro payload member
  obtain ⟨link, _, rfl | ⟨_, rfl⟩⟩ := mem_rehomeEvents.mp member
  · rfl
  · rfl

theorem exists_removal (said : lastWord (edgeWord graph key) (rehomeEvents graph) = some none) :
    ∃ link ∈ planRehomes graph, removedKey graph link = key := by
  obtain ⟨payload, member, word⟩ := exists_of_lastWord said
  obtain ⟨link, planned, rfl | ⟨_, rfl⟩⟩ := mem_rehomeEvents.mp member
  · exact ⟨link, planned, (Option.ite_none_right_eq_some.mp word).1⟩
  · have shape := (Option.ite_none_right_eq_some.mp word).2
    cases shape

theorem exists_creation
    (said : lastWord (edgeWord graph key) (rehomeEvents graph) = some (some author)) :
    ∃ link ∈ planRehomes graph, link.survivor = false ∧ createdKey graph link = key ∧
      link.posture.source = author := by
  obtain ⟨payload, member, word⟩ := exists_of_lastWord said
  obtain ⟨link, planned, rfl | ⟨creates, rfl⟩⟩ := mem_rehomeEvents.mp member
  · have shape := (Option.ite_none_right_eq_some.mp word).2
    cases shape
  · obtain ⟨same, told⟩ := Option.ite_none_right_eq_some.mp word
    cases told
    exact ⟨link, planned, creates, same, rfl⟩

theorem not_removed_of_silent (silent : lastWord (edgeWord graph key) (rehomeEvents graph) = none)
    (planned : link ∈ planRehomes graph) : removedKey graph link ≠ key := by
  intro same
  have word := lastWord_eq_none.mp silent _ (mem_rehomeEvents.mpr ⟨link, planned, .inl rfl⟩)
  simp [edgeWord, ← same, removedKey] at word

theorem not_silent_of_created (planned : link ∈ planRehomes graph)
    (creates : link.survivor = false) :
    lastWord (edgeWord graph (createdKey graph link)) (rehomeEvents graph) ≠ none := by
  intro silent
  have word := lastWord_eq_none.mp silent _
    (mem_rehomeEvents.mpr ⟨link, planned, .inr ⟨creates, rfl⟩⟩)
  simp [edgeWord, createdKey] at word

theorem createdKey_settled (reachable : Reachable graph) (planned : link ∈ planRehomes graph) :
    Settled graph (createdKey graph link) := by
  obtain ⟨edge, _, same⟩ := stranded_of_planned planned
  have fromClass : graph.classOf link.canonicalFrom = link.canonicalFrom := by
    rw [same]
    exact classOf_idem reachable edge.fromId
  have toClass : graph.classOf link.canonicalTo = link.canonicalTo := by
    rw [same]
    exact classOf_idem reachable edge.toId
  unfold Settled createdKey
  rcases canonicalEdge_ends graph link.canonicalFrom link.canonicalTo link.relation with
    ⟨one, other⟩ | ⟨one, other⟩
  · rw [one, other]
    exact ⟨fromClass, toClass⟩
  · rw [one, other]
    exact ⟨toClass, fromClass⟩

theorem exists_commit_rehomes (reachable : Reachable graph) (recordedAt : Timestamp)
    (source : EventSource) :
    ∃ after, commit recordedAt source (rehomeEvents graph) graph = .ok after := by
  refine exists_commit_linking reachable ?_ (linking_rehomeEvents graph)
  rintro payload member fromId toId relation author toldBy toldIn visibility rfl
  obtain ⟨link, planned, shape | ⟨_, shape⟩⟩ := mem_rehomeEvents.mp member
  · cases shape
  · cases shape
    obtain ⟨edge, stranded, same⟩ := stranded_of_planned planned
    obtain ⟨fromLive, toLive⟩ := stranded.1.live
    have known : ∀ {id : MemoryId}, (graph.liveRow id).isSome = true →
        graph.memories.contains (graph.classOf id) = true := by
      intro id live
      obtain ⟨row, found⟩ := Option.isSome_iff_exists.mp live
      obtain ⟨best, bestMem, named, _⟩ := reachable.classed.best (liveRow_eq_some.mp found).1
      rw [classOf_of_live found, ← named]
      exact Table.contains_of_mem bestMem
    rw [same]
    refine ⟨known fromLive, known toLive, ?_⟩
    obtain ⟨row, stored, named⟩ :=
      Table.contains_iff.mp (reachable.registered edge stranded.1.stored)
    exact List.any_eq_true.mpr ⟨row, stored, by simp [RelationRow.carries, named, rehomed]⟩

end Words

/-! ### What it leaves stored -/

section Stored

variable {graph after : Graph} {edge row : LinkRow} {link : MemoryBlock.RehomedLink}
variable {recordedAt : Timestamp} {source : EventSource}

theorem removed_of_clean (clean : ∀ edge, Stranded graph edge → AsStored graph edge)
    (planned : link ∈ planRehomes graph) :
    ∃ edge, Stranded graph edge ∧ link = rehomed graph edge link.survivor ∧
      removedKey graph link = edge.key := by
  obtain ⟨edge, stranded, same⟩ := stranded_of_planned planned
  refine ⟨edge, stranded, same, ?_⟩
  rw [same]
  exact clean edge stranded

theorem createdKey_of_clean (clean : ∀ edge, Stranded graph edge → AsStored graph edge)
    (planned : link ∈ planRehomes graph) : createdKey graph link = linkSlot graph link := by
  obtain ⟨edge, stranded, same⟩ := stranded_of_planned planned
  rw [same]
  exact canonicalEdge_of_stored (clean edge stranded) _ _

section Sweep

variable (clean : ∀ edge, Stranded graph edge → AsStored graph edge)
variable (committed : commit recordedAt source (rehomeEvents graph) graph = .ok after)

include clean committed

theorem stored_after (stored : row ∈ after.links) :
    row ∈ graph.links ∧ ¬Stranded graph row ∨
      ∃ maker ∈ planRehomes graph, maker.survivor = false ∧ linkSlot graph maker = row.key ∧
        maker.posture.source = row.source := by
  rcases stored_of_linking (linking_rehomeEvents graph) committed stored with ⟨silent, old⟩ | said
  · refine .inl ⟨old, fun stranded => ?_⟩
    obtain ⟨survivor, planned⟩ := stranded.planned
    exact not_removed_of_silent silent planned (clean row stranded)
  · obtain ⟨maker, planned, creates, same, told⟩ := exists_creation said
    rw [createdKey_of_clean clean planned] at same
    exact .inr ⟨maker, planned, creates, same, told⟩

theorem kept_after (stored : row ∈ graph.links) (still : ¬Stranded graph row)
    (free : ∀ maker ∈ planRehomes graph, maker.survivor = false →
      linkSlot graph maker ≠ row.key) : row ∈ after.links := by
  refine kept_of_linking (linking_rehomeEvents graph) committed ?_ stored
  cases said : lastWord (edgeWord graph row.key) (rehomeEvents graph) with
  | none => rfl
  | some word =>
    cases word with
    | none =>
      obtain ⟨link, planned, same⟩ := exists_removal said
      obtain ⟨edge, stranded, _, removed⟩ := removed_of_clean clean planned
      rw [removed] at same
      rw [Table.eq_of_key_eq stranded.1.stored stored same] at stranded
      exact absurd stranded still
    | some =>
      obtain ⟨maker, planned, creates, same, _⟩ := exists_creation said
      rw [createdKey_of_clean clean planned] at same
      exact absurd same (free maker planned creates)

theorem made_after (reachable : Reachable graph) (planned : link ∈ planRehomes graph)
    (creates : link.survivor = false) : after.links.contains (linkSlot graph link) = true := by
  rw [← createdKey_of_clean clean planned]
  cases said : lastWord (edgeWord graph (createdKey graph link)) (rehomeEvents graph) with
  | none => exact absurd said (not_silent_of_created planned creates)
  | some word =>
    cases word with
    | none =>
      -- no move removes an edge between primaries
      obtain ⟨other, removes, same⟩ := exists_removal said
      obtain ⟨edge, stranded, _, removed⟩ := removed_of_clean clean removes
      have settled := createdKey_settled reachable planned
      rw [← same, removed] at settled
      exact absurd settled stranded.unsettled
    | some => exact contains_of_linking (linking_rehomeEvents graph) committed said

theorem contains_after (reachable : Reachable graph) (stored : row ∈ graph.links)
    (still : ¬Stranded graph row) : after.links.contains row.key = true := by
  by_cases onto : ∃ maker ∈ planRehomes graph, maker.survivor = false ∧
      linkSlot graph maker = row.key
  · obtain ⟨maker, planned, creates, same⟩ := onto
    rw [← same]
    exact made_after clean committed reachable planned creates
  · refine Table.contains_of_mem (kept_after clean committed stored still ?_)
    exact fun maker planned creates same => onto ⟨maker, planned, creates, same⟩

end Sweep

theorem joins_slot (reachable : Reachable graph) (live : PrimariesLive graph edge) :
    Joins graph edge.relation (graph.classOf edge.fromId) (graph.classOf edge.toId)
      (slotOf graph edge) := by
  have fromClass := classOf_idem reachable edge.fromId
  have toClass := classOf_idem reachable edge.toId
  rcases norm_cases (graph.classOf edge.fromId) (graph.classOf edge.toId) edge.relation
      (symmetricOf graph edge.relation) with shape | ⟨unordered, shape⟩
  · rw [slotOf, shape]
    exact ⟨rfl, live.1, live.2, .inl ⟨fromClass, toClass⟩⟩
  · rw [slotOf, shape]
    exact ⟨rfl, live.2, live.1, .inr ⟨unordered, toClass, fromClass⟩⟩

theorem ends_of_slot {other : LinkRow} (settled : Settled graph other.key)
    (same : slotOf graph other = slotOf graph edge) :
    other.relation = edge.relation ∧
      (other.fromId = graph.classOf edge.fromId ∧ other.toId = graph.classOf edge.toId ∨
        symmetricOf graph edge.relation = true ∧
          other.fromId = graph.classOf edge.toId ∧ other.toId = graph.classOf edge.fromId) := by
  obtain ⟨fromClass, toClass⟩ := settled
  simp only at fromClass toClass
  unfold slotOf at same
  rw [fromClass, toClass] at same
  rcases norm_cases other.fromId other.toId other.relation (symmetricOf graph other.relation) with
      left | ⟨unordered, left⟩ <;>
    rcases norm_cases (graph.classOf edge.fromId) (graph.classOf edge.toId) edge.relation
      (symmetricOf graph edge.relation) with right | ⟨either, right⟩ <;>
    rw [left, right] at same <;> simp only [Prod.mk.injEq] at same <;>
    obtain ⟨one, two, relation⟩ := same
  · exact ⟨relation, .inl ⟨one, two⟩⟩
  · exact ⟨relation, .inr ⟨either, one, two⟩⟩
  · rw [relation] at unordered
    exact ⟨relation, .inr ⟨unordered, two, one⟩⟩
  · exact ⟨relation, .inl ⟨two, one⟩⟩

theorem joined_after (reachable : Reachable graph)
    (clean : ∀ edge, Stranded graph edge → AsStored graph edge)
    (committed : commit recordedAt source (rehomeEvents graph) graph = .ok after)
    (stranded : Stranded graph edge) (live : PrimariesLive graph edge) :
    ∃ row ∈ after.links, Joins graph edge.relation (graph.classOf edge.fromId)
      (graph.classOf edge.toId) row.key := by
  obtain ⟨survivor, planned⟩ := stranded.planned
  rcases slot_covered planned with there | ⟨maker, made, creates, same⟩
  · -- an edge between the primaries was there, and stays
    obtain ⟨other, member, same⟩ := List.mem_map.mp there
    obtain ⟨listed, shape⟩ := List.mem_filter.mp member
    rw [Bool.and_eq_true] at shape
    have gathers := mem_gathered.mp listed
    have settled := canonical_iff.mp shape.1
    have still : ¬Stranded graph other := fun moving => moving.unsettled settled
    obtain ⟨row, stored, key⟩ := Table.contains_iff.mp
      (contains_after clean committed reachable gathers.stored still)
    have seated : slotOf graph other = slotOf graph edge := same
    obtain ⟨relation, ends⟩ := ends_of_slot settled seated
    refine ⟨row, stored, ?_⟩
    rw [key]
    refine ⟨relation, gathers.live.1, gathers.live.2, ?_⟩
    obtain ⟨fromClass, toClass⟩ := settled
    simp only at fromClass toClass ⊢
    rw [fromClass, toClass]
    exact ends
  · obtain ⟨row, stored, key⟩ := Table.contains_iff.mp
      (made_after clean committed reachable made creates)
    refine ⟨row, stored, ?_⟩
    rw [key, same]
    exact joins_slot reachable live

end Stored

/-! ### Graphs with the same memories and registry -/

section Alike

variable {graph after : Graph} {edge row : LinkRow} {relation : RelationName} {key : EdgeKey}
variable {first second : MemoryId}
section Memories

variable (memories : after.memories = graph.memories)

include memories

theorem liveRow_of_memories : after.liveRow = graph.liveRow := by
  funext id
  rw [liveRow, memoryRow, memories]
  rfl

theorem classId_of_memories : after.classId = graph.classId := by
  funext id
  rw [classId, classId, liveRow_of_memories memories]

theorem classOf_of_memories : after.classOf = graph.classOf := by
  funext id
  rw [classOf, classOf, classId_of_memories memories]

theorem inClass_of_memories : after.inClass = graph.inClass := by
  funext id memory
  exact inClass_congr (fun other => congrFun (classId_of_memories memories) other) memory

theorem moves_congr : moves after edge = moves graph edge := by
  simp only [moves, canonical, within, classOf_of_memories memories]

theorem gathered_congr (was : row ∈ graph.links) (stays : row ∈ after.links) :
    Gathered after row ↔ Gathered graph row := by
  have classes : sameAsClasses after = sameAsClasses graph := by
    unfold sameAsClasses liveOf
    rw [memories]
  simp only [Gathered, mem_classLinks, was, stays, classes, inClass_of_memories memories,
    liveRow_of_memories memories]

end Memories

variable (memories : after.memories = graph.memories)
variable (relations : after.relations = graph.relations)

include memories relations

theorem joins_congr :
    Joins after relation first second key ↔ Joins graph relation first second key := by
  simp only [Joins, symmetricOf, relations, liveRow_of_memories memories,
    classOf_of_memories memories]

theorem reports_congr (live : (graph.liveRow first).isSome = true)
    (standing : (graph.liveRow second).isSome = true) :
    Reports after relation first second ↔
      ∃ row ∈ after.links,
        Joins graph relation (graph.classOf first) (graph.classOf second) row.key := by
  have rows := liveRow_of_memories memories
  rw [reports_iff (rows ▸ live) (rows ▸ standing), classOf_of_memories memories]
  simp only [joins_congr memories relations]

end Alike

/-! ### A clean sweep preserves -/

/-- Nothing that is to be found of a stranded edge is lost with it. -/
def Reaches (graph : Graph) (edge : LinkRow) : Prop :=
  PrimariesLive graph edge ∨ CarriedByConnector graph edge

section Preserved

variable {graph after : Graph} {edge row : LinkRow} {link : MemoryBlock.RehomedLink}
variable {recordedAt : Timestamp} {source : EventSource}

theorem norm_norm (fromId toId : MemoryId) (relation : RelationName) (symmetric : Bool) :
    norm (norm fromId toId relation symmetric).1 (norm fromId toId relation symmetric).2.1 relation
      symmetric = norm fromId toId relation symmetric := by
  unfold norm
  cases symmetric with
  | false => rfl
  | true =>
    by_cases lower : toId < fromId
    · have kept : ¬fromId < toId := Nat.lt_asymm lower
      simp [lower, kept]
    · simp [lower]

theorem settled_slot (reachable : Reachable graph) (edge : LinkRow) :
    Settled graph (slotOf graph edge) := by
  have fromClass := classOf_idem reachable edge.fromId
  have toClass := classOf_idem reachable edge.toId
  rcases norm_cases (graph.classOf edge.fromId) (graph.classOf edge.toId) edge.relation
      (symmetricOf graph edge.relation) with shape | ⟨_, shape⟩
  · rw [slotOf, shape]
    exact ⟨fromClass, toClass⟩
  · rw [slotOf, shape]
    exact ⟨toClass, fromClass⟩

theorem slotOf_of_key (reachable : Reachable graph) (same : row.key = slotOf graph edge) :
    slotOf graph row = slotOf graph edge := by
  have settled := settled_slot reachable edge
  rw [← same] at settled
  obtain ⟨fromClass, toClass⟩ := settled
  simp only at fromClass toClass
  have relation : row.relation = edge.relation := by
    rw [show row.relation = row.key.2.2 from rfl, same]
    rcases norm_cases (graph.classOf edge.fromId) (graph.classOf edge.toId) edge.relation
      (symmetricOf graph edge.relation) with shape | ⟨_, shape⟩ <;> rw [slotOf, shape]
  rw [slotOf, fromClass, toClass, relation, show row.fromId = row.key.1 from rfl,
    show row.toId = row.key.2.1 from rfl, same]
  exact norm_norm _ _ _ _

theorem vacant_of_created (reachable : Reachable graph) (planned : link ∈ planRehomes graph)
    (creates : link.survivor = false) (shape : link = rehomed graph edge link.survivor)
    (stranded : Stranded graph edge) (live : PrimariesLive graph edge)
    (stored : row ∈ graph.links) : row.key ≠ slotOf graph edge := by
  intro same
  have slots := slotOf_of_key reachable same
  have settled := settled_slot reachable edge
  rw [← same] at settled
  have gathers : Gathered graph row :=
    stranded.1.of_joins stored (same ▸ joins_slot reachable live)
  have apart : within graph row = false := by
    have differ := (moves_iff.mp stranded.2).2.2.2
    obtain ⟨_, ends⟩ := ends_of_slot settled slots
    obtain ⟨fromClass, toClass⟩ := settled
    simp only at fromClass toClass
    rw [within, fromClass, toClass, decide_eq_false_iff_not]
    rcases ends with ⟨one, other⟩ | ⟨_, one, other⟩
    · rw [one, other]
      exact differ
    · rw [one, other]
      exact differ.symm
  refine created_absent planned creates ?_
  have seeds : slotOf graph row ∈ seeded graph := List.mem_map_of_mem
    (List.mem_filter.mpr ⟨mem_gathered.mpr gathers, by simp [canonical_iff.mpr settled, apart]⟩)
  rw [shape]
  rw [slots] at seeds
  exact seeds

theorem relation_slot (edge : LinkRow) : (slotOf graph edge).2.2 = edge.relation := by
  rcases norm_cases (graph.classOf edge.fromId) (graph.classOf edge.toId) edge.relation
    (symmetricOf graph edge.relation) with shape | ⟨_, shape⟩ <;> rw [slotOf, shape]

theorem untouched_after (reachable : Reachable graph)
    (clean : ∀ edge, Stranded graph edge → AsStored graph edge)
    (reaches : ∀ edge, Stranded graph edge → Reaches graph edge)
    (committed : commit recordedAt source (rehomeEvents graph) graph = .ok after)
    (fixed : ofConnector row.source = true ∨ row.relation = .sameAs) :
    row ∈ after.links ↔ row ∈ graph.links := by
  constructor
  · intro stored
    rcases stored_after clean committed stored with ⟨old, _⟩ | ⟨maker, planned, _, slot, told⟩
    · exact old
    · -- what a move creates is neither
      obtain ⟨edge, stranded, same⟩ := stranded_of_planned planned
      obtain ⟨other, plain, _⟩ := moves_iff.mp stranded.2
      rw [same] at slot told
      have kept : (rehomed graph edge maker.survivor).posture.source = edge.source := rfl
      rcases fixed with connector | identity
      · rw [← told, kept, plain] at connector
        cases connector
      · have label := (relation_slot edge).symm.trans (congrArg (·.2.2) slot)
        exact absurd (label.trans identity) other
  · intro stored
    have still : ¬Stranded graph row := by
      intro stranded
      obtain ⟨other, plain, _⟩ := moves_iff.mp stranded.2
      rcases fixed with connector | identity
      · rw [plain] at connector
        cases connector
      · exact other identity
    refine kept_after clean committed stored still fun maker planned creates slot => ?_
    obtain ⟨edge, stranded, same⟩ := stranded_of_planned planned
    have onto : slotOf graph edge = row.key := by
      rw [same] at slot
      exact slot
    rcases fixed with connector | identity
    · rcases reaches edge stranded with live | ⟨_, unclaimed⟩
      · exact vacant_of_created reachable planned creates same stranded live stored onto.symm
      · rw [unclaimed row stored onto.symm] at connector
        cases connector
    · have relation := (relation_slot edge).symm.trans (congrArg (·.2.2) onto)
      exact (moves_iff.mp stranded.2).1 (relation.trans identity)

theorem joins_after_iff (reachable : Reachable graph)
    (clean : ∀ edge, Stranded graph edge → AsStored graph edge)
    (reaches : ∀ edge, Stranded graph edge → Reaches graph edge)
    (committed : commit recordedAt source (rehomeEvents graph) graph = .ok after)
    {relation : RelationName} {first second : MemoryId} :
    (∃ row ∈ after.links, Joins graph relation first second row.key) ↔
      ∃ row ∈ graph.links, Joins graph relation first second row.key := by
  constructor
  · rintro ⟨row, stored, joins⟩
    rcases stored_after clean committed stored with ⟨old, _⟩ | ⟨maker, planned, _, slot, _⟩
    · exact ⟨row, old, joins⟩
    · -- the edge whose move made this one joined the same classes
      obtain ⟨edge, stranded, same⟩ := stranded_of_planned planned
      have onto : slotOf graph edge = row.key := by
        rw [same] at slot
        exact slot
      refine ⟨edge, stranded.1.stored, ?_⟩
      obtain ⟨named, _, _, ends⟩ := joins
      have label : edge.relation = relation := (relation_slot edge).symm.trans (onto ▸ named)
      obtain ⟨fromClass, toClass⟩ := settled_slot reachable edge
      rw [onto] at fromClass toClass
      rw [fromClass, toClass, ← label] at ends
      refine ⟨label, stranded.1.live.1, stranded.1.live.2, ?_⟩
      rw [← label]
      rcases norm_cases (graph.classOf edge.fromId) (graph.classOf edge.toId) edge.relation
        (symmetricOf graph edge.relation) with shape | ⟨unordered, shape⟩
      · rw [← onto, slotOf, shape] at ends
        exact ends
      · rw [← onto, slotOf, shape] at ends
        rcases ends with ⟨one, other⟩ | ⟨_, one, other⟩
        · exact .inr ⟨unordered, other, one⟩
        · exact .inl ⟨other, one⟩
  · rintro ⟨row, stored, joins⟩
    by_cases stranded : Stranded graph row
    · have found : ∃ later ∈ after.links, Joins graph row.relation (graph.classOf row.fromId)
          (graph.classOf row.toId) later.key := by
        rcases reaches row stranded with live | ⟨⟨kept, old, connector, joined⟩, _⟩
        · exact joined_after reachable clean committed stranded live
        · exact ⟨kept, (untouched_after reachable clean reaches committed (.inl connector)).mpr old,
            joined⟩
      obtain ⟨later, stays, joined⟩ := found
      exact ⟨later, stays, joins.trans joined⟩
    · obtain ⟨later, stays, key⟩ :=
        Table.contains_iff.mp (contains_after clean committed reachable stored stranded)
      exact ⟨later, stays, key ▸ joins⟩

theorem settled_after (reachable : Reachable graph)
    (clean : ∀ edge, Stranded graph edge → AsStored graph edge)
    (memories : after.memories = graph.memories)
    (committed : commit recordedAt source (rehomeEvents graph) graph = .ok after) :
    planRehomes after = [] := by
  refine List.eq_nil_iff_forall_not_mem.mpr fun link planned => ?_
  obtain ⟨row, stranded, _⟩ := stranded_of_planned planned
  have stored := stranded.1.stored
  rcases stored_after clean committed stored with ⟨old, still⟩ | ⟨maker, made, _, slot, _⟩
  · exact still ⟨(gathered_congr memories old stored).mp stranded.1,
      moves_congr memories ▸ stranded.2⟩
  · -- what a move creates is where it belongs
    obtain ⟨edge, _, same⟩ := stranded_of_planned made
    have settled := settled_slot reachable edge
    have onto : slotOf graph edge = row.key := by
      rw [same] at slot
      exact slot
    refine stranded.unsettled ?_
    rw [← onto]
    simpa only [Settled, classOf_of_memories memories] using settled

/-! ### Only a clean sweep preserves -/

theorem clean_of_settled (reachable : Reachable graph) (memories : after.memories = graph.memories)
    (committed : commit recordedAt source (rehomeEvents graph) graph = .ok after)
    (settled : planRehomes after = []) : ∀ edge, Stranded graph edge → AsStored graph edge := by
  classical
  by_contra missed
  push Not at missed
  obtain ⟨first, strandedFirst, unlike⟩ := missed
  let missing := (gathered graph).toFinset.filter fun edge =>
    moves graph edge = true ∧ ¬AsStored graph edge
  have mem_missing : ∀ {edge}, edge ∈ missing ↔ Stranded graph edge ∧ ¬AsStored graph edge := by
    intro edge
    simp [missing, mem_gathered, Stranded, and_assoc]
  obtain ⟨edge, member, highest⟩ := missing.exists_max_image
    (fun edge => canonicalRank graph edge.key) ⟨first, mem_missing.mpr ⟨strandedFirst, unlike⟩⟩
  obtain ⟨stranded, _⟩ := mem_missing.mp member
  have silent : lastWord (edgeWord graph edge.key) (rehomeEvents graph) = none := by
    cases said : lastWord (edgeWord graph edge.key) (rehomeEvents graph) with
    | none => rfl
    | some word =>
      cases word with
      | none =>
        obtain ⟨link, planned, removed⟩ := exists_removal said
        obtain ⟨other, strandedOther, same⟩ := stranded_of_planned planned
        rw [same] at removed
        by_cases stored : AsStored graph other
        · have itself := Table.eq_of_key_eq strandedOther.1.stored stranded.1.stored
            (stored.symm.trans removed)
          rw [itself] at stored
          exact absurd stored (mem_missing.mp member).2
        · have lower := canonicalRank_lt (reachable.registered other strandedOther.1.stored) stored
          have onto : canonicalEdge graph other.fromId other.toId other.relation = edge.key :=
            removed
          rw [onto] at lower
          have below := highest other (mem_missing.mpr ⟨strandedOther, stored⟩)
          exact absurd lower (Nat.not_lt.mpr below)
      | some =>
        obtain ⟨link, planned, _, created, _⟩ := exists_creation said
        have between := createdKey_settled reachable planned
        rw [created] at between
        exact absurd between stranded.unsettled
  have stays := kept_of_linking (linking_rehomeEvents graph) committed silent stranded.1.stored
  have again : Stranded after edge :=
    ⟨(gathered_congr memories stranded.1.stored stays).mpr stranded.1,
      (moves_congr memories).trans stranded.2⟩
  obtain ⟨survivor, planned⟩ := again.planned
  rw [settled] at planned
  cases planned

theorem primariesLive_of_slot {other : LinkRow} (gathers : Gathered graph other)
    (settled : Settled graph other.key) (same : slotOf graph other = slotOf graph edge) :
    PrimariesLive graph edge := by
  obtain ⟨fromLive, toLive⟩ := gathers.live
  rcases (ends_of_slot settled same).2 with ⟨one, another⟩ | ⟨_, one, another⟩
  · exact ⟨one ▸ fromLive, another ▸ toLive⟩
  · exact ⟨another ▸ toLive, one ▸ fromLive⟩

theorem reaches_of_preserves (reachable : Reachable graph)
    (clean : ∀ edge, Stranded graph edge → AsStored graph edge)
    (committed : commit recordedAt source (rehomeEvents graph) graph = .ok after)
    (memories : after.memories = graph.memories) (relations : after.relations = graph.relations)
    (preserves : Preserves graph after) (stranded : Stranded graph edge) :
    Reaches graph edge := by
  by_cases live : PrimariesLive graph edge
  · exact .inl live
  refine .inr ⟨?_, fun row stored same => ?_⟩
  · obtain ⟨fromLive, toLive⟩ := stranded.1.live
    obtain ⟨other, plain, _, apart⟩ := moves_iff.mp stranded.2
    have reported : Reports graph edge.relation edge.fromId edge.toId :=
      (reports_iff fromLive toLive).mpr
        ⟨edge, stranded.1.stored, rfl, fromLive, toLive, .inl ⟨rfl, rfl⟩⟩
    have visible : ∀ {id : MemoryId}, (graph.liveRow id).isSome = true →
        (graph.memoryById id).isSome = true := by
      intro id live
      rw [memoryById, Option.isSome_map]
      exact live
    obtain ⟨row, stays, joins⟩ := (reports_congr memories relations fromLive toLive).mp
      ((preserves.reports _ _ (visible fromLive) (visible toLive) _ other).mpr reported)
    have unsettled : ¬Settled graph row.key := by
      rintro ⟨fromClass, toClass⟩
      obtain ⟨_, rowFrom, rowTo, ends⟩ := joins
      rw [fromClass, toClass] at ends
      rcases ends with ⟨one, another⟩ | ⟨_, one, another⟩
      · exact live ⟨one ▸ rowFrom, another ▸ rowTo⟩
      · exact live ⟨another ▸ rowTo, one ▸ rowFrom⟩
    rcases stored_after clean committed stays with ⟨old, still⟩ | ⟨maker, planned, _, slot, _⟩
    · -- it is gathered and does not move, so a connector maintains it
      refine ⟨row, old, ?_, joins⟩
      have gathers := stranded.1.of_joins old joins
      have differ : graph.classOf row.fromId ≠ graph.classOf row.toId := by
        rcases joins.2.2.2 with ⟨one, another⟩ | ⟨_, one, another⟩
        · exact one.symm ▸ another.symm ▸ apart
        · exact one.symm ▸ another.symm ▸ apart.symm
      have loose : canonical graph row = false := by
        rw [Bool.eq_false_iff]
        exact fun settled => unsettled (canonical_iff.mp settled)
      by_contra unowned
      rw [Bool.not_eq_true] at unowned
      refine still ⟨gathers, moves_iff.mpr ⟨?_, unowned, loose, differ⟩⟩
      rw [show row.relation = edge.relation from joins.1]
      exact other
    · obtain ⟨mover, _, same⟩ := stranded_of_planned planned
      have settled := settled_slot reachable mover
      rw [same] at slot
      rw [show slotOf graph mover = row.key from slot] at settled
      exact absurd settled unsettled
  · by_contra connector
    rw [Bool.not_eq_false] at connector
    have stays := (preserves.untouched row (.inl connector)).mpr stored
    obtain ⟨survivor, planned⟩ := stranded.planned
    rcases slot_covered planned with there | ⟨maker, made, creates, slot⟩
    · obtain ⟨seat, listed, seated⟩ := List.mem_map.mp there
      obtain ⟨listed, shape⟩ := List.mem_filter.mp listed
      rw [Bool.and_eq_true] at shape
      exact live (primariesLive_of_slot (mem_gathered.mp listed) (canonical_iff.mp shape.1) seated)
    · -- the move onto the slot has the last word on it
      have onto : createdKey graph maker = row.key := by
        rw [createdKey_of_clean clean made, slot, same]
        rfl
      have told : lastWord (edgeWord graph row.key) (rehomeEvents graph) ≠ none :=
        onto ▸ not_silent_of_created made creates
      rcases stored_of_linking (linking_rehomeEvents graph) committed stays with ⟨silent, _⟩ | said
      · exact told silent
      · obtain ⟨last, planned, _, _, author⟩ := exists_creation said
        obtain ⟨mover, moving, shape⟩ := stranded_of_planned planned
        have plain := (moves_iff.mp moving.2).2.1
        rw [shape] at author
        have kept : (rehomed graph mover last.survivor).posture.source = mover.source := rfl
        rw [← author, kept, plain] at connector
        cases connector

/-- A sweep preserves the relationships between classes, and settles, exactly if every
stranded edge is stored as the registry would store it now and nothing that is found of it
is lost: its primaries are live, or a connector's edge carries the relation as well. -/
theorem rehome_preserves_iff (reachable : Reachable graph) :
    (∃ after, commit recordedAt source (rehomeEvents graph) graph = .ok after ∧
        Preserves graph after) ↔
      ∀ edge, Stranded graph edge →
        AsStored graph edge ∧ (PrimariesLive graph edge ∨ CarriedByConnector graph edge) := by
  constructor
  · rintro ⟨after, committed, preserves⟩
    have relations := relations_of_linking (linking_rehomeEvents graph) committed
    have memories := memories_eq_of_linking reachable (linking_rehomeEvents graph) committed
      fun link identity => (preserves.untouched link (.inr identity)).symm
    have clean := clean_of_settled reachable memories committed preserves.settled
    exact fun edge stranded => ⟨clean edge stranded,
      reaches_of_preserves reachable clean committed memories relations preserves stranded⟩
  · intro sound
    have clean : ∀ edge, Stranded graph edge → AsStored graph edge :=
      fun edge stranded => (sound edge stranded).1
    have reaches : ∀ edge, Stranded graph edge → Reaches graph edge :=
      fun edge stranded => (sound edge stranded).2
    obtain ⟨after, committed⟩ := exists_commit_rehomes reachable recordedAt source
    have untouched : ∀ row : LinkRow, ofConnector row.source = true ∨ row.relation = .sameAs →
        (row ∈ after.links ↔ row ∈ graph.links) :=
      fun row fixed => untouched_after reachable clean reaches committed fixed
    have relations := relations_of_linking (linking_rehomeEvents graph) committed
    have memories := memories_eq_of_linking reachable (linking_rehomeEvents graph) committed
      fun link identity => (untouched link (.inr identity)).symm
    refine ⟨after, committed, ?_, untouched, settled_after reachable clean memories committed⟩
    intro first second live standing relation _
    rw [memoryById, Option.isSome_map] at live standing
    rw [reports_congr memories relations live standing, reports_iff live standing]
    exact joins_after_iff reachable clean reaches committed

end Preserved

/-! Two people have two accounts each, and an account of the one knows an account of the
other. The first account of the one, its primary, is deleted. -/

section Deleted

/-- The accounts. -/
def first : MemoryId := ⟨1⟩
def second : MemoryId := ⟨2⟩
def third : MemoryId := ⟨3⟩
def fourth : MemoryId := ⟨4⟩

/-- The relation between them. -/
def knows : RelationName := ⟨"knows"⟩

/-- What is recorded of them. -/
def acquaintance : List EventPayload :=
  [.linkTypeRegistered .sameAs .sameAs .many .many true false "one identity",
    .linkTypeRegistered knows ⟨"known_by"⟩ .many .many false false "acquaintance",
    .memoryCreated first ⟨"person/ada"⟩, .memoryCreated second ⟨"person/ada-2"⟩,
    .memoryCreated third ⟨"person/bo"⟩, .memoryCreated fourth ⟨"person/bo-2"⟩,
    .linkCreated first second .sameAs .operator none none .public,
    .linkCreated third fourth .sameAs .operator none none .public,
    .linkCreated second fourth knows .agent none none .public, .memoryDeleted first]

def acquainted : Graph :=
  ((commit ⟨0⟩ .agent acquaintance Graph.fresh).toOption).getD Graph.fresh

theorem acquainted_reachable : Reachable acquainted := Reachable.fresh.folded

instance (graph : Graph) (relation : RelationName) (one other : MemoryId) :
    Decidable (Reports graph relation one other) :=
  inferInstanceAs (Decidable (∃ row ∈ graph.classLinks one, _))

/-- The sweep moves the edge onto the deleted account, and nobody is reported to know the
other any more. -/
theorem acquaintance_lost :
    Reachable acquainted ∧
      ¬∃ after, commit ⟨1⟩ .agent (rehomeEvents acquainted) acquainted = .ok after ∧
        Preserves acquainted after := by
  refine ⟨acquainted_reachable, ?_⟩
  rintro ⟨after, committed, preserves⟩
  have left : ((commit ⟨1⟩ .agent (rehomeEvents acquainted) acquainted).toOption).getD acquainted =
      after := by
    rw [committed]
    rfl
  have lost := preserves.reports second fourth (by decide +kernel) (by decide +kernel) knows
    (by decide)
  rw [← left] at lost
  revert lost
  decide +kernel

theorem rehome_preserves_acquainted :
    (∃ after, commit ⟨1⟩ .agent (rehomeEvents acquainted) acquainted = .ok after ∧
        Preserves acquainted after) ↔
      ∀ edge, Stranded acquainted edge →
        AsStored acquainted edge ∧
          (PrimariesLive acquainted edge ∨ CarriedByConnector acquainted edge) :=
  rehome_preserves_iff acquainted_reachable

end Deleted

end Zuihitsu.Canonicalize
