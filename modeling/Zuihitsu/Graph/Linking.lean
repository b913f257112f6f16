/-
# What a run of link events leaves

A run that only creates and removes links leaves the registry alone, so each of its
events means one edge throughout, and what is stored of an edge is what the run's last
event on it says. The classes follow the identity links: where a run leaves those as
they were, it leaves every memory as it was.
-/

import Zuihitsu.Graph.Applicable
import Zuihitsu.Graph.Classes
import Zuihitsu.Library.Cursor
import Mathlib.Data.List.Induction

namespace Zuihitsu.Graph

open Zuihitsu.Core Zuihitsu.Library Zuihitsu.Library.Cursor

/-- The stored form of an edge. -/
abbrev EdgeKey := MemoryId × MemoryId × RelationName

/-- What a link event says of an edge: who asserts it, or that it is gone. -/
def edgeWord (graph : Graph) (key : EdgeKey) : EventPayload → Option (Option LinkSource)
  | .linkCreated fromId toId relation source _ _ _ =>
    if canonicalEdge graph fromId toId relation = key then some (some source) else none
  | .linkRemoved fromId toId relation =>
    if canonicalEdge graph fromId toId relation = key then some none else none
  | _ => none

/-- A run of link events. -/
def Linking (payloads : List EventPayload) : Prop :=
  ∀ payload ∈ payloads, (linkLabel payload).isSome = true

section Edges

variable {event : Event} {before after : Graph} {recordedAt : Timestamp} {source : EventSource}
variable {payload : EventPayload} {payloads : List EventPayload} {key : EdgeKey} {row : LinkRow}

theorem canonicalEdge_congr_relations (same : after.relations = before.relations)
    (fromId toId : MemoryId) (relation : RelationName) :
    canonicalEdge after fromId toId relation = canonicalEdge before fromId toId relation := by
  simp only [canonicalEdge, same]

theorem edgeWord_congr (same : after.relations = before.relations) :
    edgeWord after key = edgeWord before key := by
  funext payload
  cases payload <;> simp only [edgeWord, canonicalEdge_congr_relations same]

theorem relations_of_link (links : (linkLabel event.payload).isSome = true)
    (applied : apply event before = .ok after) : after.relations = before.relations := by
  rw [relations_apply applied]
  cases payload : event.payload <;> simp [payload, linkLabel] at links <;> rfl

theorem stored_of_link (links : (linkLabel event.payload).isSome = true)
    (applied : apply event before = .ok after) (stored : row ∈ after.links) :
    edgeWord before row.key event.payload = none ∧ row ∈ before.links ∨
      edgeWord before row.key event.payload = some (some row.source) := by
  rw [apply_links applied] at stored
  cases payload : event.payload with
  | linkCreated =>
    simp only [linksAfter, payload] at stored
    simp only [edgeWord]
    rcases Table.mem_upsert.mp stored with ⟨old, other⟩ | ⟨old, _, same, rfl⟩ | ⟨_, rfl⟩
    · rw [if_neg (Ne.symm other)]
      exact .inl ⟨rfl, old⟩
    · exact .inr (if_pos same.symm)
    · exact .inr (if_pos rfl)
  | linkRemoved =>
    simp only [linksAfter, payload, Table.mem_delete, decide_eq_false_iff_not] at stored
    simp only [edgeWord]
    rw [if_neg (Ne.symm stored.2)]
    exact .inl ⟨rfl, stored.1⟩
  | _ => simp [payload, linkLabel] at links

theorem kept_of_link (links : (linkLabel event.payload).isSome = true)
    (applied : apply event before = .ok after)
    (silent : edgeWord before row.key event.payload = none) (stored : row ∈ before.links) :
    row ∈ after.links := by
  rw [apply_links applied]
  cases payload : event.payload with
  | linkCreated =>
    simp only [edgeWord, payload, ite_eq_right_iff, reduceCtorEq, imp_false] at silent
    simp only [linksAfter, payload]
    exact Table.mem_upsert.mpr (.inl ⟨stored, Ne.symm silent⟩)
  | linkRemoved =>
    simp only [edgeWord, payload, ite_eq_right_iff, reduceCtorEq, imp_false] at silent
    simp only [linksAfter, payload, Table.mem_delete, decide_eq_false_iff_not]
    exact ⟨stored, Ne.symm silent⟩
  | _ => simp [payload, linkLabel] at links

theorem contains_of_link (applied : apply event before = .ok after) {author : LinkSource}
    (said : edgeWord before key event.payload = some (some author)) :
    after.links.contains key = true := by
  rw [apply_links applied]
  cases payload : event.payload with
  | linkCreated =>
    simp only [edgeWord, payload, Option.ite_none_right_eq_some] at said
    simp only [linksAfter, payload]
    rw [← said.1]
    exact Table.contains_upsert
  | _ =>
    simp only [edgeWord, payload] at said
    first | cases said | (split at said <;> cases said)

theorem Linking.concat : Linking (payloads ++ [payload]) ↔
    Linking payloads ∧ (linkLabel payload).isSome = true := by
  simp [Linking, or_imp, forall_and]

theorem relations_of_linking (links : Linking payloads)
    (committed : commit recordedAt source payloads before = .ok after) :
    after.relations = before.relations := by
  induction payloads generalizing before with
  | nil =>
    cases committed
    rfl
  | cons payload rest ih =>
    obtain ⟨middle, applied, remaining⟩ := commit_cons_ok.mp committed
    obtain ⟨here, later⟩ := List.forall_mem_cons.mp links
    rw [ih later remaining, relations_of_link here applied]

theorem stored_of_linking (links : Linking payloads)
    (committed : commit recordedAt source payloads before = .ok after)
    (stored : row ∈ after.links) :
    lastWord (edgeWord before row.key) payloads = none ∧ row ∈ before.links ∨
      lastWord (edgeWord before row.key) payloads = some (some row.source) := by
  induction payloads using List.reverseRecOn generalizing after with
  | nil =>
    cases committed
    exact .inl ⟨rfl, stored⟩
  | append_singleton earlier payload ih =>
    obtain ⟨run, here⟩ := Linking.concat.mp links
    obtain ⟨middle, first, last⟩ := commit_append_ok.mp committed
    obtain ⟨next, applied, done⟩ := commit_cons_ok.mp last
    cases done
    have step := stored_of_link here applied stored
    rw [edgeWord_congr (relations_of_linking run first)] at step
    rw [lastWord_append, lastWord_singleton]
    rcases step with ⟨silent, old⟩ | said
    · rw [silent, Option.none_or]
      exact ih run first old
    · rw [said]
      exact .inr rfl

theorem kept_of_linking (links : Linking payloads)
    (committed : commit recordedAt source payloads before = .ok after)
    (silent : lastWord (edgeWord before row.key) payloads = none) (stored : row ∈ before.links) :
    row ∈ after.links := by
  induction payloads using List.reverseRecOn generalizing after with
  | nil =>
    cases committed
    exact stored
  | append_singleton earlier payload ih =>
    obtain ⟨run, here⟩ := Linking.concat.mp links
    obtain ⟨middle, first, last⟩ := commit_append_ok.mp committed
    obtain ⟨next, applied, done⟩ := commit_cons_ok.mp last
    cases done
    rw [lastWord_append_eq_none, lastWord_singleton] at silent
    refine kept_of_link here applied ?_ (ih run first silent.2)
    rw [edgeWord_congr (relations_of_linking run first)]
    exact silent.1

theorem contains_of_linking (links : Linking payloads)
    (committed : commit recordedAt source payloads before = .ok after) {author : LinkSource}
    (said : lastWord (edgeWord before key) payloads = some (some author)) :
    after.links.contains key = true := by
  induction payloads using List.reverseRecOn generalizing after with
  | nil => cases said
  | append_singleton earlier payload ih =>
    obtain ⟨run, here⟩ := Linking.concat.mp links
    obtain ⟨middle, first, last⟩ := commit_append_ok.mp committed
    obtain ⟨next, applied, done⟩ := commit_cons_ok.mp last
    cases done
    have same : edgeWord middle key = edgeWord before key :=
      edgeWord_congr (relations_of_linking run first)
    rw [lastWord_append, lastWord_singleton] at said
    cases word : edgeWord before key payload with
    | none =>
      rw [word, Option.none_or] at said
      obtain ⟨row, middleStored, rfl⟩ := Table.contains_iff.mp (ih run first said)
      exact Table.contains_of_mem (kept_of_link here applied (by rw [same, word]) middleStored)
    | some =>
      rw [word, Option.some_or] at said
      exact contains_of_link applied (by rw [same, word, said])

/-! ### What it leaves of the memories -/

theorem memories_of_linking (links : Linking payloads)
    (committed : commit recordedAt source payloads before = .ok after) :
    ∃ change : MemoryRow → MemoryRow,
      (∀ row, change row = { row with classId := (change row).classId }) ∧
        after.memories.rows = before.memories.rows.map change := by
  induction payloads generalizing before with
  | nil =>
    cases committed
    exact ⟨id, fun _ => rfl, (List.map_id _).symm⟩
  | cons payload rest ih =>
    obtain ⟨middle, applied, remaining⟩ := commit_cons_ok.mp committed
    obtain ⟨here, later⟩ := List.forall_mem_cons.mp links
    obtain ⟨change, reclasses, made⟩ := ih later remaining
    let event : Event := ⟨before.head + 1, recordedAt, source, payload⟩
    have columns : ∀ row, memoryColumns event row = row := by
      intro row
      cases payload <;> simp [linkLabel] at here <;> rfl
    have uncreated : createdMemory event = none := by
      cases payload <;> simp [linkLabel] at here <;> rfl
    refine ⟨fun row => change (memoryChange event before row), fun row => ?_, ?_⟩
    · refine (reclasses _).trans ?_
      generalize (change (memoryChange event before row)).classId = given
      rw [memoryChange_eq, columns]
    · have step := apply_memories applied
      rw [show createdMemory _ = none from uncreated, Option.toList_none, List.append_nil] at step
      rw [made, step, List.map_map]
      rfl

theorem connected_of_sameAs
    (same : ∀ link, link.relation = .sameAs → (link ∈ before.links ↔ link ∈ after.links))
    {first second : MemoryId} :
    UnionFind.Connected (sameAsEdges before) first second ↔
      UnionFind.Connected (sameAsEdges after) first second := by
  constructor <;> refine UnionFind.Connected.mono fun edge member => ?_
  · obtain ⟨link, stored, identity, ends⟩ := mem_sameAsEdges.mp member
    exact mem_sameAsEdges.mpr ⟨link, (same link identity).mp stored, identity, ends⟩
  · obtain ⟨link, stored, identity, ends⟩ := mem_sameAsEdges.mp member
    exact mem_sameAsEdges.mpr ⟨link, (same link identity).mpr stored, identity, ends⟩

theorem memories_eq_of_linking (reachable : Reachable before) (links : Linking payloads)
    (committed : commit recordedAt source payloads before = .ok after)
    (same : ∀ link, link.relation = .sameAs → (link ∈ before.links ↔ link ∈ after.links)) :
    after.memories = before.memories := by
  obtain ⟨change, reclasses, made⟩ := memories_of_linking links committed
  have kept : ∀ row, (change row).id = row.id ∧
      (change row).designatedPrimary = row.designatedPrimary := by
    intro row
    rw [reclasses row]
    exact ⟨rfl, rfl⟩
  have changed : ∀ {row}, row ∈ before.memories → change row ∈ after.memories := by
    intro row member
    rw [Table.mem_def, made]
    exact List.mem_map_of_mem member
  refine Table.ext (made.trans ?_)
  conv_rhs => rw [← List.map_id before.memories.rows]
  refine List.map_congr_left fun row member => ?_
  -- the best member of the row's component is the same before and after
  obtain ⟨best, bestMem, named, joined, least⟩ := reachable.classed.best member
  obtain ⟨later, laterMem, renamed, rejoined, lowest⟩ :=
    (reachable.commit committed).classed.best (changed member)
  rw [Table.mem_def, made] at laterMem
  obtain ⟨old, oldMem, rfl⟩ := List.mem_map.mp laterMem
  rw [(kept row).1, (kept old).1] at rejoined
  have up := least old oldMem ((connected_of_sameAs same).mpr rejoined)
  have down := lowest (change best) (changed bestMem) (by
    rw [(kept best).1, (kept row).1]
    exact (connected_of_sameAs same).mp joined)
  simp only [kept] at down
  have alike : best.id = old.id := by
    have ranks := le_antisymm up down
    have ulids := congrArg (fun pair => (ofLex pair).2) ranks
    exact congrArg MemoryId.mk ulids
  have class' : (change row).classId = row.classId := by
    rw [← renamed, (kept old).1, ← alike, named]
  rw [reclasses row, class', id_eq]

theorem exists_commit_linking (reachable : Reachable before)
    (known : ∀ payload ∈ payloads, ∀ fromId toId relation author toldBy toldIn visibility,
      payload = .linkCreated fromId toId relation author toldBy toldIn visibility →
        before.memories.contains fromId = true ∧ before.memories.contains toId = true ∧
          resolvesLabel before.relations relation = true)
    (links : Linking payloads) : ∃ after, commit recordedAt source payloads before = .ok after := by
  induction payloads generalizing before with
  | nil => exact ⟨before, rfl⟩
  | cons payload rest ih =>
    obtain ⟨here, later⟩ := List.forall_mem_cons.mp links
    obtain ⟨first, others⟩ := List.forall_mem_cons.mp known
    have applicable : Applicable before payload := by
      cases payload with
      | linkCreated =>
        exact first _ _ _ _ _ _ _ rfl
      | linkRemoved => trivial
      | _ => simp [linkLabel] at here
    obtain ⟨middle, applied⟩ := @apply_of_applicable ⟨before.head + 1, recordedAt, source, payload⟩
      before reachable.attested applicable
    have same := relations_of_link here applied
    obtain ⟨after, remaining⟩ := ih (reachable.apply rfl applied) (by
      intro other member fromId toId relation author toldBy toldIn visibility shape
      obtain ⟨fromKnown, toKnown, resolves⟩ := others other member _ _ _ _ _ _ _ shape
      rw [same]
      exact ⟨contains_memory_apply fromKnown applied, contains_memory_apply toKnown applied,
        resolves⟩)
      later
    exact ⟨after, commit_cons_ok.mpr ⟨middle, applied, remaining⟩⟩

end Edges

/-! ### The stored form -/

section Canonical
variable {graph : Graph} {relation : RelationName} {fromId toId : MemoryId}

/-- How far an edge is from its stored form: the place of its relation in the registry, and
whether its ends are out of order. -/
def canonicalRank (graph : Graph) (key : EdgeKey) : ℕ :=
  2 * (graph.relations.rows.map (·.name)).idxOf key.2.2 + if key.2.1 < key.1 then 1 else 0

theorem canonicalRank_lt (registered : graph.relations.contains relation = true)
    (moved : canonicalEdge graph fromId toId relation ≠ (fromId, toId, relation)) :
    canonicalRank graph (canonicalEdge graph fromId toId relation) <
      canonicalRank graph (fromId, toId, relation) := by
  obtain ⟨named, stored, rfl⟩ := Table.contains_iff.mp registered
  cases found : graph.relations.rows.find? fun row =>
      row.name = named.name || row.inverse = named.name with
  | none =>
    have carries := List.find?_eq_none.mp found named stored
    simp at carries
  | some row =>
    obtain ⟨_, front, back, split, earlier⟩ := List.find?_eq_some_iff_append.mp found
    have unnamed : named.name ∉ front.map (·.name) := by
      intro listed
      obtain ⟨other, member, same⟩ := List.mem_map.mp listed
      simpa [same] using earlier other member
    by_cases itself : row.name = named.name
    · -- only the order of the ends can be off
      simp only [canonicalEdge, found, itself, if_true] at moved ⊢
      by_cases unordered : row.symmetric
      · rw [if_pos unordered] at moved ⊢
        by_cases ordered : fromId ≤ toId
        · rw [if_pos ordered] at moved
          exact absurd rfl moved
        · rw [if_neg ordered]
          have lower : toId < fromId := by
            simp only [MemoryId.le_def, not_le] at ordered
            exact ordered
          have kept : ¬fromId < toId := Nat.lt_asymm lower
          simp [canonicalRank, lower, kept]
      · rw [if_neg unordered] at moved
        exact absurd rfl moved
    · have fresh : row.name ∉ front.map (·.name) := by
        have distinct := graph.relations.nodup
        rw [split, List.map_append, List.map_cons] at distinct
        intro listed
        exact (List.nodup_append.mp distinct).2.2 _ listed _ List.mem_cons_self rfl
      have label : (canonicalEdge graph fromId toId named.name).2.2 = row.name := by
        rw [canonicalEdge_label]
        unfold canonicalLabel RelationRow.carries
        rw [found]
        rfl
      have lower : (graph.relations.rows.map (·.name)).idxOf row.name <
          (graph.relations.rows.map (·.name)).idxOf named.name := by
        rw [split, List.map_append, List.map_cons, List.idxOf_append_of_notMem fresh,
          List.idxOf_append_of_notMem unnamed, List.idxOf_cons_self, List.idxOf_cons_ne _ itself]
        omega
      simp only [canonicalRank, label]
      split <;> split <;> omega

end Canonical

end Zuihitsu.Graph
