/-
# Grouping by a key, in order of first appearance

A value joins the group that has its key, or opens one at the end. What relates
every value to the key it was filed under relates each group's members to its key.
-/

import Mathlib.Data.List.Induction
import Mathlib.Data.List.Nodup

namespace Zuihitsu.Library

section Grouping

variable {κ α : Type} [DecidableEq κ]

/-- File a value under a key. -/
def addToGroup (key : κ) (value : α) : List (κ × List α) → List (κ × List α)
  | [] => [(key, [value])]
  | group :: rest =>
    if group.1 = key then (group.1, group.2 ++ [value]) :: rest
    else group :: addToGroup key value rest

variable {key : κ} {value : α} {groups : List (κ × List α)}

/-- A member of a group after a filing was in a group of that key, or is the value
under its own key. -/
theorem mem_addToGroup {group : κ × List α} (member : group ∈ addToGroup key value groups)
    {other : α} (inside : other ∈ group.2) :
    (∃ earlier ∈ groups, earlier.1 = group.1 ∧ other ∈ earlier.2) ∨
      group.1 = key ∧ other = value := by
  induction groups with
  | nil =>
    obtain rfl := List.mem_singleton.mp member
    exact .inr ⟨rfl, List.mem_singleton.mp inside⟩
  | cons first rest ih =>
    unfold addToGroup at member
    split at member
    · rename_i same
      rcases List.mem_cons.mp member with rfl | later
      · rcases List.mem_append.mp inside with old | new
        · exact .inl ⟨first, List.mem_cons_self, rfl, old⟩
        · exact .inr ⟨same, List.mem_singleton.mp new⟩
      · exact .inl ⟨group, List.mem_cons_of_mem _ later, rfl, inside⟩
    · rcases List.mem_cons.mp member with rfl | later
      · exact .inl ⟨group, List.mem_cons_self, rfl, inside⟩
      · rcases ih later with ⟨earlier, earlierMem, sameKey, kept⟩ | filed
        · exact .inl ⟨earlier, List.mem_cons_of_mem _ earlierMem, sameKey, kept⟩
        · exact .inr filed

/-- What holds of every value and the key it is filed under holds through a filing. -/
theorem addToGroup_keeps (related : κ → α → Prop)
    (kept : ∀ group ∈ groups, ∀ other ∈ group.2, related group.1 other)
    (filed : related key value) :
    ∀ group ∈ addToGroup key value groups, ∀ other ∈ group.2, related group.1 other := by
  intro group member other inside
  rcases mem_addToGroup member inside with ⟨earlier, earlierMem, same, old⟩ | ⟨same, rfl⟩
  · exact same ▸ kept earlier earlierMem other old
  · exact same ▸ filed

/-- A filing adds its value to the filed values. -/
theorem addToGroup_flatMap_perm :
    ((addToGroup key value groups).flatMap (·.2)).Perm (groups.flatMap (·.2) ++ [value]) := by
  induction groups with
  | nil => exact List.Perm.refl _
  | cons first rest ih =>
    unfold addToGroup
    split
    · simp only [List.flatMap_cons, List.append_assoc]
      exact List.perm_append_comm.append_left first.2
    · simp only [List.flatMap_cons, List.append_assoc]
      exact ih.append_left first.2

/-- A filing opens a group only for a key that has none. -/
theorem addToGroup_keys :
    (addToGroup key value groups).map Prod.fst =
      if key ∈ groups.map Prod.fst then groups.map Prod.fst else groups.map Prod.fst ++ [key] := by
  induction groups with
  | nil => rfl
  | cons first rest ih =>
    unfold addToGroup
    by_cases same : first.1 = key
    · simp [same]
    · simp only [same, if_false, List.map_cons, ih, List.mem_cons, Ne.symm same, false_or]
      split <;> rfl

/-- Each key keeps one group. -/
theorem addToGroup_keys_nodup (once : (groups.map Prod.fst).Nodup) :
    ((addToGroup key value groups).map Prod.fst).Nodup := by
  rw [addToGroup_keys]
  split
  · exact once
  · rename_i fresh
    exact List.nodup_append_comm.mpr (List.nodup_cons.mpr ⟨fresh, once⟩)

/-- What a filing does to the groups of distinct keys. -/
theorem addToGroup_map {keys : List κ} (once : keys.Nodup) {filed : κ → List α}
    (unfiled : key ∉ keys → filed key = []) :
    addToGroup key value (keys.map fun other => (other, filed other)) =
      (if key ∈ keys then keys else keys ++ [key]).map fun other =>
        (other, if other = key then filed other ++ [value] else filed other) := by
  induction keys with
  | nil => simp [addToGroup, unfiled]
  | cons first rest ih =>
    rw [List.nodup_cons] at once
    rw [List.map_cons, addToGroup]
    by_cases same : first = key
    · subst same
      have others : rest.map (fun other => (other, filed other)) = rest.map fun other =>
          (other, if other = first then filed other ++ [value] else filed other) :=
        List.map_congr_left fun other member => by
          rw [if_neg (ne_of_mem_of_not_mem member once.1)]
      simp [others]
    · have unfiled' : key ∉ rest → filed key = [] := fun new =>
        unfiled fun old => (List.mem_cons.mp old).elim (Ne.symm same) new
      simp only [same, if_false, ih once.2 unfiled', List.mem_cons, Ne.symm same, false_or]
      split <;> simp [same]

/-- Filed one by one, the values of a key are its group, in their order. -/
theorem foldl_addToGroup (items : List (κ × α)) :
    ∃ keys : List κ, keys.Nodup ∧ (∀ key, key ∈ keys ↔ key ∈ items.map Prod.fst) ∧
      items.foldl (fun groups item => addToGroup item.1 item.2 groups) [] =
        keys.map fun key => (key, (items.filter fun item => item.1 = key).map Prod.snd) := by
  induction items using List.reverseRecOn with
  | nil => exact ⟨[], .nil, by simp, rfl⟩
  | append_singleton items item ih =>
    obtain ⟨keys, once, listed, folded⟩ := ih
    have unfiled : item.1 ∉ keys →
        (items.filter fun other => other.1 = item.1).map Prod.snd = [] := by
      intro new
      rw [listed, List.mem_map] at new
      rw [List.map_eq_nil_iff, List.filter_eq_nil_iff]
      exact fun other member same => new ⟨other, member, of_decide_eq_true same⟩
    refine ⟨if item.1 ∈ keys then keys else keys ++ [item.1], ?_, fun key => ?_, ?_⟩
    · split
      · exact once
      · rename_i new
        exact List.nodup_append_comm.mpr (List.nodup_cons.mpr ⟨new, once⟩)
    · rw [List.map_append, List.mem_append, ← listed]
      split
      · rename_i old
        simp only [List.map_cons, List.map_nil, List.mem_singleton]
        exact ⟨.inl, fun either => either.elim id fun same => same ▸ old⟩
      · simp
    · rw [List.foldl_append, folded, List.foldl_cons, List.foldl_nil, addToGroup_map once unfiled]
      refine List.map_congr_left fun key _ => ?_
      rw [List.filter_append, List.map_append]
      by_cases same : key = item.1
      · simp [same]
      · simp [same, Ne.symm same]

theorem foldl_addToGroup_perm (items : List (κ × α)) :
    ((items.foldl (fun groups item => addToGroup item.1 item.2 groups) []).flatMap Prod.snd).Perm
      (items.map Prod.snd) := by
  induction items using List.reverseRecOn with
  | nil => exact .refl _
  | append_singleton items item ih =>
    rw [List.foldl_append, List.map_append]
    exact addToGroup_flatMap_perm.trans (ih.append_right _)

end Grouping

end Zuihitsu.Library
