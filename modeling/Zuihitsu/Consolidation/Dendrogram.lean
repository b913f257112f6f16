/-
# Cutting a dendrogram

The clusters of a posture group, which synthesis folds one by one. How the entries link up is
a library's answer: steps that each merge two nodes into the next one, numbered on from the
points. The cut labels each point with the node it lies under after the steps within the
threshold, and a cluster is what has one label. If the steps are those of complete linkage, every
two entries of a cluster are similar enough, and of two clusters not all.
-/

import Mathlib.Algebra.Order.Ring.Int
import Mathlib.Order.Bounds.Basic
import Mathlib.Tactic.Abel
import Zuihitsu.Consolidation.Clustering

namespace Zuihitsu.Consolidation

open Zuihitsu.Library

/-! ### The cut -/

/-- A step of a dendrogram: the two nodes it merges, and how far apart they are. -/
structure DendrogramStep (S : Type) where
  cluster1 : Nat
  cluster2 : Nat
  dissimilarity : S

section Cut

variable {S : Type} [LT S] [DecidableLT S]

/-- Merge labels, a step at a time, up to the first step past the threshold. -/
def mergeLabels (threshold : S) :
    List (DendrogramStep S) → Nat → List Nat → List Nat → List Nat
  | [], _, _, labels => labels
  | step :: steps, merged, nodeCluster, labels =>
    if threshold < step.dissimilarity then labels
    else
      let a := nodeCluster.getD step.cluster1 0
      let b := nodeCluster.getD step.cluster2 0
      mergeLabels threshold steps (merged + 1) (nodeCluster ++ [merged])
        (labels.map fun label => if label = a ∨ label = b then merged else label)

/-- Number labels by their first appearance, after those that are known. -/
def relabel : List Nat → List Nat → List Nat
  | _, [] => []
  | known, label :: labels =>
    if label ∈ known then known.idxOf label :: relabel known labels
    else known.length :: relabel (known ++ [label]) labels

/-- Cut a dendrogram of so many points at a threshold: the label of each point. -/
def cutTree (steps : List (DendrogramStep S)) (n : Nat) (threshold : S) : List Nat :=
  relabel [] (mergeLabels threshold steps n (List.range n) (List.range n))

end Cut

section Clusters

variable {S : Type} [CommRing S] [LinearOrder S]

/-- The dissimilarity of two entries of a group, by their places in it. -/
def dissimilarity (embeddings : List (List S)) (indices : List Nat) (a b : Nat) : S :=
  1 - similarity embeddings (indices.getD a 0) (indices.getD b 0)

/-- The dissimilarities of every two of so many points, row by row. -/
def condensed (dissimilarity : Nat → Nat → S) (m : Nat) : List S :=
  (List.range m).flatMap fun a => (List.range' (a + 1) (m - (a + 1))).map (dissimilarity a)

/-- The clusters of a group of entries, in order of first appearance. -/
def clusterWithin (linkage : List S → Nat → List (DendrogramStep S)) (embeddings : List (List S))
    (indices : List Nat) (threshold : S) : List (List Nat) :=
  let m := indices.length
  if m < 2 then indices.map fun index => [index]
  else
    let dendrogram := linkage (condensed (dissimilarity embeddings indices) m) m
    let labels := cutTree dendrogram m (1 - threshold)
    ((labels.zip indices).foldl (fun clusters item => addToGroup item.1 item.2 clusters) []).map
      (·.2)

end Clusters

/-! ### Complete linkage -/

section Linkage

variable {S : Type} [LinearOrder S]

/-- How far the points under two nodes lie apart. -/
def between (dissimilarity : Nat → Nat → S) (n : Nat) (node : Nat → Nat) (one other : Nat) :
    Set S :=
  {apart | ∃ p < n, ∃ q < n, node p = one ∧ node q = other ∧ dissimilarity p q = apart}

/-- The steps of complete linkage, given the node that each point lies under: each merges, under
the next number, two nodes whose farthest points are the closest, until one node is left. -/
inductive CompleteLinkage (dissimilarity : Nat → Nat → S) (n : Nat) :
    Nat → (Nat → Nat) → List (DendrogramStep S) → Prop
  | done {next : Nat} {node : Nat → Nat} (single : ∀ p < n, ∀ q < n, node p = node q) :
    CompleteLinkage dissimilarity n next node []
  | merge {next : Nat} {node : Nat → Nat} {step : DendrogramStep S}
    {steps : List (DendrogramStep S)} (apart : step.cluster1 ≠ step.cluster2)
    (farthest : IsGreatest (between dissimilarity n node step.cluster1 step.cluster2)
      step.dissimilarity)
    (closest : ∀ p < n, ∀ q < n, node p ≠ node q →
      step.dissimilarity ∈ lowerBounds (upperBounds (between dissimilarity n node (node p) (node q))))
    (rest : CompleteLinkage dissimilarity n (next + 1)
      (fun p => if node p = step.cluster1 ∨ node p = step.cluster2 then next else node p) steps) :
    CompleteLinkage dissimilarity n next node (step :: steps)

/-- Points under one node are within the threshold, and of those under two not all. -/
structure IsCut (dissimilarity : Nat → Nat → S) (n : Nat) (threshold : S) (node : Nat → Nat) :
    Prop where
  close : ∀ p < n, ∀ q < n, node p = node q → p ≠ q → dissimilarity p q ≤ threshold
  apart : ∀ p < n, ∀ q < n, node p ≠ node q → ∃ p' < n, ∃ q' < n,
    node p' = node p ∧ node q' = node q ∧ threshold < dissimilarity p' q'

variable {dissimilarity : Nat → Nat → S} {n next : Nat} {node : Nat → Nat} {threshold : S}
  {steps : List (DendrogramStep S)}

/-- The labels stop at a cut. -/
theorem CompleteLinkage.exists_cut (complete : CompleteLinkage dissimilarity n next node steps)
    (symmetric : ∀ p q, dissimilarity p q = dissimilarity q p) (below : ∀ p < n, node p < next)
    (close : ∀ p < n, ∀ q < n, node p = node q → p ≠ q → dissimilarity p q ≤ threshold) :
    ∃ final, mergeLabels threshold steps next (List.range next) ((List.range n).map node) =
        (List.range n).map final ∧ IsCut dissimilarity n threshold final := by
  induction complete with
  | done single =>
    exact ⟨_, rfl, close, fun p within q within' differ => absurd (single p within q within') differ⟩
  | @merge next node step steps _ farthest closest _ ih =>
    rw [mergeLabels]
    by_cases past : threshold < step.dissimilarity
    · -- every two nodes are at least as far apart as those the step would merge
      rw [if_pos past]
      refine ⟨node, rfl, close, fun p within q within' differ => ?_⟩
      by_contra joined
      push Not at joined
      refine past.not_ge (closest p within q within' differ ?_)
      rintro _ ⟨p', within, q', within', one, other, rfl⟩
      exact joined p' within q' within' one other
    · have known : ∀ {cluster}, (∃ p < n, node p = cluster) →
          (List.range next).getD cluster 0 = cluster := by
        rintro _ ⟨p, within, rfl⟩
        simp [below p within]
      obtain ⟨p, within, q, within', one, other, _⟩ := farthest.1
      rw [if_neg past, known ⟨p, within, one⟩, known ⟨q, within', other⟩, ← List.range_succ]
      simp only [List.map_map]
      refine ih (fun p within => ?_) fun p within q within' same differ => ?_
      · dsimp only
        split
        · exact Nat.lt_succ_self _
        · exact Nat.lt_succ_of_lt (below p within)
      · have merged : ∀ {p q}, p < n → q < n → node p = step.cluster1 → node q = step.cluster2 →
            dissimilarity p q ≤ threshold := fun within within' one other =>
          (farthest.2 ⟨_, within, _, within', one, other, rfl⟩).trans (not_lt.mp past)
        have before := below p within
        have before' := below q within'
        dsimp only at same
        split at same <;> split at same
        · rename_i here there
          rcases here with one | one <;> rcases there with other | other
          · exact close p within q within' (one.trans other.symm) differ
          · exact merged within within' one other
          · exact symmetric p q ▸ merged within' within other one
          · exact close p within q within' (one.trans other.symm) differ
        · omega
        · omega
        · exact close p within q within' same differ

end Linkage

/-! ### The clusters -/

/-- Numbering labels gives each its place among the distinct ones. -/
theorem exists_relabel (known labels : List Nat) : ∃ keys, known <+: keys ∧ labels ⊆ keys ∧
    relabel known labels = labels.map fun label => keys.idxOf label := by
  induction labels generalizing known with
  | nil => exact ⟨known, List.prefix_rfl, List.nil_subset _, rfl⟩
  | cons label labels ih =>
    have first : ∀ {more keys : List Nat}, more <+: keys → label ∈ more →
        keys.idxOf label = more.idxOf label := by
      rintro more _ ⟨rest, rfl⟩ member
      exact List.idxOf_append_of_mem member
    rw [relabel]
    split
    · rename_i old
      obtain ⟨keys, grown, all, numbered⟩ := ih known
      refine ⟨keys, grown, List.cons_subset.mpr ⟨grown.subset old, all⟩, ?_⟩
      rw [List.map_cons, numbered, first grown old]
    · rename_i new
      obtain ⟨keys, grown, all, numbered⟩ := ih (known ++ [label])
      refine ⟨keys, (List.prefix_append _ _).trans grown,
        List.cons_subset.mpr ⟨grown.subset List.mem_concat_self, all⟩, ?_⟩
      rw [List.map_cons, numbered, first grown List.mem_concat_self, List.idxOf_append_of_notMem new]
      simp

/-- Equal labels are numbered alike, and others apart. -/
theorem exists_cutTree {S : Type} [LinearOrder S] {steps : List (DendrogramStep S)} {n : Nat}
    {threshold : S} {node : Nat → Nat}
    (merged : mergeLabels threshold steps n (List.range n) (List.range n) =
      (List.range n).map node) :
    ∃ label : Nat → Nat, cutTree steps n threshold = (List.range n).map label ∧
      ∀ p < n, ∀ q < n, label p = label q ↔ node p = node q := by
  obtain ⟨keys, _, all, numbered⟩ := exists_relabel [] ((List.range n).map node)
  refine ⟨fun p => keys.idxOf (node p), ?_, fun p within q within' => ?_⟩
  · rw [cutTree, merged, numbered, List.map_map]
    rfl
  · exact List.idxOf_inj (all (List.mem_map_of_mem (List.mem_range.mpr within)))

/-- The indices at the places of a label. -/
def labelled (label : Nat → Nat) (indices : List Nat) (key : Nat) : List Nat :=
  ((List.range indices.length).filter fun p => label p = key).map fun p => indices.getD p 0

section Labelled

variable {label : Nat → Nat} {indices : List Nat} {key index : Nat}

theorem mem_labelled : index ∈ labelled label indices key ↔
    ∃ p < indices.length, label p = key ∧ indices.getD p 0 = index := by
  simp [labelled, and_assoc]

theorem map_getD_range (indices : List Nat) :
    (List.range indices.length).map (fun p => indices.getD p 0) = indices := by
  refine List.ext_getElem (by simp) fun p _ within => ?_
  simp [List.getElem?_eq_getElem within]

theorem labelled_sublist : (labelled label indices key).Sublist indices := by
  conv => rhs; rw [← map_getD_range indices]
  exact List.filter_sublist.map _

/-- Grouped by their labels, indices fall into what has one label. -/
theorem exists_groups (label : Nat → Nat) (indices : List Nat) :
    ∃ keys : List Nat, keys.Nodup ∧ (∀ key ∈ keys, ∃ p < indices.length, label p = key) ∧
      (keys.map (labelled label indices)).flatten.Perm indices ∧
      ((((List.range indices.length).map label).zip indices).foldl
        (fun clusters item => addToGroup item.1 item.2 clusters) []).map (·.2) =
          keys.map (labelled label indices) := by
  have items : ((List.range indices.length).map label).zip indices =
      (List.range indices.length).map fun p => (label p, indices.getD p 0) := by
    rw [← List.zip_map', map_getD_range]
  obtain ⟨keys, once, listed, filed⟩ :=
    foldl_addToGroup (((List.range indices.length).map label).zip indices)
  have all := foldl_addToGroup_perm (((List.range indices.length).map label).zip indices)
  have groups : (keys.map fun key => (key, ((((List.range indices.length).map label).zip
      indices).filter fun item => item.1 = key).map Prod.snd)).map (·.2) =
        keys.map (labelled label indices) := by
    rw [items, List.map_map]
    refine List.map_congr_left fun key _ => ?_
    simp only [Function.comp_apply, labelled, List.filter_map, List.map_map]
    rfl
  refine ⟨keys, once, fun key member => ?_, ?_, ?_⟩
  · rw [listed, items] at member
    simpa using member
  · rw [filed, List.flatMap_def, groups, items, List.map_map] at all
    exact all.trans (.of_eq (map_getD_range indices))
  · rw [filed, groups]

end Labelled

/-- A partition of indices into clusters that keep their order, of which every two members are
similar enough, and of two clusters not all. -/
structure CompleteCut {S : Type} [LinearOrder S] (similarity : Nat → Nat → S) (threshold : S)
    (indices : List Nat) (clusters : List (List Nat)) : Prop where
  once : clusters.flatten.Perm indices ∧ clusters.flatten.Nodup
  ordered : ∀ cluster ∈ clusters, cluster.Sublist indices ∧ cluster ≠ []
  alike : ∀ cluster ∈ clusters, ∀ one ∈ cluster, ∀ other ∈ cluster, one ≠ other →
    threshold ≤ similarity one other
  apart : clusters.Pairwise fun cluster others =>
    ∃ one ∈ cluster, ∃ other ∈ others, similarity one other < threshold

theorem similarity_comm {S : Type} [CommRing S] (embeddings : List (List S)) (one other : Nat) :
    similarity embeddings one other = similarity embeddings other one := by
  rw [similarity, similarity, dotProduct, dotProduct, List.zipWith_comm_of_comm mul_comm]

/-- The clusters of a group are a complete cut of it, if its dendrogram is one of complete
linkage. -/
theorem clusterWithin_completeCut {S : Type} [CommRing S] [LinearOrder S] [IsOrderedAddMonoid S]
    (linkage : List S → Nat → List (DendrogramStep S)) (embeddings : List (List S))
    (indices : List Nat) (threshold : S) (distinct : indices.Nodup)
    (complete : 2 ≤ indices.length →
      CompleteLinkage (dissimilarity embeddings indices) indices.length indices.length id
        (linkage (condensed (dissimilarity embeddings indices) indices.length) indices.length)) :
    CompleteCut (similarity embeddings) threshold indices
      (clusterWithin linkage embeddings indices threshold) := by
  rw [clusterWithin]
  dsimp only
  split
  · rename_i few
    match indices, few with
    | [], _ => exact ⟨⟨.refl _, .nil⟩, nofun, nofun, .nil⟩
    | [index], _ => exact ⟨⟨.refl _, by simp⟩, by simp, by simp, by simp⟩
  · rename_i several
    obtain ⟨node, merged, close, apart⟩ := @CompleteLinkage.exists_cut _ _ _ _ _ _ (1 - threshold) _
      (complete (not_lt.mp several)) (fun p q => by rw [dissimilarity, dissimilarity, similarity_comm])
      (fun _ within => within) (fun p _ q _ same differ => absurd same differ)
    rw [List.map_id] at merged
    obtain ⟨label, cut, labels⟩ := exists_cutTree merged
    obtain ⟨keys, once, used, all, groups⟩ := exists_groups label indices
    have same : ∀ p < indices.length, ∀ q < indices.length, label p = label q → p ≠ q →
        threshold ≤ similarity embeddings (indices.getD p 0) (indices.getD q 0) :=
      fun p within q within' same differ =>
        (sub_le_sub_iff_left 1).mp (close p within q within' ((labels p within q within').mp same)
          differ)
    rw [cut, groups]
    refine ⟨⟨all, all.nodup_iff.mpr distinct⟩, fun cluster member => ?_, fun cluster member => ?_, ?_⟩
    · obtain ⟨key, listed, rfl⟩ := List.mem_map.mp member
      obtain ⟨p, within, here⟩ := used key listed
      exact ⟨labelled_sublist, List.ne_nil_of_mem (mem_labelled.mpr ⟨p, within, here, rfl⟩)⟩
    · obtain ⟨key, listed, rfl⟩ := List.mem_map.mp member
      intro one inside other inside' differ
      obtain ⟨p, within, here, rfl⟩ := mem_labelled.mp inside
      obtain ⟨q, within', there, rfl⟩ := mem_labelled.mp inside'
      exact same p within q within' (here.trans there.symm) fun equal => differ (equal ▸ rfl)
    · refine List.pairwise_map.mpr (once.imp_of_mem fun listed listed' differ => ?_)
      obtain ⟨p, within, rfl⟩ := used _ listed
      obtain ⟨q, within', rfl⟩ := used _ listed'
      obtain ⟨p', inside, q', inside', here, there, past⟩ := apart p within q within'
        fun joined => differ ((labels p within q within').mpr joined)
      exact ⟨_, mem_labelled.mpr ⟨p', inside, (labels p' inside p within).mpr here, rfl⟩, _,
        mem_labelled.mpr ⟨q', inside', (labels q' inside' q within').mpr there, rfl⟩,
        (sub_lt_sub_iff_left 1).mp past⟩

/-! Three entries, the last two of which say the same. -/

namespace Restated

def embeddings : List (List Int) := [[1, 0], [1, 0], [0, 1]]

def indices : List Nat := [2, 0, 1]

/-- The dendrogram of the three. -/
def linkage : List Int → Nat → List (DendrogramStep Int) := fun _ _ => [⟨1, 2, 0⟩, ⟨0, 3, 1⟩]

theorem linkage_complete : CompleteLinkage (dissimilarity embeddings indices) 3 3 id
    (linkage (condensed (dissimilarity embeddings indices) 3) 3) := by
  have far : ∀ p < 3, ∀ q < 3, p ≠ q → 0 ≤ dissimilarity embeddings indices p q := by decide
  have near : ∀ p < 3, ∀ q < 3, dissimilarity embeddings indices p q ≤ 1 := by decide
  have first : ∀ p < 3, ∀ q < 3, (if p = 1 ∨ p = 2 then 3 else p) ≠ (if q = 1 ∨ q = 2 then 3 else q) →
      1 ≤ dissimilarity embeddings indices p q := by decide
  refine .merge (by decide) ⟨⟨1, by decide, 2, by decide, rfl, rfl, by decide⟩, ?_⟩ ?_
    (.merge (by decide) ⟨⟨0, by decide, 1, by decide, rfl, rfl, by decide⟩, ?_⟩ ?_ (.done (by decide)))
  · rintro _ ⟨_, _, _, _, rfl, rfl, rfl⟩
    decide
  · intro p within q within' differ bound above
    exact (far p within q within' differ).trans (above ⟨p, within, q, within', rfl, rfl, rfl⟩)
  · rintro _ ⟨p, within, q, within', _, _, rfl⟩
    exact near p within q within'
  · intro p within q within' differ bound above
    exact (first p within q within' differ).trans (above ⟨p, within, q, within', rfl, rfl, rfl⟩)

/-- At the threshold of their similarity the last two are one cluster. -/
theorem clusterWithin_completeCut_restated :
    CompleteCut (similarity embeddings) 1 indices [[2], [0, 1]] :=
  clusterWithin_completeCut linkage embeddings indices 1 (by decide) fun _ => linkage_complete

end Restated

end Zuihitsu.Consolidation
