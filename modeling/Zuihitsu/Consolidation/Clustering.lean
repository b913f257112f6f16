/-
# Which entries a consolidation sweep puts together

The posture groups that synthesis runs within, and the cross-level plan of
absorptions. How similar two entries are is the embedding model's answer, so a
score is any two indices' value in an order; a plan never looks at who told an
entry. Embeddings are normalized vectors of numbers: their products are compared
in a linear order, over any arithmetic.
-/

import Zuihitsu.Library.Grouping
import Zuihitsu.Block.Writes

namespace Zuihitsu.Consolidation

open Zuihitsu.Core Zuihitsu.Graph Zuihitsu.Library Zuihitsu.MemoryBlock

/-! ### Tier 1: posture groups -/

/-- The posture that fixes an entry's group. -/
inductive PostureKey where
  | «public»
  | attributed
  | privateToTeller (teller : Teller)
  | exclude (teller : Teller) (excluded : IdSet)
  deriving DecidableEq

/-- The posture key of an entry. -/
def postureKey (entry : EntryView) : PostureKey :=
  match entry.visibility with
  | .public => .public
  | .attributed => .attributed
  | .privateToTeller => .privateToTeller entry.toldBy
  | .exclude excluded => .exclude entry.toldBy excluded

/-- File an entry under its posture, unless a connector maintains it. -/
def groupEntry (groups : List (PostureKey × List Nat)) (item : EntryView × Nat) :
    List (PostureKey × List Nat) :=
  if item.1.origin.isConnector then groups else addToGroup (postureKey item.1) item.2 groups

/-- The synthesis groups of a class's live entries, as their indices. -/
def tier1Groups (entries : List EntryView) : List (List Nat) :=
  (entries.zipIdx.foldl groupEntry []).map (·.2)

/-! ### Tier 2: absorptions -/

/-- Whether a source may be retired into a target. -/
def isAbsorbable : Visibility → Visibility → Bool
  | .privateToTeller, .public | .privateToTeller, .attributed => true
  | .exclude _, .public | .exclude _, .attributed => true
  | .attributed, .public => true
  | _, _ => false

theorem isAllAudience_of_isAbsorbable {source target : Visibility}
    (absorbable : isAbsorbable source target = true) : isAllAudience target = true := by
  cases source <;> cases target <;> first | rfl | cases absorbable

section Plan

variable {S : Type} [LT S] [DecidableLT S]

/-- The best target found for a source so far. -/
structure BestTarget (S : Type) where
  index : Nat
  isPublic : Bool
  score : S

/-- Whether a candidate is more public than the best one, or as public and more similar. -/
def BestTarget.outscoredBy (best : BestTarget S) (isPublic : Bool) (score : S) : Bool :=
  (isPublic && !best.isPublic) || (isPublic = best.isPublic && decide (best.score < score))

/-- Consider an entry as the target of a source. -/
def considerTarget (score : Nat → Nat → S) (threshold : S) (source : EntryView × Nat)
    (best : Option (BestTarget S)) (candidate : EntryView × Nat) : Option (BestTarget S) :=
  if candidate.2 = source.2 ∨ candidate.1.origin.isConnector = true ∨
      isAbsorbable source.1.visibility candidate.1.visibility = false then best
  else
    let similarity := score source.2 candidate.2
    if similarity < threshold then best
    else
      let isPublic := decide (candidate.1.visibility = .public)
      let found : BestTarget S := ⟨candidate.2, isPublic, similarity⟩
      match best with
      | none => some found
      | some current => if current.outscoredBy isPublic similarity then some found else best

/-- The target of a source among the entries. -/
def bestTarget (score : Nat → Nat → S) (threshold : S) (entries : List EntryView)
    (source : EntryView × Nat) : Option (BestTarget S) :=
  entries.zipIdx.foldl (considerTarget score threshold source) none

/-- File a source under its target, if it may be absorbed and has one. -/
def planSource (score : Nat → Nat → S) (threshold : S) (entries : List EntryView)
    (byTarget : List (Nat × List EntryId)) (source : EntryView × Nat) :
    List (Nat × List EntryId) :=
  if source.1.origin.isConnector = true ∨ source.1.visibility = .public then byTarget
  else
    match bestTarget score threshold entries source with
    | some best => addToGroup best.index source.1.entryId byTarget
    | none => byTarget

/-- The cross-level plan before the targets that are absorbed themselves are dropped. -/
def absorptionsByTarget (entries : List EntryView) (score : Nat → Nat → S) (threshold : S) :
    List (Nat × List EntryId) :=
  entries.zipIdx.foldl (planSource score threshold entries) []

/-- The absorptions of a class's live entries: each target with the sources it takes. -/
def tier2Absorptions (entries : List EntryView) (score : Nat → Nat → S) (threshold : S) :
    List (EntryId × List EntryId) :=
  let byTarget := absorptionsByTarget entries score threshold
  let absorbed := byTarget.flatMap (·.2)
  byTarget.filterMap fun (target, sources) =>
    entries[target]?.bind fun entry =>
      if entry.entryId ∈ absorbed then none else some (entry.entryId, sources)

variable {score : Nat → Nat → S} {threshold : S} {entries : List EntryView}

/-- The entry at an index is one that the scan may pick for a source. -/
structure Qualifies (entries : List EntryView) (score : Nat → Nat → S) (threshold : S)
    (source : EntryView × Nat) (index : Nat) (target : EntryView) : Prop where
  listed : entries[index]? = some target
  recorded : target.origin.isConnector = false
  absorbable : isAbsorbable source.1.visibility target.visibility = true
  similar : ¬ score source.2 index < threshold

/-- What a scan has found, if anything, is one it may pick. -/
def Found (entries : List EntryView) (score : Nat → Nat → S) (threshold : S)
    (source : EntryView × Nat) (best : Option (BestTarget S)) : Prop :=
  ∀ found ∈ best, ∃ target, Qualifies entries score threshold source found.index target

theorem considerTarget_found {source candidate : EntryView × Nat} {best : Option (BestTarget S)}
    (listed : entries[candidate.2]? = some candidate.1)
    (known : Found entries score threshold source best) :
    Found entries score threshold source (considerTarget score threshold source best candidate) := by
  unfold considerTarget
  split
  · exact known
  · rename_i eligible
    simp only [not_or, Bool.not_eq_true, Bool.not_eq_false] at eligible
    dsimp only
    split
    · exact known
    · rename_i similar
      have itself : ∀ found ∈ some (BestTarget.mk candidate.2
          (decide (candidate.1.visibility = .public)) (score source.2 candidate.2)),
          ∃ target, Qualifies entries score threshold source found.index target := by
        intro found picked
        cases picked
        exact ⟨candidate.1, listed, eligible.2.1, eligible.2.2, similar⟩
      split
      · exact itself
      · split
        · exact itself
        · exact known

theorem bestTarget_found (source : EntryView × Nat) :
    Found entries score threshold source (bestTarget score threshold entries source) := by
  refine List.foldlRecOn entries.zipIdx (considerTarget score threshold source)
    (motive := Found entries score threshold source) (by simp [Found]) ?_
  intro best known candidate member
  exact considerTarget_found (List.mem_zipIdx_iff_getElem?.mp member) known

/-- An entry may be retired into the one at an index. -/
structure Planned (entries : List EntryView) (score : Nat → Nat → S) (threshold : S)
    (index : Nat) (source : EntryId) (view : EntryView) (position : Nat) (target : EntryView) :
    Prop extends Qualifies entries score threshold (view, position) index target where
  source_listed : entries[position]? = some view
  source_named : view.entryId = source
  source_recorded : view.origin.isConnector = false
  narrower : view.visibility ≠ .public

theorem absorptionsByTarget_planned {group : Nat × List EntryId}
    (member : group ∈ absorptionsByTarget entries score threshold) {source : EntryId}
    (taken : source ∈ group.2) :
    ∃ view position target, Planned entries score threshold group.1 source view position target := by
  refine List.foldlRecOn entries.zipIdx (planSource score threshold entries)
    (motive := fun byTarget => ∀ group ∈ byTarget, ∀ source ∈ group.2, ∃ view position target,
      Planned entries score threshold group.1 source view position target)
    (by simp) ?_ group member source taken
  intro byTarget known item listed
  unfold planSource
  split
  · exact known
  · rename_i eligible
    simp only [not_or, Bool.not_eq_true] at eligible
    split
    · rename_i best found
      obtain ⟨target, qualifies⟩ := bestTarget_found item best found
      refine addToGroup_keeps (fun index source => ∃ view position target,
        Planned entries score threshold index source view position target) known ?_
      exact ⟨item.1, item.2, target, qualifies, List.mem_zipIdx_iff_getElem?.mp listed, rfl,
        eligible.1, eligible.2⟩
    · exact known

theorem tier2Absorptions_spec {replacement : EntryId} {sources : List EntryId}
    (planned : (replacement, sources) ∈ tier2Absorptions entries score threshold) :
    replacement ∉ sources ∧
      ∃ target ∈ entries, target.entryId = replacement ∧
        ∀ source ∈ sources, ∃ view ∈ entries, view.entryId = source ∧
          isAbsorbable view.visibility target.visibility = true := by
  obtain ⟨⟨index, taken⟩, group, kept⟩ := List.mem_filterMap.mp planned
  obtain ⟨target, found, kept⟩ := Option.bind_eq_some_iff.mp kept
  split at kept
  · cases kept
  · rename_i standing
    cases kept
    refine ⟨fun inside => standing (List.mem_flatMap.mpr ⟨_, group, inside⟩), target,
      List.mem_of_getElem? found, rfl, fun source member => ?_⟩
    obtain ⟨view, position, other, plan⟩ := absorptionsByTarget_planned group member
    cases found.symm.trans plan.listed
    exact ⟨view, List.mem_of_getElem? plan.source_listed, plan.source_named, plan.absorbable⟩

/-! ### One hop -/

variable (score threshold entries) in
private theorem planSource_sources (byTarget : List (Nat × List EntryId))
    (item : EntryView × Nat) :
    ∃ taken : List EntryId, taken.Sublist [item.1.entryId] ∧
      ((planSource score threshold entries byTarget item).flatMap (·.2)).Perm
        (byTarget.flatMap (·.2) ++ taken) := by
  have untouched : ∃ taken : List EntryId, taken.Sublist [item.1.entryId] ∧
      (byTarget.flatMap (·.2)).Perm (byTarget.flatMap (·.2) ++ taken) :=
    ⟨[], List.nil_sublist _, by simp⟩
  unfold planSource
  split
  · exact untouched
  · split
    · exact ⟨_, List.Sublist.refl _, addToGroup_flatMap_perm⟩
    · exact untouched

variable (score threshold entries) in
private theorem foldl_planSource_sources (items : List (EntryView × Nat))
    (byTarget : List (Nat × List EntryId)) :
    ∃ taken : List EntryId, taken.Sublist (items.map (·.1.entryId)) ∧
      ((items.foldl (planSource score threshold entries) byTarget).flatMap (·.2)).Perm
        (byTarget.flatMap (·.2) ++ taken) := by
  induction items generalizing byTarget with
  | nil => exact ⟨[], List.Sublist.refl _, by simp⟩
  | cons item rest ih =>
    obtain ⟨first, fromItem, filed⟩ := planSource_sources score threshold entries byTarget item
    obtain ⟨later, fromRest, folded⟩ := ih (planSource score threshold entries byTarget item)
    refine ⟨first ++ later, fromItem.append fromRest, folded.trans ?_⟩
    rw [← List.append_assoc]
    exact filed.append_right later

variable (score threshold entries) in
theorem absorptionsByTarget_keys_nodup :
    ((absorptionsByTarget entries score threshold).map Prod.fst).Nodup := by
  refine List.foldlRecOn entries.zipIdx (planSource score threshold entries)
    (motive := fun byTarget => (byTarget.map Prod.fst).Nodup) ?_ ?_
  · exact List.nodup_nil
  · intro byTarget once item _
    unfold planSource
    split
    · exact once
    · split
      · exact addToGroup_keys_nodup once
      · exact once

end Plan

/-- Dot product of two embeddings. -/
def dotProduct {S : Type} [Zero S] [Add S] [Mul S] (first second : List S) : S :=
  (List.zipWith (· * ·) first second).foldl (· + ·) 0

/-- The similarity of two entries by their embeddings. -/
def similarity {S : Type} [Zero S] [Add S] [Mul S] (embeddings : List (List S))
    (first second : Nat) : S :=
  dotProduct (embeddings.getD first []) (embeddings.getD second [])

/-- A plan retires each source once, into a wider entry that stays, and keeps off
what a connector maintains. -/
structure OneHop {S : Type} [LE S] (entries : List EntryView) (score : Nat → Nat → S)
    (threshold : S) (plan : List (EntryId × List EntryId)) : Prop where
  once : (plan.flatMap (·.2)).Nodup
  grouped : (plan.map (·.1)).Nodup
  apart : ∀ group ∈ plan, ∀ other ∈ plan, group.1 ∉ other.2
  sources : ∀ view ∈ entries, view.entryId ∈ plan.flatMap (·.2) →
    view.visibility ≠ .public ∧ view.origin.isConnector = false
  replacements : ∀ view ∈ entries, view.entryId ∈ plan.map (·.1) →
    isAllAudience view.visibility = true ∧ view.origin.isConnector = false
  paired : ∀ group ∈ plan, ∀ source ∈ group.2, ∃ position index view target,
    entries[position]? = some view ∧ view.entryId = source ∧
    entries[index]? = some target ∧ target.entryId = group.1 ∧
    isAbsorbable view.visibility target.visibility = true ∧ threshold ≤ score position index

section OneHop

/-- The two live entries of a class: a confidence, and its public near-duplicate. -/
private def doubled : List EntryView :=
  [⟨⟨1⟩, ⟨0⟩, none, none, false, "Ada sails", .participant ⟨7⟩, none, .privateToTeller, none, none,
      .recorded, []⟩,
    ⟨⟨2⟩, ⟨0⟩, none, none, false, "Ada sails a boat", .agent, none, .public, none, none, .recorded,
      []⟩]

private def doubledEmbeddings : List (List Int) := [[3, 4], [4, 3]]

end OneHop

end Zuihitsu.Consolidation
