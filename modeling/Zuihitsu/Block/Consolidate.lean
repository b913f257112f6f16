/-
# Consolidation writes

The two ways the maintenance pass retires near-duplicates: a cluster of one
level replaced by a synthesized entry that carries the sources' tellers, and
narrower copies folded into a wider entry that is there already, each as an
endorsement of it. The check of a carried endorsement's width is a debug
assertion in the program, so it refuses nothing here.
-/

import Mathlib.Data.List.Induction
import Zuihitsu.Block.Attest

namespace Zuihitsu

open Zuihitsu.Core Zuihitsu.Graph Zuihitsu.Library

namespace MemoryBlock

/-! ### Live entries and teller classes -/

section Classes

variable {graph : Graph} {block : MemoryBlock} {id : MemoryId}

/-- A teller with its identity class in place of itself. -/
def tellerClass (graph : Graph) : Teller → Teller
  | .participant id => .participant (graph.classOf id)
  | teller => teller

theorem sameTellerClass_iff {first second : Teller} :
    sameTellerClass graph first second = true ↔ tellerClass graph first = tellerClass graph second := by
  cases first <;> cases second <;> simp only [sameTellerClass, tellerClass, reduceCtorEq]
  rename_i first second
  simp only [sameParticipantClass, Bool.or_eq_true, decide_eq_true_eq, Teller.participant.injEq]
  constructor
  · rintro (rfl | same)
    · rfl
    · exact same
  · exact .inr

theorem liveEntry_ok {entry : EntryId} {live : LiveEntry} :
    liveEntry graph block id entry = .ok live ↔
      (liveClassEntries graph block id).find? (·.entryId = entry) = some live := by
  unfold liveEntry
  cases (liveClassEntries graph block id).find? (·.entryId = entry) with
  | none | some => simp

theorem mem_of_liveEntry {entry : EntryId} {live : LiveEntry}
    (found : liveEntry graph block id entry = .ok live) :
    live ∈ liveClassEntries graph block id ∧ live.entryId = entry := by
  have listed := liveEntry_ok.mp found
  exact ⟨List.mem_of_find?_eq_some listed, by simpa using List.find?_some listed⟩

end Classes

/-! ### Tier 1: a synthesized replacement -/

/-- What the sources seen so far share: their level, and the first one's teller,
with whether the others have it too. -/
structure Shared where
  visibility : Visibility
  teller : Teller
  uniform : Bool

/-- Check one source of a consolidation against what the earlier ones share. -/
def checkSource (graph : Graph) (block : MemoryBlock) (id : MemoryId) (shared : Option Shared)
    (source : EntryId) : Except MemoryError (Option Shared) := do
  let entry ← liveEntry graph block id source
  guardForeignConfidenceSupersede graph block entry
  match shared with
  | none => return some ⟨entry.visibility, entry.toldBy, true⟩
  | some shared =>
    refuseIf (shared.visibility ≠ entry.visibility)
      (.consolidationInvariant "a cluster's sources must share one visibility level")
    return some { shared with uniform := shared.uniform && entry.toldBy = shared.teller }

/-- One distinct source teller, reduced to its earliest-asserted source. -/
structure SourceTeller where
  teller : Teller
  toldIn : Option ConversationRef
  assertedAt : Timestamp
  sourceEntry : EntryId
  deriving DecidableEq

/-- A source as the account of its teller. -/
def SourceTeller.of (entry : LiveEntry) : SourceTeller :=
  ⟨entry.toldBy, entry.toldIn, entry.assertedAt, entry.entryId⟩

/-- Place a source among the accounts: with its teller's class, where the earlier
assertion stands for it, or as a new account. -/
def placeSource (graph : Graph) (entry : LiveEntry) : List SourceTeller → List SourceTeller
  | [] => [.of entry]
  | group :: rest =>
    if sameTellerClass graph group.teller entry.toldBy then
      (if entry.assertedAt.millis < group.assertedAt.millis then .of entry else group) :: rest
    else group :: placeSource graph entry rest

/-- The live entries a consolidation's sources name. -/
def sourceEntries (graph : Graph) (block : MemoryBlock) (id : MemoryId) (sources : List EntryId) :
    List LiveEntry :=
  sources.filterMap fun source => (liveClassEntries graph block id).find? (·.entryId = source)

/-- The distinct source tellers, less the one the replacement is founded on. -/
def distinctSourceTellers (graph : Graph) (founding : Teller) (entries : List LiveEntry) :
    List SourceTeller :=
  entries.foldl
    (fun groups entry =>
      if sameTellerClass graph entry.toldBy founding then groups
      else placeSource graph entry groups)
    []

section Tellers

variable {graph : Graph} {founding : Teller} {entry : LiveEntry} {groups : List SourceTeller}

theorem mem_placeSource {group : SourceTeller} (member : group ∈ placeSource graph entry groups) :
    group ∈ groups ∨ group = .of entry := by
  induction groups with
  | nil => exact .inr (List.mem_singleton.mp member)
  | cons first rest ih =>
    unfold placeSource at member
    split at member
    · rcases List.mem_cons.mp member with same | later
      · split at same
        · exact .inr same
        · exact .inl (same ▸ List.mem_cons_self)
      · exact .inl (List.mem_cons_of_mem _ later)
    · rcases List.mem_cons.mp member with same | later
      · exact .inl (same ▸ List.mem_cons_self)
      · exact (ih later).imp_left (List.mem_cons_of_mem _)

theorem classes_placeSource (teller : Teller) :
    (∃ group ∈ placeSource graph entry groups, sameTellerClass graph group.teller teller = true) ↔
      (∃ group ∈ groups, sameTellerClass graph group.teller teller = true) ∨
        sameTellerClass graph entry.toldBy teller = true := by
  induction groups with
  | nil => simp [placeSource, SourceTeller.of]
  | cons first rest ih =>
    unfold placeSource
    split
    · rename_i same
      -- the head keeps its class, whichever assertion stands for it
      have kept : ∀ head : SourceTeller, head = .of entry ∨ head = first →
          (sameTellerClass graph head.teller teller = true ↔
            sameTellerClass graph first.teller teller = true) := by
        rintro head (rfl | rfl)
        · rw [sameTellerClass_iff, sameTellerClass_iff, sameTellerClass_iff.mp same]
          rfl
        · rfl
      have headKept := kept (if entry.assertedAt.millis < first.assertedAt.millis then .of entry
        else first) (by split <;> simp)
      rw [sameTellerClass_iff] at same
      simp only [List.exists_mem_cons_iff, headKept]
      have told : sameTellerClass graph entry.toldBy teller = true ↔
          sameTellerClass graph first.teller teller = true := by
        rw [sameTellerClass_iff, sameTellerClass_iff, same]
      rw [told]
      exact (or_iff_left_of_imp Or.inl).symm
    · simp only [List.exists_mem_cons_iff, ih]
      exact or_assoc.symm

theorem mem_distinctSourceTellers {entries : List LiveEntry} {group : SourceTeller}
    (member : group ∈ distinctSourceTellers graph founding entries) :
    ∃ entry ∈ entries, group = .of entry ∧ sameTellerClass graph entry.toldBy founding = false := by
  unfold distinctSourceTellers at member
  induction entries using List.reverseRecOn with
  | nil => cases member
  | append_singleton rest last ih =>
    -- induction from the end, as the fold places the last source last
    rw [List.foldl_append, List.foldl_cons, List.foldl_nil] at member
    have lift : (∃ entry ∈ rest, group = .of entry ∧
          sameTellerClass graph entry.toldBy founding = false) →
        ∃ entry ∈ rest ++ [last], group = .of entry ∧
          sameTellerClass graph entry.toldBy founding = false := by
      rintro ⟨entry, inRest, account⟩
      exact ⟨entry, List.mem_append_left _ inRest, account⟩
    split at member
    · exact lift (ih member)
    · rename_i other
      rcases mem_placeSource member with earlier | rfl
      · exact lift (ih earlier)
      · exact ⟨last, by simp, rfl, by simpa using other⟩

theorem distinctSourceTellers_covers {entries : List LiveEntry} {source : LiveEntry}
    (member : source ∈ entries) :
    sameTellerClass graph source.toldBy founding = true ∨
      ∃ group ∈ distinctSourceTellers graph founding entries,
        sameTellerClass graph group.teller source.toldBy = true := by
  unfold distinctSourceTellers
  induction entries using List.reverseRecOn with
  | nil => cases member
  | append_singleton rest last ih =>
    rw [List.foldl_append, List.foldl_cons, List.foldl_nil]
    rcases List.mem_append.mp member with inRest | isLast
    · refine (ih inRest).imp_right fun covered => ?_
      split
      · exact covered
      · exact (classes_placeSource _).mpr (.inl covered)
    · obtain rfl := List.mem_singleton.mp isLast
      by_cases same : sameTellerClass graph source.toldBy founding = true
      · exact .inl same
      · rw [if_neg same]
        exact .inr ((classes_placeSource _).mpr (.inr (sameTellerClass_iff.mpr rfl)))

end Tellers

/-- The endorsement that keeps a source teller on the replacement. -/
def SourceTeller.attestation (id : MemoryId) (replacement : EntryId) (visibility : Visibility)
    (producedBy : Option ProducedBy) (group : SourceTeller) : EventPayload :=
  .entryAttested id replacement group.teller group.toldIn group.assertedAt visibility none
    (some group.sourceEntry) producedBy

/-- Replace live entries of one level with a synthesized one. -/
def consolidate (engine : Engine) (fresh : EntryId) (block : MemoryBlock) (id : MemoryId)
    (sources : List EntryId) (replacementText : String) (producedBy : Option ProducedBy) :
    Except MemoryError MemoryBlock := do
  let id := classWriteTarget engine.graph block id
  guardSelf block id
  guardOperator block id
  match ← sources.foldlM (checkSource engine.graph block id) none with
  | none => .error (.consolidationInvariant "a consolidation needs at least one source")
  | some shared =>
    refuseIf (shared.uniform = false ∧ isAllAudience shared.visibility = false)
      (.consolidationInvariant
        "a cross-teller merge is only permitted at an all-audience visibility level")
    -- several tellers are merged under the agent's name, and kept as attestations
    let toldBy := if shared.uniform then shared.teller else .agent
    let synthesized ← pushContent engine fresh block id replacementText toldBy shared.visibility none
    let groups := distinctSourceTellers engine.graph toldBy
      (sourceEntries engine.graph block id sources)
    return (synthesized.pushAll
      (groups.map (SourceTeller.attestation id fresh shared.visibility producedBy))).push
        (.entriesConsolidated id sources fresh producedBy)

section Checked

variable {engine : Engine} {graph : Graph} {block after : MemoryBlock} {id : MemoryId}
variable {sources : List EntryId}

theorem mem_sourceEntries {live : LiveEntry} :
    live ∈ sourceEntries graph block id sources ↔
      ∃ source ∈ sources, liveEntry graph block id source = .ok live := by
  simp [sourceEntries, liveEntry_ok]

private theorem checked_after {shared result : Shared}
    (checked : sources.foldlM (checkSource graph block id) (some shared) = .ok (some result)) :
    result.visibility = shared.visibility ∧ result.teller = shared.teller ∧
      (result.uniform = true → shared.uniform = true) ∧
      ∀ source ∈ sources, ∃ entry, liveEntry graph block id source = .ok entry ∧
        entry.visibility = result.visibility ∧
        (result.uniform = true → entry.toldBy = result.teller) := by
  induction sources generalizing shared with
  | nil =>
    cases checked
    simp
  | cons source rest ih =>
    simp only [List.foldlM_cons, checkSource, bind_eq_ok, exists_checked, exists_const, refuseIf_ok,
      not_not, pure, Except.pure, Except.ok.injEq] at checked
    obtain ⟨_, ⟨entry, live, _, level, rfl⟩, remaining⟩ := checked
    obtain ⟨visibility, teller, uniform, others⟩ := ih remaining
    refine ⟨visibility, teller, fun all => ?_, ?_⟩
    · exact (Bool.and_eq_true _ _ ▸ uniform all).1
    · intro other member
      rcases List.mem_cons.mp member with rfl | later
      · refine ⟨entry, live, level ▸ visibility.symm, fun all => ?_⟩
        have same := (Bool.and_eq_true _ _ ▸ uniform all).2
        exact (of_decide_eq_true same).trans teller.symm
      · exact others other later

theorem sources_checked {shared : Shared}
    (checked : sources.foldlM (checkSource graph block id) none = .ok (some shared)) :
    (∀ source ∈ sources, ∃ entry, liveEntry graph block id source = .ok entry ∧
        entry.visibility = shared.visibility ∧
        (shared.uniform = true → entry.toldBy = shared.teller)) ∧
      ∃ source ∈ sources, ∃ entry, liveEntry graph block id source = .ok entry ∧
        entry.toldBy = shared.teller := by
  cases sources with
  | nil => cases checked
  | cons source rest =>
    simp only [List.foldlM_cons, checkSource, bind_eq_ok, exists_checked, pure, Except.pure,
      Except.ok.injEq] at checked
    obtain ⟨_, ⟨entry, live, _, rfl⟩, remaining⟩ := checked
    obtain ⟨visibility, teller, _, others⟩ := checked_after remaining
    refine ⟨?_, source, List.mem_cons_self, entry, live, teller.symm⟩
    intro other member
    rcases List.mem_cons.mp member with rfl | later
    · exact ⟨entry, live, visibility.symm, fun _ => teller.symm⟩
    · exact others other later

theorem consolidate_ok {fresh : EntryId} {replacementText : String}
    {producedBy : Option ProducedBy}
    (done : consolidate engine fresh block id sources replacementText producedBy = .ok after) :
    let target := classWriteTarget engine.graph block id
    ∃ toldBy visibility,
      (∀ source ∈ sources, ∃ entry, liveEntry engine.graph block target source = .ok entry ∧
        entry.visibility = visibility) ∧
      ((∀ source ∈ sources, ∀ entry, liveEntry engine.graph block target source = .ok entry →
          entry.toldBy = toldBy) ∨ toldBy = .agent ∧ isAllAudience visibility = true) ∧
      (toldBy = .agent ∨ ∃ source ∈ sources, ∃ entry,
        liveEntry engine.graph block target source = .ok entry ∧ entry.toldBy = toldBy) ∧
      sources ≠ [] ∧
      after = block.pushAll
        (.memoryContentAppended target fresh engine.now none replacementText toldBy block.toldIn
            visibility ::
          ((distinctSourceTellers engine.graph toldBy
              (sourceEntries engine.graph block target sources)).map
            (SourceTeller.attestation target fresh visibility producedBy) ++
            [.entriesConsolidated target sources fresh producedBy])) := by
  simp only [consolidate, bind_eq_ok, exists_checked] at done
  obtain ⟨_, _, found, checked, done⟩ := done
  cases found with
  | none => cases done
  | some shared =>
    simp only [bind_eq_ok, exists_const, refuseIf_ok, pushContent_ok, pure, Except.pure,
      Except.ok.injEq] at done
    obtain ⟨crossTeller, _, ⟨_, rfl⟩, rfl⟩ := done
    obtain ⟨level, source, member, entry, live, toldBy⟩ := sources_checked checked
    refine ⟨if shared.uniform then shared.teller else .agent, shared.visibility, ?_, ?_, ?_,
      List.ne_nil_of_mem member, by simp [push_eq_pushAll]⟩
    · intro other otherMem
      obtain ⟨entry, live, same, _⟩ := level other otherMem
      exact ⟨entry, live, same⟩
    · cases uniform : shared.uniform with
      | true =>
        refine .inl fun other otherMem entry live => ?_
        obtain ⟨_, live', _, told⟩ := level other otherMem
        cases live.symm.trans live'
        exact told uniform
      | false => exact .inr ⟨rfl, by simpa [uniform] using crossTeller⟩
    · cases uniform : shared.uniform with
      | true => exact .inr ⟨source, member, entry, live, toldBy⟩
      | false => exact .inl rfl

end Checked

/-! ### Tier 2: absorption into a wider entry -/

/-- The plan of an absorption: the replacement's endorsements with the planned ones,
and the sources that bring one. -/
structure Absorption where
  running : List (Teller × Visibility)
  carried : List LiveEntry

/-- Plan one source's absorbing endorsement, unless its teller's class holds it. -/
def absorbSource (graph : Graph) (block : MemoryBlock) (id : MemoryId) (plan : Absorption)
    (source : EntryId) : Except MemoryError Absorption := do
  let entry ← liveEntry graph block id source
  guardForeignConfidenceSupersede graph block entry
  -- its class holds the replacement at this level already
  if plan.running.any fun held =>
      held.2 = entry.visibility && sameTellerClass graph held.1 entry.toldBy then return plan
  return ⟨plan.running ++ [(entry.toldBy, entry.visibility)], plan.carried ++ [entry]⟩

/-- The endorsement that keeps an absorbed source on the replacement. -/
def absorbingAttestation (id : MemoryId) (replacement : EntryId) (producedBy : Option ProducedBy)
    (entry : LiveEntry) : EventPayload :=
  .entryAttested id replacement entry.toldBy entry.toldIn entry.assertedAt entry.visibility
    (some entry.text) (some entry.entryId) producedBy

/-- Retire live entries into another live one, each as an endorsement of it. -/
def consolidateInto (engine : Engine) (block : MemoryBlock) (id : MemoryId)
    (sources : List EntryId) (replacement : EntryId) (producedBy : Option ProducedBy) :
    Except MemoryError MemoryBlock := do
  let id := classWriteTarget engine.graph block id
  guardSelf block id
  guardOperator block id
  refuseIf (sources = []) (.consolidationInvariant "a consolidation needs at least one source")
  let target ← liveEntry engine.graph block id replacement
  let plan ← sources.foldlM (absorbSource engine.graph block id) ⟨target.attestations, []⟩
  -- the retirement comes after the attestations that keep its sources
  return (block.pushAll (plan.carried.map (absorbingAttestation id replacement producedBy))).push
    (.entriesConsolidated id sources replacement producedBy)

/-- The pairs that a class does not hold yet at their posture, each held from then on. -/
def newlyHeld (graph : Graph) (running : List (Teller × Visibility)) :
    List (Teller × Visibility) → List (Teller × Visibility)
  | [] => []
  | pair :: rest =>
    if running.any fun held => held.2 = pair.2 && sameTellerClass graph held.1 pair.1 then
      newlyHeld graph running rest
    else pair :: newlyHeld graph (running ++ [pair]) rest

/-- The teller and level an entry was recorded with. -/
def LiveEntry.founding (entry : LiveEntry) : Teller × Visibility := (entry.toldBy, entry.visibility)

section Absorbed

variable {engine : Engine} {graph : Graph} {block after : MemoryBlock} {id : MemoryId}
variable {sources : List EntryId}

theorem newlyHeld_subset {running pairs : List (Teller × Visibility)} :
    newlyHeld graph running pairs ⊆ pairs := by
  induction pairs generalizing running with
  | nil => exact List.Subset.refl []
  | cons pair rest ih =>
    unfold newlyHeld
    split
    · exact List.subset_cons_of_subset _ ih
    · exact List.cons_subset_cons _ ih

theorem newlyHeld_covers {running pairs : List (Teller × Visibility)} {pair : Teller × Visibility}
    (member : pair ∈ pairs) :
    ∃ held ∈ running ++ newlyHeld graph running pairs,
      held.2 = pair.2 ∧ sameTellerClass graph held.1 pair.1 = true := by
  induction pairs generalizing running with
  | nil => cases member
  | cons first rest ih =>
    unfold newlyHeld
    rcases List.mem_cons.mp member with rfl | later
    · split
      · rename_i standing
        obtain ⟨held, heldMem, same⟩ := List.any_eq_true.mp standing
        have same : held.2 = pair.2 ∧ sameTellerClass graph held.1 pair.1 = true := by
          simpa using same
        exact ⟨held, List.mem_append_left _ heldMem, same⟩
      · exact ⟨pair, by simp, rfl, sameTellerClass_iff.mpr rfl⟩
    · split
      · exact ih later
      · -- the head newly held is among those that run on
        obtain ⟨held, heldMem, same⟩ := @ih (running ++ [first]) later
        exact ⟨held, by simpa using heldMem, same⟩

theorem newlyHeld_congr {running other pairs : List (Teller × Visibility)}
    (same : ∀ pair, pair ∈ running ↔ pair ∈ other) :
    newlyHeld graph running pairs = newlyHeld graph other pairs := by
  induction pairs generalizing running other with
  | nil => rfl
  | cons pair rest ih =>
    have agree : (running.any fun held => held.2 = pair.2 && sameTellerClass graph held.1 pair.1) =
        other.any fun held => held.2 = pair.2 && sameTellerClass graph held.1 pair.1 := by
      rw [Bool.eq_iff_iff, List.any_eq_true, List.any_eq_true]
      exact exists_congr fun held => by rw [same held]
    unfold newlyHeld
    have extended : ∀ held, held ∈ running ++ [pair] ↔ held ∈ other ++ [pair] := by
      intro held
      rw [List.mem_append, List.mem_append, same held]
    rw [agree, ih same, ih extended]

private theorem planned {plan result : Absorption}
    (absorbed : sources.foldlM (absorbSource graph block id) plan = .ok result) :
    (∀ source ∈ sources, ∃ entry, liveEntry graph block id source = .ok entry) ∧
      ∃ carried, result.carried = plan.carried ++ carried ∧
        carried ⊆ sourceEntries graph block id sources ∧
        carried.map LiveEntry.founding =
          newlyHeld graph plan.running
            ((sourceEntries graph block id sources).map LiveEntry.founding) := by
  induction sources generalizing plan with
  | nil =>
    cases absorbed
    exact ⟨by simp, [], by simp [sourceEntries, newlyHeld]⟩
  | cons source rest ih =>
    simp only [List.foldlM_cons, absorbSource, bind_eq_ok, exists_checked] at absorbed
    obtain ⟨middle, ⟨entry, live, _, step⟩, remaining⟩ := absorbed
    have listed : sourceEntries graph block id (source :: rest) =
        entry :: sourceEntries graph block id rest := by
      simp [sourceEntries, liveEntry_ok.mp live]
    obtain ⟨others, carried, extended, inSources, pairs⟩ := ih remaining
    refine ⟨by simpa [live] using others, ?_⟩
    rw [listed]
    simp only [List.map_cons, newlyHeld, LiveEntry.founding]
    split at step
    · rename_i standing
      cases step
      exact ⟨carried, extended, List.subset_cons_of_subset _ inSources,
        by rw [if_pos standing]; exact pairs⟩
    · rename_i novel
      cases step
      refine ⟨entry :: carried, by simp [extended], List.cons_subset_cons _ inSources, ?_⟩
      rw [if_neg novel, List.map_cons, pairs]
      rfl

theorem consolidateInto_ok {replacement : EntryId} {producedBy : Option ProducedBy}
    (done : consolidateInto engine block id sources replacement producedBy = .ok after) :
    let addressed := classWriteTarget engine.graph block id
    ∃ target carried,
      liveEntry engine.graph block addressed replacement = .ok target ∧
      (∀ source ∈ sources, ∃ entry, liveEntry engine.graph block addressed source = .ok entry) ∧
      sources ≠ [] ∧
      carried ⊆ sourceEntries engine.graph block addressed sources ∧
      carried.map LiveEntry.founding =
        newlyHeld engine.graph target.attestations
          ((sourceEntries engine.graph block addressed sources).map LiveEntry.founding) ∧
      after = block.pushAll
        (carried.map (absorbingAttestation addressed replacement producedBy) ++
          [.entriesConsolidated addressed sources replacement producedBy]) := by
  simp only [consolidateInto, bind_eq_ok, exists_checked, exists_const, refuseIf_ok, pure,
    Except.pure, Except.ok.injEq] at done
  obtain ⟨_, _, some, target, live, plan, absorbed, rfl⟩ := done
  obtain ⟨others, carried, extended, inSources, pairs⟩ := planned absorbed
  refine ⟨target, carried, live, others, some, inSources, pairs, ?_⟩
  rw [extended]
  simp [push_eq_pushAll]

end Absorbed

end MemoryBlock

end Zuihitsu
