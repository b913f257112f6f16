/-
# What an accepted attest leaves standing

An attest answers that nothing was to be recorded when the first account of the
teller's class that it lists, committed ones first and then the block's, is at the
level asked for. What the buffer leaves is the last thing said of each teller. The
two agree unless every account at that level was overtaken in the block.
-/

import Zuihitsu.Block.Confidences
import Zuihitsu.Graph.Applicable
import Zuihitsu.Library.Cursor

namespace Zuihitsu

open Zuihitsu.Core Zuihitsu.Graph Zuihitsu.Library Zuihitsu.Library.Cursor Zuihitsu.MemoryBlock

namespace Graph

/-! ### The last thing said of a teller -/

/-- What an event says of a teller's account of an entry: the level it is at, or that it
is withdrawn. -/
def accountWord (entry : EntryId) (teller : Teller) : EventPayload → Option (Option Visibility)
  | .memoryContentAppended _ appended _ _ _ toldBy _ visibility =>
    if (appended, toldBy) = (entry, teller) then some (some visibility) else none
  | .entryAttested _ attested by' _ _ posture _ _ _ =>
    if (attested, by') = (entry, teller) then some (some posture) else none
  | .entryRetracted _ retracted _ _ => if retracted = entry then some none else none
  | .attestationRetracted _ retracted by' _ _ =>
    if (retracted, by') = (entry, teller) then some none else none
  | _ => none

theorem heldAfter_eq {entry : EntryId} {teller : Teller} {held : Option Visibility}
    (payload : EventPayload) :
    heldAfter entry teller held payload = (accountWord entry teller payload).getD held := by
  cases payload <;> simp only [heldAfter, accountWord] <;> first | rfl | (split <;> rfl)

theorem foldl_heldAfter {entry : EntryId} {teller : Teller} {held : Option Visibility}
    (payloads : List EventPayload) :
    payloads.foldl (heldAfter entry teller) held =
      (lastWord (accountWord entry teller) payloads).getD held := by
  induction payloads using List.reverseRecOn with
  | nil => rfl
  | append_singleton earlier payload ih =>
    rw [List.foldl_concat, heldAfter_eq, ih, lastWord_append, lastWord_singleton]
    cases accountWord entry teller payload <;> rfl

/-! ### What stays live through a commit -/

/-- Some event of a commit takes a live entry off the live surfaces. -/
def RetiredIn (recordedAt : Timestamp) (source : EventSource) (graph : Graph) (entry : EntryId)
    (payloads : List EventPayload) : Prop :=
  ∃ earlier payload later middle, payloads = earlier ++ payload :: later ∧
    commit recordedAt source earlier graph = .ok middle ∧ IsLive middle entry ∧
    Retires middle entry payload

section Commit

variable {recordedAt : Timestamp} {source : EventSource} {before after : Graph}
variable {payload : EventPayload} {payloads : List EventPayload} {entry : EntryId}

theorem contains_of_isLive (live : IsLive before entry) : before.entries.contains entry = true := by
  obtain ⟨row, member, rfl, _⟩ := live
  exact Table.contains_of_mem member

theorem not_appended_of_contains (known : before.entries.contains entry = true)
    (committed : commit recordedAt source payloads before = .ok after) :
    ∀ payload ∈ payloads, appended payload ≠ some entry := by
  induction payloads generalizing before with
  | nil => simp
  | cons first rest ih =>
    obtain ⟨middle, applied, remaining⟩ := commit_cons_ok.mp committed
    refine List.forall_mem_cons.mpr ⟨fun appends => ?_, ih (contains_entry_apply known applied) remaining⟩
    have absent := absent_of_appended applied appends
    rw [known] at absent
    cases absent

theorem retiredIn_cons (applied : apply ⟨before.head + 1, recordedAt, source, payload⟩ before = .ok after) :
    RetiredIn recordedAt source before entry (payload :: payloads) ↔
      (IsLive before entry ∧ Retires before entry payload) ∨
        RetiredIn recordedAt source after entry payloads := by
  constructor
  · rintro ⟨earlier, retiring, later, middle, split, committed, live, retires⟩
    rcases List.cons_eq_append_iff.mp split with ⟨rfl, same⟩ | ⟨rest, rfl, rfl⟩
    · cases same
      cases committed
      exact .inl ⟨live, retires⟩
    · obtain ⟨next, first, remaining⟩ := commit_cons_ok.mp committed
      cases applied.symm.trans first
      exact .inr ⟨rest, retiring, later, middle, rfl, remaining, live, retires⟩
  · rintro (⟨live, retires⟩ | ⟨earlier, retiring, later, middle, rfl, committed, live, retires⟩)
    · exact ⟨[], payload, payloads, before, rfl, rfl, live, retires⟩
    · exact ⟨payload :: earlier, retiring, later, middle, rfl,
        commit_cons_ok.mpr ⟨after, applied, committed⟩, live, retires⟩

theorem isLive_after_commit_iff (committed : commit recordedAt source payloads before = .ok after) :
    IsLive after entry ↔
      (IsLive before entry ∨ ∃ payload ∈ payloads, appended payload = some entry) ∧
        ¬RetiredIn recordedAt source before entry payloads := by
  induction payloads generalizing before with
  | nil =>
    cases committed
    simp [RetiredIn]
  | cons payload rest ih =>
    obtain ⟨middle, applied, remaining⟩ := commit_cons_ok.mp committed
    rw [ih remaining, retiredIn_cons applied, isLive_apply_iff applied, List.exists_mem_cons_iff]
    -- an entry is appended once, and not while it is there
    have apart : IsLive before entry → appended payload ≠ some entry ∧
        ∀ other ∈ rest, appended other ≠ some entry := by
      intro live
      exact List.forall_mem_cons.mp (not_appended_of_contains (contains_of_isLive live) committed)
    have once : appended payload = some entry → ∀ other ∈ rest, appended other ≠ some entry := by
      intro appends
      have live := (isLive_apply_iff applied).mpr (.inr appends)
      exact not_appended_of_contains (contains_of_isLive live) remaining
    constructor
    · rintro ⟨rooted, kept⟩
      rcases rooted with (⟨live, stays⟩ | appends) | ⟨other, member, appends⟩
      · exact ⟨.inl live, fun retired => retired.elim (fun first => stays first.2) kept⟩
      · exact ⟨.inr (.inl appends), fun retired =>
          retired.elim (fun first => (apart first.1).1 appends) kept⟩
      · exact ⟨.inr (.inr ⟨other, member, appends⟩), fun retired =>
          retired.elim (fun first => (apart first.1).2 other member appends) kept⟩
    · rintro ⟨rooted, unretired⟩
      obtain ⟨stays, kept⟩ := not_or.mp unretired
      refine ⟨?_, kept⟩
      rcases rooted with live | appends | later
      · exact .inl (.inl ⟨live, fun retires => stays ⟨live, retires⟩⟩)
      · exact .inl (.inr appends)
      · exact .inr later

end Commit

end Graph

namespace MemoryBlock

/-! ### The scan an attest makes -/

/-- The level an attest is to be recorded at. -/
def requestedPosture (engine : Engine) (block : MemoryBlock) (entry : EntryId)
    (opts : AppendOptions) : Except MemoryError Visibility := do
  let found ← attestTarget engine.graph block entry
  let forced ← reconcileForcedVisibility opts.visibility opts.exclude
  resolveVisibility block (resolveName engine.graph block found.memory) found.memory
    (entryTeller opts block.teller) forced

/-- The accounts an attest of an entry lists: the committed live ones in their order, then
those the block attests. -/
def listedAccounts (graph : Graph) (block : MemoryBlock) (entry : EntryId) :
    List (Teller × Visibility) :=
  ((graph.entryById entry).map fun found =>
      found.2.attestations.map fun held => (held.teller, held.posture)).getD [] ++
    pendingAttestations block entry

/-- The last thing said of a teller's account of an entry: by the block, or failing that by
the graph. -/
def lastSaid (graph : Graph) (block : MemoryBlock) (entry : EntryId) (teller : Teller) :
    Option Visibility :=
  (lastWord (accountWord entry teller) block.buffer).getD (graph.standing entry teller)

/-- A teller's class has an account of an entry at a level. -/
def StandsAt (classes graph : Graph) (entry : EntryId) (teller : Teller) (posture : Visibility) :
    Prop :=
  ∃ held, sameTellerClass classes held teller = true ∧ graph.standing entry held = some posture

/-- The first account of a teller's class that is listed is at a level, and every account
of the class at that level was overtaken: withdrawn since, or put at another. -/
def Overtaken (graph : Graph) (block : MemoryBlock) (entry : EntryId) (teller : Teller)
    (posture : Visibility) : Prop :=
  heldPosture graph (listedAccounts graph block entry) teller = some posture ∧
    ∀ held, sameTellerClass graph held teller = true →
      lastSaid graph block entry held ≠ some posture

section Attest

variable {engine : Engine} {block after : MemoryBlock} {id : MemoryId} {entry : EntryId}
variable {opts : AppendOptions} {recordedAt : Timestamp} {source : EventSource}

theorem attestations_of_attestTarget {found : AttestTarget}
    (located : attestTarget engine.graph block entry = .ok found) :
    found.attestations ++ pendingAttestations block entry =
      listedAccounts engine.graph block entry := by
  unfold attestTarget at located
  unfold listedAccounts
  split at located
  · rename_i memory view stored
    cases located
    rw [stored]
    rfl
  · rename_i absent
    rw [absent]
    split at located
    · cases located
      rfl
    · cases located

/-- An attest leaves the block as it was if the first listed account of the class is at the
level asked for, and otherwise buffers the endorsement. -/
theorem attest_cases (attested : attest engine block id entry opts = .ok after) :
    ∃ live posture, liveEntry engine.graph block (classWriteTarget engine.graph block id) entry =
        .ok live ∧
      requestedPosture engine block entry opts = .ok posture ∧
      (heldPosture engine.graph (listedAccounts engine.graph block entry)
            (entryTeller opts block.teller) = some posture ∧ after = block ∨
        heldPosture engine.graph (listedAccounts engine.graph block entry)
            (entryTeller opts block.teller) ≠ some posture ∧
          ∃ memory, after = block.push
            (.entryAttested memory entry (entryTeller opts block.teller) block.toldIn engine.now
              posture none none none)) := by
  simp only [attest, bind_eq_ok, exists_checked] at attested
  obtain ⟨_, _, live, standing, found, located, forced, reconciled, posture, resolved, recorded⟩ :=
    attested
  refine ⟨live, posture, standing, ?_, ?_⟩
  · simp only [requestedPosture, bind_eq_ok]
    exact ⟨found, located, forced, reconciled, resolved⟩
  · simp only [recordAttestation, bind_eq_ok] at recorded
    obtain ⟨_, _, recorded⟩ := recorded
    rw [attestations_of_attestTarget located] at recorded
    split at recorded
    · rename_i held
      cases recorded
      exact .inl ⟨held, rfl⟩
    · rename_i other
      cases recorded
      exact .inr ⟨other, found.memory, rfl⟩

theorem standing_of_commit {committed : Graph} {teller : Teller}
    (done : commit recordedAt source block.buffer engine.graph = .ok committed) :
    committed.standing entry teller = lastSaid engine.graph block entry teller := by
  rw [standing_commit done, foldl_heldAfter, lastSaid]

theorem exists_commit_push {memory : MemoryId} {teller : Teller} {posture : Visibility}
    {base : Graph} (applies : commit recordedAt source block.buffer engine.graph = .ok base)
    (known : base.entries.contains entry = true) :
    ∃ committed, commit recordedAt source (block.push (.entryAttested memory entry teller block.toldIn
        engine.now posture none none none)).buffer engine.graph = .ok committed := by
  obtain ⟨committed, applied⟩ := @exists_apply
    ⟨base.head + 1, recordedAt, source,
      .entryAttested memory entry teller block.toldIn engine.now posture none none none⟩ base
    ⟨_, by
      simp only [project, Script.run_statement]
      exact upsertAttestation_ok.mpr ⟨by simp [attestationParents, known], rfl⟩⟩
  rw [push_buffer]
  exact ⟨committed, commit_append_ok.mpr ⟨base, applies, commit_cons_ok.mpr ⟨committed, applied, rfl⟩⟩⟩

theorem rooted_of_liveEntry {live : LiveEntry}
    (found : liveEntry engine.graph block id entry = .ok live) :
    IsLive engine.graph entry ∨ ∃ payload ∈ block.buffer, appended payload = some entry := by
  rcases stored_of_liveEntry found with pending | ⟨row, stored, named, standing, _⟩
  · exact .inr pending
  · exact .inl ⟨row, stored, named, standing⟩

theorem contains_of_rooted {base : Graph}
    (applies : commit recordedAt source block.buffer engine.graph = .ok base)
    (rooted : IsLive engine.graph entry ∨ ∃ payload ∈ block.buffer, appended payload = some entry) :
    base.entries.contains entry = true := by
  rcases rooted with live | ⟨payload, member, appends⟩
  · exact contains_entry_commit (contains_of_isLive live) applies
  · obtain ⟨earlier, later, split⟩ := List.append_of_mem member
    rw [split] at applies
    obtain ⟨before, _, rest⟩ := commit_append_ok.mp applies
    obtain ⟨after, applied, remaining⟩ := commit_cons_ok.mp rest
    exact contains_entry_commit
      (contains_of_isLive ((isLive_apply_iff applied).mpr (.inr appends))) remaining

/-- An accepted attest has its effect, the teller's class at the level asked for, exactly
if the accounts of the class at that level were not all overtaken; and the entry is live
besides exactly if the block has not retired it. -/
theorem attest_effect_iff (attested : attest engine block id entry opts = .ok after) {base : Graph}
    (applies : commit recordedAt source block.buffer engine.graph = .ok base) :
    ∃ posture committed, requestedPosture engine block entry opts = .ok posture ∧
      commit recordedAt source after.buffer engine.graph = .ok committed ∧
      (StandsAt engine.graph committed entry (entryTeller opts block.teller) posture ↔
        ¬Overtaken engine.graph block entry (entryTeller opts block.teller) posture) ∧
      (IsLive committed entry ↔ ¬RetiredIn recordedAt source engine.graph entry block.buffer) := by
  obtain ⟨live, posture, standing, requested, outcome⟩ := attest_cases attested
  have rooted := rooted_of_liveEntry standing
  have baseLive : IsLive base entry ↔
      ¬RetiredIn recordedAt source engine.graph entry block.buffer := by
    rw [isLive_after_commit_iff applies]
    exact and_iff_right rooted
  rcases outcome with ⟨held, rfl⟩ | ⟨other, memory, rfl⟩
  · -- nothing was to be recorded, so what stands is what the block had said before
    refine ⟨posture, base, requested, applies, ?_, baseLive⟩
    simp only [StandsAt, Overtaken, held, true_and, not_forall, not_not, standing_of_commit applies,
      exists_prop]
  · obtain ⟨committed, pushed⟩ := @exists_commit_push engine block entry recordedAt source memory
      (entryTeller opts block.teller) posture base applies (contains_of_rooted applies rooted)
    refine ⟨posture, committed, requested, pushed, ?_, ?_⟩
    · refine iff_of_true ⟨entryTeller opts block.teller, sameTellerClass_iff.mpr rfl, ?_⟩
        fun overtaken => other overtaken.1
      rw [standing_commit pushed, push_buffer, List.foldl_concat]
      simp [heldAfter]
    · rw [push_buffer] at pushed
      obtain ⟨middle, first, last⟩ := commit_append_ok.mp pushed
      cases applies.symm.trans first
      obtain ⟨next, applied, done⟩ := commit_cons_ok.mp last
      cases done
      rw [isLive_apply_iff applied, ← baseLive]
      simp [Retires, appended]

end Attest

end MemoryBlock

/-! Jonas stands behind what Ines confided, takes that back, and stands behind it again. -/

namespace Aside

open MemoryBlock

def again : AppendOptions := { visibility := some .private }

/-- The last is answered as if it stood, and he stands behind nothing. -/
theorem attested_again :
    Reachable confidingGraph ∧ Trace (Calls confidingGraph) turn relenting (blockAfter relenting) ∧
      attest ⟨confidingGraph, ⟨3⟩⟩ (blockAfter relenting) party surprise again =
        .ok (blockAfter relenting) ∧
      requestedPosture ⟨confidingGraph, ⟨3⟩⟩ (blockAfter relenting) surprise again =
        .ok .privateToTeller ∧
      commit ⟨4⟩ .agent (blockAfter relenting).buffer confidingGraph = .ok (leftBy relenting) ∧
      ¬StandsAt confidingGraph (leftBy relenting) surprise (entryTeller again turn.teller)
        .privateToTeller := by
  refine ⟨confidingGraph_reachable, ?_, rfl, rfl, rfl, ?_⟩
  · have attests : Calls confidingGraph turn
        (⟨1⟩, .attest party surprise { visibility := some .private })
        (blockAfter (endorsing.take 1)) := rfl
    have retracts : Calls confidingGraph (blockAfter (endorsing.take 1))
        (⟨2⟩, .retract party surprise "not mine to tell" none) (blockAfter relenting) := rfl
    exact .cons attests (.single retracts)
  · rintro ⟨held, same, stands⟩
    obtain ⟨row, member, key, live, posture⟩ := standing_eq_some.mp stands
    obtain ⟨named, rfl⟩ := Prod.mk.inj key
    revert row
    decide

theorem attest_effect_again :
    ∃ posture committed,
      requestedPosture ⟨confidingGraph, ⟨3⟩⟩ (blockAfter relenting) surprise again = .ok posture ∧
      commit ⟨4⟩ .agent (blockAfter relenting).buffer confidingGraph = .ok committed ∧
      (StandsAt confidingGraph committed surprise (entryTeller again (blockAfter relenting).teller)
          posture ↔
        ¬Overtaken confidingGraph (blockAfter relenting) surprise
          (entryTeller again (blockAfter relenting).teller) posture) ∧
      (IsLive committed surprise ↔
        ¬RetiredIn ⟨4⟩ .agent confidingGraph surprise (blockAfter relenting).buffer) := by
  have answered : attest ⟨confidingGraph, ⟨3⟩⟩ (blockAfter relenting) party surprise again =
      .ok (blockAfter relenting) := rfl
  have applies : commit ⟨4⟩ .agent (blockAfter relenting).buffer confidingGraph =
      .ok (leftBy relenting) := rfl
  exact attest_effect_iff answered applies

end Aside

end Zuihitsu
