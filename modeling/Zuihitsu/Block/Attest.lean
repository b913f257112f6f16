/-
# Attestation and retraction writes

Standing behind an entry that is there already, by an explicit attest or by an
append the dedup scan captures, and withdrawing an account of one. The scan's
ranked hits come from the vector index: a hit names an entry and says whether it
clears the strict bar, and only hits at or above the looser one are listed.
-/

import Zuihitsu.Block.Writes

namespace Zuihitsu

open Zuihitsu.Core Zuihitsu.Graph Zuihitsu.Library

namespace MemoryBlock

/-- The audience breadth of a posture. -/
def postureWidth : Visibility → Nat
  | .public | .attributed => 2
  | .privateToTeller => 1
  | .exclude _ => 0

theorem postureWidth_le_of_isAllAudience {posture level : Visibility}
    (openly : isAllAudience level = true) : postureWidth posture ≤ postureWidth level := by
  cases level with
  | «public» | attributed => cases posture <;> simp [postureWidth]
  | privateToTeller | exclude => cases openly

/-- One teller's endorsement of an entry, with what the entry already carries. -/
structure AttestationWrite where
  memory : MemoryId
  entry : EntryId
  foundingPosture : Visibility
  existing : List (Teller × Visibility)
  teller : Teller
  posture : Visibility
  phrasing : Option String

/-- The posture a teller's class already holds among some endorsements. -/
def heldPosture (graph : Graph) (existing : List (Teller × Visibility)) (teller : Teller) :
    Option Visibility :=
  (existing.find? fun held => sameTellerClass graph held.1 teller).map (·.2)

/-- Buffer one teller's endorsement of an entry, unless it stands already. -/
def recordAttestation (engine : Engine) (block : MemoryBlock) (write : AttestationWrite) :
    Except MemoryError MemoryBlock := do
  refuseIf (postureWidth write.foundingPosture < postureWidth write.posture)
    .attestationWiderThanEntry
  let existing := write.existing ++ pendingAttestations block write.entry
  if heldPosture engine.graph existing write.teller = some write.posture then return block
  return block.push
    (.entryAttested write.memory write.entry write.teller block.toldIn engine.now write.posture
      write.phrasing none none)

theorem recordAttestation_ok {engine : Engine} {block after : MemoryBlock}
    {write : AttestationWrite}
    (done : recordAttestation engine block write = .ok after) :
    postureWidth write.posture ≤ postureWidth write.foundingPosture ∧
      (after = block ∨
        after = block.pushAll
          [.entryAttested write.memory write.entry write.teller block.toldIn engine.now write.posture
            write.phrasing none none]) := by
  simp only [recordAttestation, bind_eq_ok, exists_const, refuseIf_ok, not_lt] at done
  obtain ⟨level, done⟩ := done
  refine ⟨level, ?_⟩
  split at done
  · cases done
    exact .inl rfl
  · cases done
    exact .inr rfl

theorem exists_recordAttestation {engine : Engine} {block : MemoryBlock} {write : AttestationWrite}
    (level : postureWidth write.posture ≤ postureWidth write.foundingPosture) :
    ∃ after, recordAttestation engine block write = .ok after := by
  unfold recordAttestation refuseIf
  rw [if_neg (Nat.not_lt.mpr level)]
  simp only [bind, Except.bind]
  split
  · exact ⟨_, rfl⟩
  · exact ⟨_, rfl⟩

/-- What attesting an entry needs beyond its being live. -/
structure AttestTarget where
  memory : MemoryId
  attestations : List (Teller × Visibility)

/-- The memory of a pending append of an entry. -/
def pendingOwner (entry : EntryId) : EventPayload → Option MemoryId
  | .memoryContentAppended id appended .. => if appended = entry then some id else none
  | _ => none

/-- The memory and committed endorsements of an entry, the graph before the buffer. -/
def attestTarget (graph : Graph) (block : MemoryBlock) (entry : EntryId) :
    Except MemoryError AttestTarget :=
  match graph.entryById entry with
  | some (memory, view) => .ok ⟨memory.id, view.attestations.map fun held => (held.teller, held.posture)⟩
  | none =>
    match block.buffer.findSome? (pendingOwner entry) with
    | some memory => .ok ⟨memory, []⟩
    | none => .error (.unknownEntry entry)

/-- Attest an existing entry as a further teller. -/
def attest (engine : Engine) (block : MemoryBlock) (id : MemoryId) (entry : EntryId)
    (opts : AppendOptions) : Except MemoryError MemoryBlock := do
  let id := classWriteTarget engine.graph block id
  guardSelf block id
  guardOperator block id
  let target ← liveEntry engine.graph block id entry
  let found ← attestTarget engine.graph block entry
  let toldBy := entryTeller opts block.teller
  let forced ← reconcileForcedVisibility opts.visibility opts.exclude
  let posture ← resolveVisibility block (resolveName engine.graph block found.memory) found.memory
    toldBy forced
  recordAttestation engine block
    { memory := found.memory
      entry
      foundingPosture := target.visibility
      existing := found.attestations
      teller := toldBy
      posture
      phrasing := none }

/-- An attest buffers nothing, or one endorsement of a live entry of the class, no
wider than the entry. -/
theorem attest_ok {engine : Engine} {block after : MemoryBlock} {id : MemoryId} {entry : EntryId}
    {opts : AppendOptions} (done : attest engine block id entry opts = .ok after) :
    ∃ target, liveEntry engine.graph block (classWriteTarget engine.graph block id) entry =
        .ok target ∧
      ∃ found forced posture, attestTarget engine.graph block entry = .ok found ∧
        reconcileForcedVisibility opts.visibility opts.exclude = .ok forced ∧
        resolveVisibility block (resolveName engine.graph block found.memory) found.memory
            (entryTeller opts block.teller) forced = .ok posture ∧
        postureWidth posture ≤ postureWidth target.visibility ∧
        (after = block ∨
          after = block.pushAll
            [.entryAttested found.memory entry (entryTeller opts block.teller) block.toldIn
              engine.now posture none none none]) := by
  simp only [attest, bind_eq_ok, exists_checked] at done
  obtain ⟨_, _, target, live, found, located, forced, reconciled, posture, resolved, recorded⟩ :=
    done
  obtain ⟨level, outcome⟩ := recordAttestation_ok recorded
  exact ⟨target, live, found, forced, posture, located, reconciled, resolved, level, outcome⟩

/-! ### The dedup capture -/

/-- One ranked hit of the dedup scan. -/
structure DedupHit where
  entry : EntryId
  duplicates : Bool
  deriving DecidableEq, Repr

/-- Whether a writer may be captured against an entry: everyone may see it, or the
writer confided it. -/
def visibleToWriter (graph : Graph) (entry : EntryView) (toldBy : Teller) : Bool :=
  isAllAudience entry.visibility || sameTellerClass graph entry.toldBy toldBy

/-- The live entry of the class a hit captures the write against. -/
def captures (graph : Graph) (targetClass : MemoryId) (distinctFrom : Option EntryId)
    (toldBy : Teller) (hit : DedupHit) : Option (MemoryView × EntryView) :=
  -- the writer said it is distinct from this one
  if some hit.entry = distinctFrom then none
  else
    (graph.entryById hit.entry).filter fun (memory, entry) =>
      entry.supersededBy.isNone && graph.classOf memory.id = targetClass &&
        visibleToWriter graph entry toldBy && hit.duplicates

/-- The entry a write duplicates, if the scan finds one. -/
def findDedupTarget (graph : Graph) (block : MemoryBlock) (id : MemoryId)
    (distinctFrom : Option EntryId) (toldBy : Teller) (hits : List DedupHit) :
    Option (MemoryView × EntryView) :=
  hits.findSome?
    (captures graph (graph.classOf (classWriteTarget graph block id)) distinctFrom toldBy)

/-- Record an append that duplicates an entry as a corroboration of it. -/
def corroborateAppend (engine : Engine) (block : MemoryBlock) (memory : MemoryView)
    (entry : EntryView) (text : String) (opts : AppendOptions) :
    Except MemoryError MemoryBlock := do
  let toldBy := entryTeller opts block.teller
  refuseIf (sameTellerClass engine.graph entry.toldBy toldBy = true)
    (.duplicateEntry entry.entryId entry.text)
  let forced ← reconcileForcedVisibility opts.visibility opts.exclude
  let posture ← resolveVisibility block (some memory.name) memory.id toldBy forced
  recordAttestation engine block
    { memory := memory.id
      entry := entry.entryId
      foundingPosture := entry.visibility
      existing := entry.attestations.map fun held => (held.teller, held.posture)
      teller := toldBy
      posture
      -- a wording of its own is kept
      phrasing := if text = entry.text then none else some text }

/-- Append a content entry, unless the scan captures it against an entry already there. -/
def appendDedup (engine : Engine) (fresh : EntryId) (block : MemoryBlock) (id : MemoryId)
    (text : String) (opts : AppendOptions) (distinctFrom : Option EntryId)
    (hits : List DedupHit) : Except MemoryError MemoryBlock :=
  match findDedupTarget engine.graph block id distinctFrom (entryTeller opts block.teller) hits with
  | some (memory, entry) => corroborateAppend engine block memory entry text opts
  | none => append engine fresh block id text opts

/-- A deduplicated append is an append, or buffers nothing, or buffers one
endorsement of a committed entry that everyone may see. -/
theorem appendDedup_ok {engine : Engine} {fresh : EntryId} {block after : MemoryBlock}
    {id : MemoryId} {text : String} {opts : AppendOptions} {distinctFrom : Option EntryId}
    {hits : List DedupHit}
    (done : appendDedup engine fresh block id text opts distinctFrom hits = .ok after) :
    append engine fresh block id text opts = .ok after ∨ after = block ∨
      ∃ memory entry posture phrasing, ∃ source : EntryId,
        engine.graph.entryById source = some (memory, entry) ∧
        isAllAudience entry.visibility = true ∧
        after = block.pushAll
          [.entryAttested memory.id entry.entryId (entryTeller opts block.teller) block.toldIn
            engine.now posture phrasing none none] := by
  unfold appendDedup at done
  split at done
  · rename_i memory entry captured
    obtain ⟨hit, _, capture⟩ := List.exists_of_findSome?_eq_some captured
    unfold captures at capture
    split at capture
    · cases capture
    · simp only [Option.filter_eq_some_iff, Bool.and_eq_true, visibleToWriter, Bool.or_eq_true]
        at capture
      obtain ⟨found, ⟨_, shown⟩, _⟩ := capture
      simp only [corroborateAppend, bind_eq_ok, exists_const, refuseIf_ok] at done
      -- the writer's own class is refused, so what was shown to it is open to all
      obtain ⟨other, forced, _, posture, _, recorded⟩ := done
      rcases (recordAttestation_ok recorded).2 with same | pushed
      · exact .inr (.inl same)
      · exact .inr (.inr ⟨memory, entry, posture, _, hit.entry, found,
          shown.resolve_right other, pushed⟩)
  · exact .inl done

/-! ### Retraction -/

/-- The exact tellers of a class among an entry's live endorsements. -/
def accountsOf (graph : Graph) (entry : LiveEntry) (teller : Teller) : List Teller :=
  (entry.attestations.filter fun held => sameTellerClass graph held.1 teller).map (·.1)

/-- A reason without the white space around it. -/
def trimmedReason (reason : String) : String := String.ofList (trimmed reason.toList)

/-- Retract an entry, or under a conversation turn the speaker's account of one that
others stand behind too. -/
def retract (engine : Engine) (block : MemoryBlock) (id : MemoryId) (entry : EntryId)
    (reason : String) (producedBy : Option ProducedBy) : Except MemoryError MemoryBlock := do
  let id := classWriteTarget engine.graph block id
  guardSelf block id
  guardOperator block id
  let reason := trimmedReason reason
  refuseIf (reason = "") .retractionReasonRequired
  let target ← liveEntry engine.graph block id entry
  let accounts := accountsOf engine.graph target block.teller
  let othersAttest := target.attestations.any fun held =>
    !sameTellerClass engine.graph held.1 block.teller
  -- others stand behind it too, so only the speaker's own account goes
  if block.authority = .platform ∧ accounts ≠ [] ∧ othersAttest = true then
    return block.pushAll
      (accounts.map fun account => .attestationRetracted id entry account reason producedBy)
  guardForeignConfidenceSupersede engine.graph block target
  return block.push (.entryRetracted id entry reason producedBy)

/-- Withdraw one named teller's account of an entry. -/
def retractAttestation (engine : Engine) (block : MemoryBlock) (id : MemoryId) (entry : EntryId)
    (teller : Teller) (reason : String) (producedBy : Option ProducedBy) :
    Except MemoryError MemoryBlock := do
  let id := classWriteTarget engine.graph block id
  guardSelf block id
  guardOperator block id
  let reason := trimmedReason reason
  refuseIf (reason = "") .retractionReasonRequired
  let target ← liveEntry engine.graph block id entry
  let accounts := accountsOf engine.graph target teller
  refuseIf (accounts = []) .unknownAttestation
  return block.pushAll
    (accounts.map fun account => .attestationRetracted id entry account reason producedBy)

/-- Whether an event withdraws an endorsement, or all of an entry. -/
def isRetraction : EventPayload → Bool
  | .entryRetracted .. | .attestationRetracted .. => true
  | _ => false

/-- The entry an event withdraws, or withdraws an account of. -/
def retractedEntry : EventPayload → Option EntryId
  | .entryRetracted _ entry .. | .attestationRetracted _ entry .. => some entry
  | _ => none

theorem isRetraction_iff {payload : EventPayload} :
    isRetraction payload = true ↔ ∃ entry, retractedEntry payload = some entry := by
  cases payload <;> simp [isRetraction, retractedEntry]

section Retraction

variable {engine : Engine} {block after : MemoryBlock} {id : MemoryId} {entry : EntryId}
variable {reason : String} {producedBy : Option ProducedBy}

theorem retract_reads (done : retract engine block id entry reason producedBy = .ok after) :
    ∃ live events, liveEntry engine.graph block (classWriteTarget engine.graph block id) entry =
        .ok live ∧
      after = block.pushAll events ∧ ∀ event ∈ events, retractedEntry event = some entry := by
  simp only [retract, bind_eq_ok, exists_checked, exists_const, refuseIf_ok] at done
  obtain ⟨_, _, _, target, live, done⟩ := done
  split at done
  · cases done
    exact ⟨target, _, live, rfl, by simp [retractedEntry]⟩
  · simp only [bind_eq_ok, exists_checked] at done
    obtain ⟨_, done⟩ := done
    cases done
    exact ⟨target, _, live, push_eq_pushAll, by simp [retractedEntry]⟩

theorem retractAttestation_reads {teller : Teller}
    (done : retractAttestation engine block id entry teller reason producedBy = .ok after) :
    ∃ live events, liveEntry engine.graph block (classWriteTarget engine.graph block id) entry =
        .ok live ∧
      after = block.pushAll events ∧ ∀ event ∈ events, retractedEntry event = some entry := by
  simp only [retractAttestation, bind_eq_ok, exists_checked, exists_const, refuseIf_ok] at done
  obtain ⟨_, _, _, target, live, _, done⟩ := done
  cases done
  exact ⟨target, _, live, rfl, by simp [retractedEntry]⟩

theorem retract_ok (done : retract engine block id entry reason producedBy = .ok after) :
    ∃ events, after = block.pushAll events ∧ ∀ event ∈ events, isRetraction event = true := by
  obtain ⟨_, events, _, extended, named⟩ := retract_reads done
  exact ⟨events, extended, fun event member => isRetraction_iff.mpr ⟨entry, named event member⟩⟩

theorem retractAttestation_ok {teller : Teller}
    (done : retractAttestation engine block id entry teller reason producedBy = .ok after) :
    ∃ events, after = block.pushAll events ∧ ∀ event ∈ events, isRetraction event = true := by
  obtain ⟨_, events, _, extended, named⟩ := retractAttestation_reads done
  exact ⟨events, extended, fun event member => isRetraction_iff.mpr ⟨entry, named event member⟩⟩

end Retraction

end MemoryBlock

end Zuihitsu
