/-
# What stands behind an entry, and who it shows the entry to

The posture each teller holds on an entry, how one event changes it, and the
verdict on a live entry in these terms: an entry is shown to an audience exactly
when some posture that stands on it reaches them.
-/

import Zuihitsu.Block.Reads
import Zuihitsu.Block.Writes

namespace Zuihitsu

open Zuihitsu.Core Zuihitsu.Graph Zuihitsu.Library Zuihitsu.MemoryBlock

namespace Graph

/-- The posture a teller's endorsement of an entry stands at, if it stands. -/
def standing (graph : Graph) (entry : EntryId) (teller : Teller) : Option Visibility :=
  ((graph.attestations.find (entry, teller)).filter (·.retractedReason.isNone)).map (·.posture)

/-- What an event makes of the posture a teller holds on an entry. -/
def heldAfter (entry : EntryId) (teller : Teller) (held : Option Visibility) :
    EventPayload → Option Visibility
  | .memoryContentAppended _ appended _ _ _ toldBy _ visibility =>
    if (appended, toldBy) = (entry, teller) then some visibility else held
  | .entryAttested _ attested by' _ _ posture _ _ _ =>
    if (attested, by') = (entry, teller) then some posture else held
  | .entryRetracted _ retracted _ _ => if retracted = entry then none else held
  | .attestationRetracted _ retracted by' _ _ =>
    if (retracted, by') = (entry, teller) then none else held
  | _ => held

section Standing

variable {event : Event} {before after : Graph} {entry : EntryId} {teller : Teller}

theorem standing_eq_some {posture : Visibility} :
    before.standing entry teller = some posture ↔
      ∃ row ∈ before.attestations, row.key = (entry, teller) ∧ row.retractedReason = none ∧
        row.posture = posture := by
  simp only [standing, Option.map_eq_some_iff, Option.filter_eq_some_iff, Table.find_eq_some_iff,
    Option.isNone_iff_eq_none]
  constructor
  · rintro ⟨row, ⟨⟨member, key⟩, live⟩, posture⟩
    exact ⟨row, member, key, live, posture⟩
  · rintro ⟨row, member, key, live, posture⟩
    exact ⟨row, ⟨⟨member, key⟩, live⟩, posture⟩

private theorem find_attestation_apply (applied : apply event before = .ok after) :
    after.attestations.find (entry, teller) =
      ((before.attestations.find (entry, teller)).map (attestationChange event)).or
        ((addedAttestation event before).filter fun row => row.key = (entry, teller)) :=
  Table.find_of_rows (apply_attestations applied) (fun row => attestationChange_key row) _

private theorem standing_of_unbrought (applied : apply event before = .ok after)
    (unbrought : ∀ brought, broughtAttestation event = some brought → brought.key ≠ (entry, teller)) :
    after.standing entry teller =
      (((before.attestations.find (entry, teller)).map (attestationChange event)).filter
        (·.retractedReason.isNone)).map (·.posture) := by
  have none : (addedAttestation event before).filter (fun row => row.key = (entry, teller)) = none := by
    rw [Option.filter_eq_none_iff]
    intro row added
    have brought := (Option.filter_eq_some_iff.mp added).1
    simpa using unbrought row brought
  rw [standing, find_attestation_apply applied, none, Option.or_none]

private theorem standing_of_brought (applied : apply event before = .ok after)
    {brought : AttestationRow} (brings : broughtAttestation event = some brought)
    (key : brought.key = (entry, teller)) :
    after.standing entry teller = some brought.posture := by
  have live : brought.retractedReason = none := broughtAttestation_live brings
  rw [standing, find_attestation_apply applied]
  -- a first endorsement is a new row, a further one merges into the old
  cases found : before.attestations.find (entry, teller) with
  | none =>
    have fresh : before.attestations.contains brought.key = false := by
      simp [Table.contains, key, found]
    have added : addedAttestation event before = some brought := by
      simp [addedAttestation, brings, fresh]
    have named := Prod.mk.inj key
    simp [added, live, named]
  | some old =>
    have sameKey : old.key = brought.key := (Table.find_eq_some_iff.mp found).2.trans key.symm
    have merged : attestationChange event old = brought.mergeFrom old := by
      unfold attestationChange
      unfold broughtAttestation at brings
      split at brings
      · rename_i payload
        cases brings
        simp only [payload, broughtAttestation]
        rw [if_pos sameKey]
      · rename_i payload
        cases brings
        simp only [payload, broughtAttestation]
        rw [if_pos sameKey]
      · cases brings
    simp [merged, AttestationRow.mergeFrom]

theorem standing_apply (applied : apply event before = .ok after) :
    after.standing entry teller =
      heldAfter entry teller (before.standing entry teller) event.payload := by
  -- most arms neither change the row nor bring one
  have unchanged : (∀ row ∈ before.attestations.find (entry, teller),
        attestationChange event row = row) →
      (∀ brought, broughtAttestation event = some brought → brought.key ≠ (entry, teller)) →
      after.standing entry teller = before.standing entry teller := by
    intro fixed unbrought
    rw [standing_of_unbrought applied unbrought, standing]
    cases found : before.attestations.find (entry, teller) with
    | none => rfl
    | some row => rw [Option.map_some, fixed row found]
  cases payload : event.payload with
  | memoryContentAppended id appended assertedAt occurredAt text toldBy toldIn visibility =>
    simp only [heldAfter]
    split
    · rename_i key
      have brings : broughtAttestation event = some
          { entryId := appended, teller := toldBy, toldIn, assertedAt, posture := visibility,
            seq := event.seq } := by
        simp only [broughtAttestation, payload]
      exact standing_of_brought applied brings key
    · rename_i key
      refine unchanged (fun row found => ?_) (fun brought brings => ?_)
      · have owner := (Table.find_eq_some_iff.mp found).2
        simp only [attestationChange, payload, broughtAttestation]
        exact if_neg fun same => key (same.symm.trans owner)
      · simp only [broughtAttestation, payload, Option.some.injEq] at brings
        subst brings
        exact key
  | entryAttested memory attested by' toldIn assertedAt posture phrasing sourceEntry producedBy =>
    simp only [heldAfter]
    split
    · rename_i key
      have brings : broughtAttestation event = some
          { entryId := attested, teller := by', toldIn, assertedAt, posture, phrasing, sourceEntry,
            seq := event.seq } := by
        simp only [broughtAttestation, payload]
      exact standing_of_brought applied brings key
    · rename_i key
      refine unchanged (fun row found => ?_) (fun brought brings => ?_)
      · have owner := (Table.find_eq_some_iff.mp found).2
        simp only [attestationChange, payload, broughtAttestation]
        exact if_neg fun same => key (same.symm.trans owner)
      · simp only [broughtAttestation, payload, Option.some.injEq] at brings
        subst brings
        exact key
  | entryRetracted memory retracted reason producedBy =>
    simp only [heldAfter]
    split
    · rename_i here
      subst here
      rw [standing_of_unbrought applied (by simp [broughtAttestation, payload])]
      cases found : before.attestations.find (retracted, teller) with
      | none => rfl
      -- withdrawing what was withdrawn before changes only its reason
      | some row =>
        have owner : row.entryId = retracted :=
          congrArg Prod.fst (Table.find_eq_some_iff.mp found).2
        cases live : row.retractedReason with
        | none => simp [attestationChange, payload, liveAttestationOf, owner, live]
        | some => simp [attestationChange, payload, liveAttestationOf, live]
    · rename_i other
      refine unchanged (fun row found => ?_) (by simp [broughtAttestation, payload])
      have owner : row.entryId = entry := congrArg Prod.fst (Table.find_eq_some_iff.mp found).2
      simp [attestationChange, payload, liveAttestationOf, owner, Ne.symm other]
  | attestationRetracted memory retracted by' reason producedBy =>
    simp only [heldAfter]
    split
    · rename_i key
      rw [standing_of_unbrought applied (by simp [broughtAttestation, payload]), ← key]
      cases found : before.attestations.find (retracted, by') with
      | none => rfl
      | some =>
        have owner := (Table.find_eq_some_iff.mp found).2
        simp [attestationChange, payload, owner]
    · rename_i other
      refine unchanged (fun row found => ?_) (by simp [broughtAttestation, payload])
      have owner := (Table.find_eq_some_iff.mp found).2
      simp only [attestationChange, payload]
      exact if_neg fun same => other (same.symm.trans owner)
  | _ =>
    refine unchanged (fun row found => ?_) (by simp [broughtAttestation, payload])
    simp [attestationChange, broughtAttestation, payload]

theorem standing_commit {recordedAt : Timestamp} {source : EventSource}
    {payloads : List EventPayload}
    (committed : commit recordedAt source payloads before = .ok after) :
    after.standing entry teller =
      payloads.foldl (heldAfter entry teller) (before.standing entry teller) := by
  induction payloads generalizing before with
  | nil =>
    cases committed
    rfl
  | cons payload rest ih =>
    obtain ⟨middle, applied, remaining⟩ := commit_cons_ok.mp committed
    rw [ih remaining, standing_apply applied, List.foldl_cons]

end Standing

theorem exists_live_attestation_iff {graph : Graph} {entry : EntryId} {teller : Teller}
    {posture : Visibility} :
    (∃ view ∈ attestationsFor graph entry .live, view.teller = teller ∧ view.posture = posture) ↔
      graph.standing entry teller = some posture := by
  simp only [standing_eq_some, mem_attestationsFor, AttestationScope.covers,
    Option.isNone_iff_eq_none]
  constructor
  · rintro ⟨_, ⟨row, member, owner, live, rfl⟩, rfl, posture⟩
    exact ⟨row, member, by rw [AttestationRow.key, owner]; rfl, live, posture⟩
  · rintro ⟨row, member, key, live, posture⟩
    obtain ⟨owner, by'⟩ := Prod.mk.inj key
    exact ⟨_, ⟨row, member, owner, live, rfl⟩, by', posture⟩

/-! ### Events that leave the identity classes alone -/

/-- Whether an event neither makes, deletes nor links memories. -/
def keepsClasses : EventPayload → Bool
  | .memoryCreated .. | .memoryDeleted .. | .classPrimaryDesignated .. | .linkCreated ..
  | .linkRemoved .. => false
  | _ => true

theorem recomputes_of_keepsClasses {event : Event} {before : Graph}
    (keeps : keepsClasses event.payload = true) : recomputes event before = false := by
  unfold recomputes writesSameAs
  cases payload : event.payload <;> first | rfl | simp [keepsClasses, payload] at keeps

theorem classId_apply {event : Event} {before after : Graph}
    (applied : apply event before = .ok after) (keeps : keepsClasses event.payload = true)
    (id : MemoryId) : after.classId id = before.classId id := by
  have none : createdMemory event = none := by
    unfold createdMemory
    cases payload : event.payload <;> first | rfl | simp [keepsClasses, payload] at keeps
  unfold classId liveRow
  rw [memoryRow_apply applied, none]
  cases before.memoryRow id with
  | none => rfl
  | some row =>
    have deleted : (memoryChange event before row).deleted = row.deleted := by
      have spared : event.payload ≠ .memoryDeleted row.id := by
        intro deletes
        simp [deletes, keepsClasses] at keeps
      rw [memoryChange_deleted, decide_eq_false spared, Bool.or_false]
    have class' : (memoryChange event before row).classId = row.classId := by
      rw [memoryChange, recomputes_of_keepsClasses keeps]
      exact memoryColumns_classId event row
    simp only [Option.map_some, Option.filter_none, Option.or_none]
    cases live : row.deleted <;> simp [Option.filter, deleted, class', live]

theorem classId_commit {recordedAt : Timestamp} {source : EventSource}
    {payloads : List EventPayload} {before after : Graph}
    (committed : commit recordedAt source payloads before = .ok after)
    (keeps : ∀ payload ∈ payloads, keepsClasses payload = true) (id : MemoryId) :
    after.classId id = before.classId id :=
  commit_induction (motive := fun graph => graph.classId id = before.classId id)
    (fun payload member _ _ applied earlier =>
      (classId_apply applied (keeps payload member) id).trans earlier)
    committed rfl

theorem classOf_commit {recordedAt : Timestamp} {source : EventSource}
    {payloads : List EventPayload} {before after : Graph}
    (committed : commit recordedAt source payloads before = .ok after)
    (keeps : ∀ payload ∈ payloads, keepsClasses payload = true) :
    after.classOf = before.classOf := by
  funext id
  rw [classOf, classOf, classId_commit committed keeps id]

end Graph

/-! ### Who an entry is shown to -/

/-- Whether a teller's posture reaches an audience through the memory it is read from. -/
def Reaches (graph : Graph) (memory : MemoryView) (presentSet : List MemoryId) (teller : Teller)
    (posture : Visibility) : Prop :=
  Passes (blockClassOf graph) (subjectParticipant memory.name memory.id) presentSet
    (.founding teller none ⟨0⟩ posture)

/-- Whether an entry is live. -/
def IsLive (graph : Graph) (entry : EntryId) : Prop :=
  ∃ row ∈ graph.entries, row.entryId = entry ∧ row.supersededBy = none

/-- Whether an entry surfaces to an audience that reads it through a memory. -/
def Shown (graph : Graph) (memory : MemoryView) (presentSet : List MemoryId) (entry : EntryId) :
    Prop :=
  ∃ row ∈ graph.entries, row.entryId = entry ∧
    Surfaces (blockClassOf graph) (entryFromRow graph .live row) memory presentSet

/-- A property of the verdict an identity lookup may fail to reach is decidable. -/
def decidableVerdict {ε : Type} (outcome : Except ε VisibilityDecision) :
    Decidable (∃ verdict, outcome = .ok verdict ∧ verdict.isVisible = true) :=
  match outcome with
  | .error _ => .isFalse fun ⟨_, reached, _⟩ => nomatch reached
  | .ok verdict =>
    if visible : verdict.isVisible = true then .isTrue ⟨verdict, rfl, visible⟩
    else .isFalse fun ⟨_, reached, shown⟩ => visible (Except.ok.inj reached ▸ shown)

instance (graph : Graph) (memory : MemoryView) (presentSet : List MemoryId) (teller : Teller)
    (posture : Visibility) : Decidable (Reaches graph memory presentSet teller posture) :=
  decidableVerdict _

instance (graph : Graph) (memory : MemoryView) (presentSet : List MemoryId) (entry : EntryId) :
    Decidable (Shown graph memory presentSet entry) :=
  have (row : EntryRow) : Decidable (Surfaces (blockClassOf graph) (entryFromRow graph .live row)
      memory presentSet) := decidableVerdict _
  inferInstanceAs (Decidable (∃ row ∈ graph.entries.rows, row.entryId = entry ∧
    Surfaces (blockClassOf graph) (entryFromRow graph .live row) memory presentSet))

section Shown

variable {graph other : Graph} {memory : MemoryView} {presentSet : List MemoryId}

theorem reaches_congr (same : graph.classOf = other.classOf) {teller : Teller}
    {posture : Visibility} :
    Reaches graph memory presentSet teller posture ↔ Reaches other memory presentSet teller posture := by
  unfold Reaches blockClassOf
  rw [same]

theorem reaches_of_isAllAudience {teller : Teller} {posture : Visibility}
    (open' : isAllAudience posture = true) : Reaches graph memory presentSet teller posture := by
  cases posture with
  | «public» => exact ⟨.public, rfl, rfl⟩
  | attributed => exact ⟨.attributed, rfl, rfl⟩
  | privateToTeller | exclude => cases open'

theorem shown_iff (endorsed : Endorsed graph) {entry : EntryId} :
    Shown graph memory presentSet entry ↔
      IsLive graph entry ∧ ∃ teller posture, graph.standing entry teller = some posture ∧
        Reaches graph memory presentSet teller posture := by
  -- on a live row the audience reads the endorsements that stand, and no others
  have surfacing : ∀ row ∈ graph.entries, row.supersededBy = none →
      (Surfaces (blockClassOf graph) (entryFromRow graph .live row) memory presentSet ↔
        ∃ teller posture, graph.standing row.entryId teller = some posture ∧
          Reaches graph memory presentSet teller posture) := by
    intro row member live
    have cleared : probe (entryFromRow graph .live row) = entryFromRow graph .live row := by
      simp [probe, entryFromRow, live]
    rw [← cleared, surfaces_live_iff endorsed member live]
    constructor
    · rintro ⟨view, viewMem, stands, passes⟩
      have listed : view ∈ attestationsFor graph row.entryId .live :=
        mem_live_attestations.mpr ⟨viewMem, stands⟩
      exact ⟨view.teller, view.posture, exists_live_attestation_iff.mp ⟨view, listed, rfl, rfl⟩,
        passes⟩
    · rintro ⟨teller, posture, stands, reaches⟩
      obtain ⟨view, listed, rfl, rfl⟩ := exists_live_attestation_iff.mpr stands
      obtain ⟨kept, live⟩ := mem_live_attestations.mp listed
      exact ⟨view, kept, live, reaches⟩
  constructor
  · rintro ⟨row, member, rfl, surfaces⟩
    -- a superseded row is explained as superseded, whatever stands on it
    have live : row.supersededBy = none := by
      obtain ⟨decision, explained, visible⟩ := surfaces
      cases superseded : row.supersededBy with
      | none => rfl
      | some =>
        simp only [explain, entryFromRow, superseded, Option.isSome_some, if_true,
          Except.ok.injEq] at explained
        subst explained
        cases visible
    exact ⟨⟨row, member, rfl, live⟩, (surfacing row member live).mp surfaces⟩
  · rintro ⟨⟨row, member, rfl, live⟩, reaching⟩
    exact ⟨row, member, rfl, (surfacing row member live).mpr reaching⟩

end Shown

end Zuihitsu
