/-
# What may be distilled into public prose

Descriptions and inferred links are read by everybody, so both passes are fed only
entries whose visibility column is public. The column never changes and the
endorsements behind the entry do. The main result says when the two part: every
entry fed stays publicly endorsed along a run exactly when no step narrows or
withdraws the one public endorsement of an entry that stays live.
-/

import Zuihitsu.Block.Liveness
import Zuihitsu.Block.Pending
import Zuihitsu.Describe.Staleness

namespace Zuihitsu.Describe

open Zuihitsu.Core Zuihitsu.Graph Zuihitsu.Library Zuihitsu.MemoryBlock

/-- The entries link inference shows the model for a memory. -/
def inferenceEntries (graph : Graph) (id : MemoryId) : List EntryView :=
  match graph.memoryById id with
  | none => []
  | some _ => (graph.classEntries id).filter fun entry => entry.visibility = .public

/-- An entry with a standing endorsement that is public. -/
def PubliclyEndorsed (graph : Graph) (entry : EntryId) : Prop :=
  ∃ teller, graph.standing entry teller = some .public

/-- Every entry the passes are fed is publicly endorsed as it is read, and surfaces
to every audience. -/
def FedOpenly (graph : Graph) : Prop :=
  ∀ id, ∀ view ∈ publicEntries graph id ++ inferenceEntries graph id,
    (∃ attestation ∈ view.attestations, attestation.Live ∧ attestation.posture = .public) ∧
      ∀ memory presentSet, Surfaces (blockClassOf graph) view memory presentSet

/-- A live entry, told openly, of a live memory: what some pass is fed. -/
def Offered (graph : Graph) (entry : EntryId) : Prop :=
  ∃ row ∈ graph.entries, row.entryId = entry ∧ row.supersededBy = none ∧
    row.visibility = .public ∧ (graph.liveRow row.memoryId).isSome = true

/-- The endorsement an event narrows or withdraws. -/
def narrowed : EventPayload → Option (EntryId × Teller)
  | .entryAttested _ entry teller _ _ posture _ _ _ =>
    if posture = .public then none else some (entry, teller)
  | .attestationRetracted _ entry teller _ _ => some (entry, teller)
  | _ => none

/-- An event takes the one public endorsement of an entry the passes are fed, and
leaves the entry live. -/
def ClosesOffered (graph : Graph) (payload : EventPayload) : Prop :=
  ∃ entry teller, Offered graph entry ∧ ¬Retires graph entry payload ∧
    narrowed payload = some (entry, teller) ∧ graph.standing entry teller = some .public ∧
    ∀ other, graph.standing entry other = some .public → other = teller

section Feed

variable {graph : Graph} {entry : EntryId}

theorem inferenceEntries_sub {id : MemoryId} {view : EntryView}
    (member : view ∈ inferenceEntries graph id) : view ∈ publicEntries graph id := by
  unfold inferenceEntries at member
  split at member
  · cases member
  · exact member

theorem offered_iff : Offered graph entry ↔ ∃ id, Feeds graph id entry := by
  simp only [feeds_iff]
  constructor
  · rintro ⟨row, member, owner, live, open_, memoryLive⟩
    exact ⟨row.memoryId, row, member, owner, inClass_self memoryLive, live, open_⟩
  · rintro ⟨id, row, member, owner, inClass, live, open_⟩
    exact ⟨row, member, owner, live, open_, live_of_inClass inClass⟩

theorem surfaces_of_public {view : EntryView} (live : view.supersededBy = none)
    {attestation : AttestationView} (listed : attestation ∈ view.attestations)
    (stands : attestation.Live) (open_ : attestation.posture = .public) (memory : MemoryView)
    (presentSet : List MemoryId) : Surfaces (blockClassOf graph) view memory presentSet := by
  have passes : Passes (blockClassOf graph) (subjectParticipant memory.name memory.id) presentSet
      attestation := ⟨.public, by simp [explainAttestation, open_], rfl⟩
  refine (surfaces_iff (List.ne_nil_of_mem listed)).mpr ⟨live, fun other _ => ?_, .inl ?_⟩
  · exact resolves_of_total (blockClassOf_total graph) _ _ other
  · exact ⟨attestation, listed, stands, passes⟩

theorem fedOpenly_iff :
    FedOpenly graph ↔ ∀ entry, Offered graph entry → PubliclyEndorsed graph entry := by
  constructor
  · intro openly entry offered
    obtain ⟨id, view, listed, rfl⟩ := offered_iff.mp offered
    obtain ⟨⟨attestation, member, _, open_⟩, _⟩ := openly id view (List.mem_append_left _ listed)
    obtain ⟨inClass, _⟩ := List.mem_filter.mp listed
    obtain ⟨row, _, rfl⟩ := List.mem_map.mp inClass
    exact ⟨attestation.teller,
      exists_live_attestation_iff.mp ⟨attestation, member, rfl, open_⟩⟩
  · intro endorsed id view listed
    have listed : view ∈ publicEntries graph id := by
      rcases List.mem_append.mp listed with listed | listed
      · exact listed
      · exact inferenceEntries_sub listed
    obtain ⟨teller, stands⟩ := endorsed view.entryId (offered_iff.mpr ⟨id, view, listed, rfl⟩)
    obtain ⟨inClass, _⟩ := List.mem_filter.mp listed
    obtain ⟨row, rowMem, rfl⟩ := List.mem_map.mp inClass
    obtain ⟨_, matching⟩ := mem_entryRowsWhere.mp rowMem
    rw [Bool.and_eq_true, Option.isNone_iff_eq_none] at matching
    obtain ⟨attestation, member, _, open_⟩ := exists_live_attestation_iff.mpr stands
    have live := (mem_live_attestations.mp member).2
    exact ⟨⟨attestation, member, live, open_⟩,
      surfaces_of_public matching.2 member live open_⟩

end Feed

/-! ### What one event does to the public endorsements -/

section Step

variable {event : Event} {before after : Graph} {entry : EntryId} {teller : Teller}

theorem heldAfter_public {payload : EventPayload} (kept : narrowed payload ≠ some (entry, teller))
    (unretracted : ∀ memory reason producedBy,
      payload ≠ .entryRetracted memory entry reason producedBy)
    (unappended : appended payload ≠ some entry) :
    heldAfter entry teller (some .public) payload = some .public := by
  cases payload with
  | memoryContentAppended id added assertedAt occurredAt text toldBy toldIn visibility =>
    have other : added ≠ entry := by simpa [appended] using unappended
    simp [heldAfter, other]
  | entryAttested memory attested by' toldIn assertedAt posture phrasing sourceEntry producedBy =>
    simp only [heldAfter]
    split
    · rename_i same
      by_contra narrower
      have narrower : posture ≠ .public := fun open_ => narrower (congrArg some open_)
      exact kept (by simp [narrowed, narrower, same])
    · rfl
  | entryRetracted memory retracted reason producedBy =>
    have other : retracted ≠ entry := fun same => unretracted _ _ _ (by rw [same])
    simp [heldAfter, other]
  | attestationRetracted =>
    simp only [heldAfter]
    rw [if_neg fun same => kept (by rw [narrowed, same])]
  | _ => rfl

theorem standing_public_of_narrowed {payload : EventPayload} {other : Teller}
    {held : Option Visibility} (narrows : narrowed payload = some (entry, teller))
    (stands : heldAfter entry other held payload = some .public) :
    held = some .public ∧ other ≠ teller := by
  unfold narrowed at narrows
  split at narrows
  · split at narrows
    · cases narrows
    · rename_i narrower
      cases narrows
      simp only [heldAfter] at stands
      split at stands
      · exact absurd (Option.some.inj stands) narrower
      · rename_i different
        exact ⟨stands, fun same => different (by rw [same])⟩
  · cases narrows
    simp only [heldAfter] at stands
    split at stands
    · cases stands
    · rename_i different
      exact ⟨stands, fun same => different (by rw [same])⟩
  · cases narrows

theorem memory_live_before (reachable : Reachable before) (applied : apply event before = .ok after)
    {row : EntryRow} (member : row ∈ before.entries)
    (live : (after.liveRow row.memoryId).isSome = true) :
    (before.liveRow row.memoryId).isSome = true := by
  obtain ⟨memory, found⟩ := Option.isSome_iff_exists.mp live
  rcases liveRow_of_apply applied found with ⟨earlier, wasLive, _⟩ | ⟨absent, _, _⟩
  · simp [wasLive]
  · -- the memory was there before any entry of it
    obtain ⟨owner, ownerMem, same, _⟩ := reachable.dated.behind row member
    exact absurd same (Table.find_eq_none_iff.mp absent owner ownerMem)

theorem offered_of_apply (reachable : Reachable before) (applied : apply event before = .ok after)
    (offered : Offered after entry) :
    (Offered before entry ∧ ¬Retires before entry event.payload) ∨
      (appendedRow event before).any (fun row => row.entryId = entry && row.visibility = .public) =
        true := by
  obtain ⟨row, member, rfl, live, open_, memoryLive⟩ := offered
  rcases (mem_entries_apply applied).mp member with ⟨old, oldMem, rfl⟩ | appends
  · have oldLive := live_of_entryChange_live live
    simp only [entryChange_entryId, entryChange_visibility, entryChange_memoryId] at *
    refine .inl ⟨⟨old, oldMem, rfl, oldLive, open_, ?_⟩, (entryChange_live_iff oldLive).mp live⟩
    exact memory_live_before reachable applied oldMem memoryLive
  · exact .inr (by simp [appends, open_])

theorem Offered.apply (applied : apply event before = .ok after) (offered : Offered before entry)
    (narrows : narrowed event.payload ≠ none) (kept : ¬Retires before entry event.payload) :
    Offered after entry := by
  have keeps : keepsClasses event.payload = true := by
    unfold narrowed at narrows
    split at narrows
    · rename_i payload
      rw [payload]
      rfl
    · rename_i payload
      rw [payload]
      rfl
    · exact absurd rfl narrows
  obtain ⟨row, member, rfl, live, open_, memoryLive⟩ := offered
  refine ⟨_, (mem_entries_apply applied).mpr (.inl ⟨row, member, rfl⟩), entryChange_entryId row,
    (entryChange_live_iff live).mpr kept, ?_, ?_⟩
  · rw [entryChange_visibility]
    exact open_
  · have same : (after.classId row.memoryId).isSome = (before.classId row.memoryId).isSome := by
      rw [classId_apply applied keeps]
    simpa [classId, entryChange_memoryId, memoryLive] using same

theorem publiclyEndorsed_of_appended (applied : apply event before = .ok after)
    (appends : (appendedRow event before).any (fun row =>
      row.entryId = entry && row.visibility = .public) = true) :
    PubliclyEndorsed after entry := by
  unfold appendedRow at appends
  split at appends
  · rename_i id added assertedAt occurredAt text toldBy toldIn visibility payload
    simp only [Option.any_some, appendedEntry, Bool.and_eq_true, decide_eq_true_eq] at appends
    obtain ⟨rfl, rfl⟩ := appends
    exact ⟨toldBy, by rw [standing_apply applied, payload]; simp [heldAfter]⟩
  · cases appends

theorem endorsed_step_iff (reachable : Reachable before) (folds : Folds before event after)
    (endorsed : ∀ entry, Offered before entry → PubliclyEndorsed before entry) :
    (∀ entry, Offered after entry → PubliclyEndorsed after entry) ↔
      ¬ClosesOffered before event.payload := by
  obtain ⟨_, applied⟩ := folds
  constructor
  · rintro keeps ⟨entry, teller, offered, stays, narrows, _, last⟩
    have still := offered.apply applied (by simp [narrows]) stays
    obtain ⟨other, stands⟩ := keeps entry still
    rw [standing_apply applied] at stands
    obtain ⟨before, different⟩ := standing_public_of_narrowed narrows stands
    exact different (last other before)
  · intro spared entry offered
    rcases offered_of_apply reachable applied offered with ⟨wasOffered, kept⟩ | appends
    · obtain ⟨teller, stood⟩ := endorsed entry wasOffered
      have unretracted : ∀ memory reason producedBy,
          event.payload ≠ .entryRetracted memory entry reason producedBy := by
        intro memory reason producedBy payload
        rw [payload] at kept
        exact kept rfl
      have unappended : appended event.payload ≠ some entry := by
        intro appends
        obtain ⟨row, member, rfl, _⟩ := wasOffered
        have absent := absent_of_appended applied appends
        rw [Table.contains_of_mem member] at absent
        cases absent
      -- the teller who is not narrowed stands publicly, as before
      have keeps : ∀ other, before.standing entry other = some .public →
          narrowed event.payload ≠ some (entry, other) → PubliclyEndorsed after entry := by
        intro other stands unnarrowed
        refine ⟨other, ?_⟩
        rw [standing_apply applied, stands]
        exact heldAfter_public unnarrowed unretracted unappended
      by_cases narrows : narrowed event.payload = some (entry, teller)
      · have another : ∃ other, before.standing entry other = some .public ∧ other ≠ teller := by
          by_contra none
          refine spared ⟨entry, teller, wasOffered, kept, narrows, stood, fun other stands => ?_⟩
          by_contra different
          exact none ⟨other, stands, different⟩
        obtain ⟨other, stands, different⟩ := another
        refine keeps other stands fun same => different ?_
        rw [narrows] at same
        exact (Prod.mk.inj (Option.some.inj same)).2.symm
      · exact keeps teller stood narrows
    · exact publiclyEndorsed_of_appended applied appends

end Step

/-- Along every run the passes are fed openly in every graph it visits exactly when no
step of it takes the one public endorsement of an entry on offer. -/
theorem fedOpenly_iff_kept (events : List Event) (final : Graph) :
    (∀ graph, Trace.Visits Folds Graph.fresh events final graph → FedOpenly graph) ↔
      ∀ before event after, Trace.Takes Folds Graph.fresh events final before event after →
        ¬ClosesOffered before event.payload := by
  refine Trace.visited_iff_taken Reachable FedOpenly
    (fun before (event : Event) => ¬ClosesOffered before event.payload) .fresh ?_ ?_ ?_
  · rw [fedOpenly_iff]
    rintro entry ⟨row, member, _⟩
    cases member
  · exact fun before event after folds reachable => reachable.step folds
  · intro before event after folds reachable openly
    rw [fedOpenly_iff] at openly ⊢
    exact endorsed_step_iff reachable folds openly

/-! A person takes an open remark back into confidence. -/

namespace Remark

def told : List EventPayload :=
  [.memoryCreated ⟨1⟩ ⟨"person/ana"⟩, .memoryCreated ⟨2⟩ ⟨"topic/launch"⟩,
    .memoryContentAppended ⟨2⟩ ⟨1⟩ ⟨0⟩ none "the launch slips" (.participant ⟨1⟩) none .public]

def openly : Graph := ((commit ⟨0⟩ .agent told Graph.fresh).toOption).getD Graph.fresh

def confiding : Event :=
  ⟨4, ⟨1⟩, .agent, .entryAttested ⟨2⟩ ⟨1⟩ (.participant ⟨1⟩) none ⟨1⟩ .privateToTeller none none none⟩

def confided : Graph := ((Graph.apply confiding openly).toOption).getD openly

theorem openly_reachable : Reachable openly := by
  have committed : commit ⟨0⟩ .agent told Graph.fresh = .ok openly := rfl
  exact Reachable.fresh.commit committed

theorem confiding_folds : Folds openly confiding confided := ⟨rfl, rfl⟩

/-- The passes are still fed the remark, which is hidden from an empty room. -/
theorem confided_remark_fed :
    Reachable confided ∧ Feeds confided ⟨2⟩ ⟨1⟩ ∧
      (∃ view ∈ inferenceEntries confided ⟨2⟩, view.entryId = ⟨1⟩) ∧
      ¬Shown confided ⟨⟨2⟩, ⟨"topic/launch"⟩, "", .medium, ⟨0⟩, []⟩ [] ⟨1⟩ ∧
      ¬PubliclyEndorsed confided ⟨1⟩ ∧ ¬FedOpenly confided := by
  have unendorsed : ¬PubliclyEndorsed confided ⟨1⟩ := by
    rintro ⟨teller, stands⟩
    obtain ⟨row, member, _, _, posture⟩ := standing_eq_some.mp stands
    have closed : ∀ row ∈ confided.attestations, row.posture ≠ .public := by decide
    exact closed row member posture
  have fed : Feeds confided ⟨2⟩ ⟨1⟩ := by
    unfold Feeds
    decide
  refine ⟨openly_reachable.step confiding_folds, fed, by decide, by decide, unendorsed, fun openly => ?_⟩
  exact unendorsed (fedOpenly_iff.mp openly ⟨1⟩ (offered_iff.mpr ⟨⟨2⟩, fed⟩))

end Remark

end Zuihitsu.Describe
