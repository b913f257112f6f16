/-
# The subject guard

An aside about a person never reaches that person. The guard is checked for each
attestation with its own teller, and the verdict is the widest over all of them,
so what keeps a present subject from an entry is that every attestation is a
confidence of somebody else. A view that lists no attestation is judged by its
founding one, which therefore belongs to the set the guard speaks of.
-/

import Zuihitsu.Visibility

namespace Zuihitsu

open Zuihitsu.Core Zuihitsu.Graph Zuihitsu.Library

/-! ### Confidences -/

/-- Whether a posture surfaces only in front of its teller. -/
def isConfidence : Visibility → Bool
  | .privateToTeller | .exclude _ => true
  | .public | .attributed => false

/-- Two memories that a resolver puts in one identity class. -/
def SameClass {ε : Type} (classOf : ClassOf ε) (first second : MemoryId) : Prop :=
  ∃ identity, classOf first = .ok identity ∧ classOf second = .ok identity

section Guard

variable {ε : Type} {classOf : ClassOf ε} {presentSet : List MemoryId}

theorem not_sameClass_of_absent {entity : MemoryId}
    (absent : isPresent classOf entity presentSet = .ok false) :
    ∀ present ∈ presentSet, ¬SameClass classOf present entity := by
  obtain ⟨target, resolved, searched⟩ := bind_eq_ok.mp absent
  induction presentSet with
  | nil => simp
  | cons present rest ih =>
    simp only [List.anyM] at searched
    obtain ⟨found, looked, remaining⟩ := bind_eq_ok.mp searched
    obtain ⟨identity, own, answer⟩ := bind_eq_ok.mp looked
    cases answer
    -- the search stops at the first member of the class, so this one is not
    have other : identity ≠ target := by
      intro same
      simp only [same, decide_true] at remaining
      cases remaining
    simp only [other, decide_false] at remaining
    have below : isPresent classOf entity rest = .ok false := by
      simpa only [isPresent, resolved, bind, Except.bind] using remaining
    intro attending member shared
    rcases List.mem_cons.mp member with rfl | later
    · obtain ⟨common, here, there⟩ := shared
      rw [own] at here
      rw [resolved] at there
      cases here
      cases there
      exact other rfl
    · exact ih below remaining attending later shared

theorem teller_of_unblocked {subject : MemoryId} {teller : Teller}
    (present : ∃ member ∈ presentSet, SameClass classOf member subject)
    (unblocked : subjectBlocks classOf (some subject) teller presentSet = .ok false) :
    ∃ participant, teller = .participant participant ∧ SameClass classOf participant subject := by
  obtain ⟨own, answered, remaining⟩ := bind_eq_ok.mp unblocked
  cases own with
  | false =>
    -- somebody else told it, so the guard looked for the subject and found nobody
    obtain ⟨member, attends, shared⟩ := present
    exact absurd shared (not_sameClass_of_absent remaining member attends)
  | true =>
    cases teller with
    | participant participant =>
      obtain ⟨identity, resolved, answered⟩ := bind_eq_ok.mp answered
      obtain ⟨subjectIdentity, subjectResolved, answered⟩ := bind_eq_ok.mp answered
      have same : identity = subjectIdentity := by
        simpa [pure, Except.pure] using answered
      subst same
      exact ⟨participant, rfl, identity, resolved, subjectResolved⟩
    | agent | bootstrap => cases answered

theorem teller_of_passes {attestation : AttestationView} {subject : MemoryId}
    (closed : isConfidence attestation.posture = true)
    (present : ∃ member ∈ presentSet, SameClass classOf member subject)
    (passes : Passes classOf (some subject) presentSet attestation) :
    ∃ participant, attestation.teller = .participant participant ∧
      SameClass classOf participant subject := by
  obtain ⟨verdict, explained, visible⟩ := passes
  -- each confidence ends at the guard, unless an earlier check has hidden it
  suffices unblocked :
      subjectBlocks classOf (some subject) attestation.teller presentSet = .ok false from
    teller_of_unblocked present unblocked
  cases posture : attestation.posture with
  | «public» | attributed => rw [posture] at closed; cases closed
  | privateToTeller =>
    simp only [explainAttestation, posture] at explained
    obtain ⟨heard, _, explained⟩ := bind_eq_ok.mp explained
    cases heard with
    | false => cases explained; cases visible
    | true =>
      obtain ⟨blocks, guarded, explained⟩ := bind_eq_ok.mp explained
      cases blocks with
      | false => exact guarded
      | true => cases explained; cases visible
  | exclude =>
    simp only [explainAttestation, posture] at explained
    obtain ⟨heard, _, explained⟩ := bind_eq_ok.mp explained
    cases heard with
    | false => cases explained; cases visible
    | true =>
      obtain ⟨clear, _, explained⟩ := bind_eq_ok.mp explained
      cases clear with
      | false => cases explained; cases visible
      | true =>
        obtain ⟨blocks, guarded, explained⟩ := bind_eq_ok.mp explained
        cases blocks with
        | false => exact guarded
        | true => cases explained; cases visible

/-! ### What the guard takes away -/

theorem Passes.unguarded {attestation : AttestationView} {subject : Option MemoryId}
    (passes : Passes classOf subject presentSet attestation) :
    Passes classOf none presentSet attestation := by
  obtain ⟨verdict, explained, visible⟩ := passes
  unfold Passes explainAttestation
  cases posture : attestation.posture with
  | «public» | attributed => exact ⟨_, rfl, rfl⟩
  | privateToTeller =>
    simp only [explainAttestation, posture] at explained
    obtain ⟨heard, answered, explained⟩ := bind_eq_ok.mp explained
    cases heard with
    | false => cases explained; cases visible
    | true => exact ⟨.tellerPresent, by simp [answered, subjectBlocks, bind, Except.bind, pure,
        Except.pure], rfl⟩
  | exclude =>
    simp only [explainAttestation, posture] at explained
    obtain ⟨heard, answered, explained⟩ := bind_eq_ok.mp explained
    cases heard with
    | false => cases explained; cases visible
    | true =>
      obtain ⟨clear, searched, explained⟩ := bind_eq_ok.mp explained
      cases clear with
      | false => cases explained; cases visible
      | true => exact ⟨.notExcluded, by simp [answered, searched, subjectBlocks, bind, Except.bind,
          pure, Except.pure], rfl⟩

theorem subjectBlocks_congr {first second : MemoryId} (same : classOf first = classOf second)
    (teller : Teller) :
    subjectBlocks classOf (some first) teller presentSet =
      subjectBlocks classOf (some second) teller presentSet := by
  have told : tellerIs classOf first teller = tellerIs classOf second teller := by
    cases teller with
    | participant => simp only [tellerIs, same]
    | agent | bootstrap => rfl
  simp only [subjectBlocks, isPresent, told, same]

theorem passes_congr {attestation : AttestationView} {first second : MemoryId} (same : classOf first = classOf second) :
    Passes classOf (some first) presentSet attestation ↔
      Passes classOf (some second) presentSet attestation := by
  unfold Passes explainAttestation
  rw [subjectBlocks_congr same]

/-! ### Entries that are nothing but confidences -/

theorem effectiveAttestations_ne_nil (entry : EntryView) : effectiveAttestations entry ≠ [] := by
  unfold effectiveAttestations
  split
  · exact List.cons_ne_nil _ _
  · rename_i listed
    simpa using listed

theorem surfaces_iff_effective {entry : EntryView} {memory : MemoryView} :
    Surfaces classOf entry memory presentSet ↔
      entry.supersededBy = none ∧
        (∀ attestation ∈ effectiveAttestations entry,
          Resolves classOf (subjectParticipant memory.name memory.id) presentSet attestation) ∧
        ((∃ attestation ∈ effectiveAttestations entry, attestation.Live ∧
            Passes classOf (subjectParticipant memory.name memory.id) presentSet attestation) ∨
          ∃ founding ∈ (effectiveAttestations entry).head?,
            Passes classOf (subjectParticipant memory.name memory.id) presentSet founding) := by
  unfold Surfaces explain
  cases entry.supersededBy with
  | some => simp [VisibilityDecision.isVisible]
  | none =>
    obtain ⟨founding, rest, listed⟩ :=
      List.exists_cons_of_ne_nil (effectiveAttestations_ne_nil entry)
    simp only [Option.isSome_none, Bool.false_eq_true, if_false, listed, true_and]
    rw [explainFrom_start_visible_iff]
    simp

theorem passes_of_surfaces {entry : EntryView} {memory : MemoryView}
    (surfaces : Surfaces classOf entry memory presentSet) :
    ∃ attestation ∈ effectiveAttestations entry,
      Passes classOf (subjectParticipant memory.name memory.id) presentSet attestation := by
  obtain ⟨_, _, passing⟩ := surfaces_iff_effective.mp surfaces
  -- a withdrawn founding attestation can answer too, and it passes all the same
  rcases passing with ⟨attestation, member, _, passes⟩ | ⟨founding, isFounding, passes⟩
  · exact ⟨attestation, member, passes⟩
  · exact ⟨founding, List.mem_of_mem_head? isFounding, passes⟩

/-- In front of its subject, an entry that is a confidence of everybody who stands
behind it surfaces only if the subject is one of them. -/
theorem subject_sees_only_own_confidences {entry : EntryView} {memory : MemoryView}
    (person : subjectParticipant memory.name memory.id = some memory.id)
    (closed : ∀ attestation ∈ effectiveAttestations entry,
      isConfidence attestation.posture = true)
    (present : ∃ member ∈ presentSet, SameClass classOf member memory.id)
    (surfaces : Surfaces classOf entry memory presentSet) :
    ∃ attestation ∈ effectiveAttestations entry, ∃ participant,
      attestation.teller = .participant participant ∧
        SameClass classOf participant memory.id := by
  obtain ⟨attestation, member, passes⟩ := passes_of_surfaces surfaces
  rw [person] at passes
  exact ⟨attestation, member, teller_of_passes (closed attestation member) present passes⟩

end Guard

/-! Views of what is said about a person who is present. -/

/-- A person. -/
def ines : MemoryView := ⟨⟨1⟩, ⟨"person/ines"⟩, "", .medium, ⟨0⟩, []⟩

/-- What somebody else openly said of them, with the attestations a view lists. -/
def saidOfInes (attestations : List AttestationView) : EntryView :=
  ⟨⟨1⟩, ⟨0⟩, none, none, false, "Ines is leaving", .participant ⟨2⟩, none, .public, none, none,
    .recorded, attestations⟩

/-- The resolver of a graph in which nobody is merged. -/
def unmerged : ClassOf Violation := .ok

/-- A confidence of a participant's. -/
def confided (participant : MemoryId) : AttestationView :=
  .founding (.participant participant) none ⟨0⟩ .privateToTeller

/-- Every attestation listed is a standing confidence, because none is; the view is
judged by its open founding attestation, and it surfaces in front of the subject. -/
theorem unlisted_aside_surfaces :
    (∀ attestation ∈ (saidOfInes []).attestations,
        attestation.Live ∧ isConfidence attestation.posture = true) ∧
      (∃ member ∈ [ines.id], SameClass unmerged member ines.id) ∧
      Surfaces unmerged (saidOfInes []) ines [ines.id] ∧
      ¬∃ attestation ∈ (saidOfInes []).attestations, ∃ participant,
        attestation.teller = .participant participant ∧
          SameClass unmerged participant ines.id := by
  refine ⟨?_, ⟨ines.id, List.mem_singleton_self _, ines.id, rfl, rfl⟩, ⟨.public, rfl, rfl⟩, ?_⟩
  · intro attestation member
    cases member
  · rintro ⟨attestation, member, _⟩
    cases member

/-- What Ines confides about herself surfaces in front of her, and it is hers, as the
general result has it. -/
theorem subject_sees_only_own_confidences_ines :
    ∃ attestation ∈ effectiveAttestations (saidOfInes [confided ⟨2⟩, confided ⟨1⟩]),
      ∃ participant, attestation.teller = .participant participant ∧
        SameClass unmerged participant ines.id :=
  subject_sees_only_own_confidences rfl (by decide)
    ⟨ines.id, List.mem_singleton_self _, ines.id, rfl, rfl⟩ ⟨.tellerPresent, rfl, rfl⟩

end Zuihitsu
