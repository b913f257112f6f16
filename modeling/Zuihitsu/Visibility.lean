/-
# The read-time visibility predicate

Whether a content entry may be surfaced to the people currently present. An
entry carries a set of attestations, each a teller and a posture; its verdict is
the widest passing verdict over the live ones, and the founding attestation's
own verdict when none passes. Identity resolves over the identity class through
an injected resolver, which may fail.
-/

import Zuihitsu.Graph.Reads

namespace Zuihitsu

open Zuihitsu.Core Zuihitsu.Graph Zuihitsu.Library

/-- Resolves a memory to its identity class. -/
abbrev ClassOf (ε : Type) := MemoryId → Except ε MemoryId

/-- Why an entry is or is not visible. -/
inductive VisibilityDecision where
  | «public»
  | attributed
  | tellerPresent
  | notExcluded
  | superseded
  | tellerAbsent
  | subjectPresent
  | excludeePresent
  deriving DecidableEq, Repr

namespace VisibilityDecision

/-- Whether the verdict surfaces the entry. -/
def isVisible : VisibilityDecision → Bool
  | .public | attributed | tellerPresent | notExcluded => true
  | superseded | tellerAbsent | subjectPresent | excludeePresent => false

/-- The audience breadth of a visible verdict. -/
def widthRank : VisibilityDecision → Nat
  | .public => 4
  | attributed => 3
  | tellerPresent => 2
  | notExcluded => 1
  | _ => 0

/-- The wider of two visible verdicts. -/
def wider (first second : VisibilityDecision) : VisibilityDecision :=
  if second.widthRank ≤ first.widthRank then first else second

theorem isVisible_wider {first second : VisibilityDecision} (firstVisible : first.isVisible = true)
    (secondVisible : second.isVisible = true) : (wider first second).isVisible = true := by
  unfold wider
  split
  · exact firstVisible
  · exact secondVisible

end VisibilityDecision

section Predicate

variable {ε : Type} (classOf : ClassOf ε)

/-- The participant a memory is about: the memory itself, for a person. -/
def subjectParticipant (name : MemoryName) (id : MemoryId) : Option MemoryId :=
  if (name.namespaced.map (·.namespaceOf)) = some .person then some id else none

/-- Whether some member of an entity's class is present. -/
def isPresent (entity : MemoryId) (presentSet : List MemoryId) : Except ε Bool := do
  let target ← classOf entity
  presentSet.anyM fun present => do return (← classOf present) = target

/-- Whether a teller is present. The agent always is, and genesis never. -/
def tellerPresent (teller : Teller) (presentSet : List MemoryId) : Except ε Bool :=
  match teller with
  | .agent => .ok true
  | .participant id => isPresent classOf id presentSet
  | .bootstrap => .ok false

/-- Whether a teller is the participant `subject`. -/
def tellerIs (subject : MemoryId) (teller : Teller) : Except ε Bool :=
  match teller with
  | .participant id => do return (← classOf id) = (← classOf subject)
  | _ => .ok false

/-- Whether a present subject suppresses an aside about them. -/
def subjectBlocks (subject : Option MemoryId) (teller : Teller) (presentSet : List MemoryId) :
    Except ε Bool :=
  match subject with
  | none => .ok false
  | some subject => do
    -- self-disclosure is no aside
    if ← tellerIs classOf subject teller then return false
    isPresent classOf subject presentSet

/-- Whether no excluded party is present. -/
def noExcludeePresent (excluded : IdSet) (presentSet : List MemoryId) : Except ε Bool :=
  excluded.members.allM fun excludee => do return !(← isPresent classOf excludee presentSet)

/-- One attestation's verdict against the present set. -/
def explainAttestation (attestation : AttestationView) (subject : Option MemoryId)
    (presentSet : List MemoryId) : Except ε VisibilityDecision :=
  match attestation.posture with
  | .public => .ok .public
  | .attributed => .ok .attributed
  | .privateToTeller => do
    if !(← tellerPresent classOf attestation.teller presentSet) then return .tellerAbsent
    if ← subjectBlocks classOf subject attestation.teller presentSet then return .subjectPresent
    return .tellerPresent
  | .exclude excluded => do
    if !(← tellerPresent classOf attestation.teller presentSet) then return .tellerAbsent
    if !(← noExcludeePresent classOf excluded presentSet) then return .excludeePresent
    if ← subjectBlocks classOf subject attestation.teller presentSet then return .subjectPresent
    return .notExcluded

/-- The founding attestation of an entry, from its own fields. -/
def foundingAttestation (entry : EntryView) : AttestationView :=
  .founding entry.toldBy entry.toldIn entry.assertedAt entry.visibility

/-- The set `explain` reasons over: the entry's attestations, or its founding one
when a view was built without any. -/
def effectiveAttestations (entry : EntryView) : List AttestationView :=
  if entry.attestations.isEmpty then [foundingAttestation entry] else entry.attestations

/-- The widest verdict so far, after one more attestation. -/
def widen (widest : Option VisibilityDecision) (attestation : AttestationView)
    (verdict : VisibilityDecision) : Option VisibilityDecision :=
  if attestation.retractedReason.isSome then widest
  else if verdict.isVisible then
    some (match widest with
      | some current => current.wider verdict
      | none => verdict)
  else widest

/-- The loop over an entry's attestations. The verdict at index 0 is the one
returned when nothing passes. -/
def explainFrom (subject : Option MemoryId) (presentSet : List MemoryId) (index : Nat)
    (widest : Option VisibilityDecision) (foundingVerdict : VisibilityDecision) :
    List AttestationView → Except ε VisibilityDecision
  | [] => .ok (widest.getD foundingVerdict)
  | attestation :: rest => do
    let verdict ← explainAttestation classOf attestation subject presentSet
    -- the founding attestation is the first of the list
    let foundingVerdict := if index = 0 then verdict else foundingVerdict
    explainFrom subject presentSet (index + 1) (widen widest attestation verdict)
      foundingVerdict rest

/-- The verdict on an entry of a memory, with its reason. -/
def explain (entry : EntryView) (memory : MemoryView) (presentSet : List MemoryId) :
    Except ε VisibilityDecision :=
  if entry.supersededBy.isSome then .ok .superseded
  else explainFrom classOf (subjectParticipant memory.name memory.id) presentSet 0 none
    .tellerAbsent (effectiveAttestations entry)

/-- Whether an entry may surface to the participants present. -/
def visible (entry : EntryView) (memory : MemoryView) (presentSet : List MemoryId) :
    Except ε Bool := do
  return (← explain classOf entry memory presentSet).isVisible

/-- The live attestations that pass for the present audience. -/
def passingAttestations (subject : Option MemoryId) (presentSet : List MemoryId) :
    List AttestationView → Except ε (List AttestationView)
  | [] => .ok []
  | attestation :: rest => do
    -- a withdrawn account is skipped without resolving its teller
    if attestation.retractedReason.isSome then
      passingAttestations subject presentSet rest
    else
      let verdict ← explainAttestation classOf attestation subject presentSet
      let others ← passingAttestations subject presentSet rest
      return if verdict.isVisible then attestation :: others else others

/-- The visible subset of an entry's attestations. -/
def visibleAttestations (entry : EntryView) (memory : MemoryView) (presentSet : List MemoryId) :
    Except ε (List AttestationView) :=
  if entry.supersededBy.isSome then .ok []
  else passingAttestations classOf (subjectParticipant memory.name memory.id) presentSet
    entry.attestations

end Predicate

/-- The write-time default of an entry told by a teller about a memory. -/
def defaultVisibilityNamed (name : MemoryName) (id : MemoryId) (teller : Teller) : Visibility :=
  match subjectParticipant name id, teller with
  | some subject, .participant tellerId => if tellerId ≠ subject then .privateToTeller else .public
  | _, _ => .public

/-! ### What the loops compute -/

section Loops

variable {ε : Type} {classOf : ClassOf ε} {subject : Option MemoryId} {presentSet : List MemoryId}

/-- An attestation that resolves to a visible verdict. -/
def Passes (classOf : ClassOf ε) (subject : Option MemoryId) (presentSet : List MemoryId)
    (attestation : AttestationView) : Prop :=
  ∃ verdict, explainAttestation classOf attestation subject presentSet = .ok verdict ∧
    verdict.isVisible = true

/-- An attestation whose verdict the identity lookups decide without failing. -/
def Resolves (classOf : ClassOf ε) (subject : Option MemoryId) (presentSet : List MemoryId)
    (attestation : AttestationView) : Prop :=
  ∃ verdict, explainAttestation classOf attestation subject presentSet = .ok verdict

/-- An attestation that has not been withdrawn. -/
def Graph.AttestationView.Live (attestation : AttestationView) : Prop :=
  attestation.retractedReason = none

instance (attestation : AttestationView) : Decidable attestation.Live :=
  inferInstanceAs (Decidable (attestation.retractedReason = none))

/-- The verdicts combined so far are visible ones. -/
def AllVisible (widest : Option VisibilityDecision) : Prop :=
  ∀ verdict ∈ widest, verdict.isVisible = true

theorem allVisible_widen {widest : Option VisibilityDecision} (visible : AllVisible widest)
    (attestation : AttestationView) (verdict : VisibilityDecision) :
    AllVisible (widen widest attestation verdict) := by
  unfold widen
  split
  · exact visible
  · split
    · rename_i passes
      cases widest with
      | none =>
        rintro _ ⟨⟩
        exact passes
      | some current =>
        rintro _ ⟨⟩
        exact VisibilityDecision.isVisible_wider (visible current rfl) passes
    · exact visible

theorem isSome_widen {widest : Option VisibilityDecision} {attestation : AttestationView}
    {verdict : VisibilityDecision} :
    (widen widest attestation verdict).isSome = true ↔
      widest.isSome = true ∨ (attestation.Live ∧ verdict.isVisible = true) := by
  unfold widen Graph.AttestationView.Live
  cases attestation.retractedReason <;> cases verdict.isVisible <;> cases widest <;> simp

theorem explainFrom_visible_iff {index : Nat} (later : index ≠ 0)
    {widest : Option VisibilityDecision} (soFar : AllVisible widest)
    {foundingVerdict : VisibilityDecision} {attestations : List AttestationView} :
    (∃ decision, explainFrom classOf subject presentSet index widest foundingVerdict attestations =
        .ok decision ∧ decision.isVisible = true) ↔
      (∀ attestation ∈ attestations, Resolves classOf subject presentSet attestation) ∧
        (widest.isSome = true ∨
          (∃ attestation ∈ attestations,
            attestation.Live ∧ Passes classOf subject presentSet attestation) ∨
          foundingVerdict.isVisible = true) := by
  induction attestations generalizing index widest with
  | nil =>
    simp only [explainFrom, List.not_mem_nil, false_implies, implies_true, true_and, false_and]
    cases widest with
    | none => simp
    | some current => simp [soFar current rfl]
  | cons attestation rest ih =>
    simp only [explainFrom, List.forall_mem_cons, List.exists_mem_cons_iff]
    cases explained : explainAttestation classOf attestation subject presentSet with
    | error =>
      have stuck : ¬Resolves classOf subject presentSet attestation := by
        rintro ⟨verdict, resolved⟩
        rw [explained] at resolved
        cases resolved
      simp [stuck, bind, Except.bind]
    | ok verdict =>
      have resolves : Resolves classOf subject presentSet attestation := ⟨verdict, explained⟩
      have passes : Passes classOf subject presentSet attestation ↔ verdict.isVisible = true := by
        simp [Passes, explained]
      simp only [bind, Except.bind, if_neg later]
      rw [ih (Nat.succ_ne_zero index) (allVisible_widen soFar attestation verdict), isSome_widen,
        passes]
      simp only [resolves, true_and, or_assoc]

theorem explainFrom_start_visible_iff {founding : AttestationView}
    {attestations : List AttestationView} :
    (∃ decision, explainFrom classOf subject presentSet 0 none .tellerAbsent
        (founding :: attestations) = .ok decision ∧ decision.isVisible = true) ↔
      (∀ attestation ∈ founding :: attestations, Resolves classOf subject presentSet attestation) ∧
        ((∃ attestation ∈ founding :: attestations,
            attestation.Live ∧ Passes classOf subject presentSet attestation) ∨
          Passes classOf subject presentSet founding) := by
  simp only [explainFrom, List.forall_mem_cons, List.exists_mem_cons_iff]
  cases explained : explainAttestation classOf founding subject presentSet with
  | error =>
    have stuck : ¬Resolves classOf subject presentSet founding := by
      rintro ⟨verdict, resolved⟩
      rw [explained] at resolved
      cases resolved
    simp [stuck, bind, Except.bind]
  | ok verdict =>
    have resolves : Resolves classOf subject presentSet founding := ⟨verdict, explained⟩
    have passes : Passes classOf subject presentSet founding ↔ verdict.isVisible = true := by
      simp [Passes, explained]
    have empty : AllVisible none := by rintro _ ⟨⟩
    simp only [bind, Except.bind, if_true]
    rw [explainFrom_visible_iff (Nat.succ_ne_zero 0) (allVisible_widen empty founding verdict),
      isSome_widen, passes]
    simp only [resolves, true_and, Option.isSome_none, Bool.false_eq_true, false_or, or_assoc]

theorem explainFrom_total {attestations : List AttestationView}
    (resolves : ∀ attestation ∈ attestations, Resolves classOf subject presentSet attestation)
    {index : Nat} {widest : Option VisibilityDecision} {foundingVerdict : VisibilityDecision} :
    ∃ decision, explainFrom classOf subject presentSet index widest foundingVerdict attestations =
      .ok decision := by
  induction attestations generalizing index widest foundingVerdict with
  | nil => exact ⟨_, rfl⟩
  | cons attestation rest ih =>
    obtain ⟨verdict, explained⟩ := resolves attestation List.mem_cons_self
    simp only [explainFrom, explained, bind, Except.bind]
    exact ih fun other member => resolves other (List.mem_cons_of_mem _ member)

theorem passingAttestations_total {attestations : List AttestationView}
    (resolves : ∀ attestation ∈ attestations, attestation.Live →
      Resolves classOf subject presentSet attestation) :
    ∃ found, passingAttestations classOf subject presentSet attestations = .ok found := by
  induction attestations with
  | nil => exact ⟨[], rfl⟩
  | cons attestation rest ih =>
    obtain ⟨others, computed⟩ := ih fun other member =>
      resolves other (List.mem_cons_of_mem _ member)
    cases live : attestation.retractedReason with
    | some => exact ⟨others, by simp [passingAttestations, live, computed]⟩
    | none =>
      obtain ⟨verdict, explained⟩ := resolves attestation List.mem_cons_self live
      refine ⟨if verdict.isVisible then attestation :: others else others, ?_⟩
      simp [passingAttestations, live, explained, computed, bind, Except.bind, pure, Except.pure]

theorem passingAttestations_spec {attestations found : List AttestationView}
    (computed : passingAttestations classOf subject presentSet attestations = .ok found) :
    (∀ attestation ∈ attestations, attestation.Live →
        Resolves classOf subject presentSet attestation) ∧
      (found ≠ [] ↔ ∃ attestation ∈ attestations,
        attestation.Live ∧ Passes classOf subject presentSet attestation) := by
  induction attestations generalizing found with
  | nil =>
    cases computed
    simp
  | cons attestation rest ih =>
    simp only [passingAttestations] at computed
    simp only [List.forall_mem_cons, List.exists_mem_cons_iff]
    cases live : attestation.retractedReason with
    | some =>
      have withdrawn : ¬attestation.Live := by simp [AttestationView.Live, live]
      simp only [live, Option.isSome_some, if_true] at computed
      simp only [withdrawn, false_implies, true_and, false_and, false_or]
      exact ih computed
    | none =>
      have isLive : attestation.Live := live
      simp only [live, Option.isSome_none, Bool.false_eq_true, if_false] at computed
      obtain ⟨verdict, explained, remaining⟩ := bind_eq_ok.mp computed
      obtain ⟨others, below, made⟩ := bind_eq_ok.mp remaining
      cases made
      have passes : Passes classOf subject presentSet attestation ↔ verdict.isVisible = true := by
        simp [Passes, explained]
      refine ⟨⟨fun _ => ⟨verdict, explained⟩, (ih below).1⟩, ?_⟩
      rw [← (ih below).2, passes]
      cases verdict.isVisible <;> simp [isLive]

theorem passingAttestations_nonempty_iff {attestations : List AttestationView} :
    (∃ found, passingAttestations classOf subject presentSet attestations = .ok found ∧
        found ≠ []) ↔
      (∀ attestation ∈ attestations, attestation.Live →
        Resolves classOf subject presentSet attestation) ∧
        ∃ attestation ∈ attestations,
          attestation.Live ∧ Passes classOf subject presentSet attestation := by
  constructor
  · rintro ⟨found, computed, nonempty⟩
    have spec := passingAttestations_spec computed
    exact ⟨spec.1, spec.2.mp nonempty⟩
  · rintro ⟨resolves, passing⟩
    obtain ⟨found, computed⟩ := passingAttestations_total resolves
    exact ⟨found, computed, (passingAttestations_spec computed).2.mpr passing⟩

end Loops

/-! ### The verdict against the attestations it rests on -/

section Agreement

variable {ε : Type} (classOf : ClassOf ε) (entry : EntryView) (memory : MemoryView)
variable (presentSet : List MemoryId)

/-- The entry's verdict is a visible one. -/
def Surfaces : Prop :=
  ∃ decision, explain classOf entry memory presentSet = .ok decision ∧ decision.isVisible = true

/-- Some attestation that stands is visible to the audience. -/
def Attested : Prop :=
  ∃ found, visibleAttestations classOf entry memory presentSet = .ok found ∧ found ≠ []

/-- The founding attestation answers for the entry although it was withdrawn: it
would pass, and none that stands does. -/
def AnsweredByWithdrawn : Prop :=
  let subject := subjectParticipant memory.name memory.id
  entry.supersededBy = none ∧
    (∀ attestation ∈ entry.attestations, Resolves classOf subject presentSet attestation) ∧
    (∃ founding ∈ entry.attestations.head?,
      ¬founding.Live ∧ Passes classOf subject presentSet founding) ∧
    ∀ attestation ∈ entry.attestations, attestation.Live →
      ¬Passes classOf subject presentSet attestation

/-- A lookup for a withdrawn attestation fails although one that stands passes. -/
def BlockedByWithdrawn : Prop :=
  let subject := subjectParticipant memory.name memory.id
  entry.supersededBy = none ∧
    (∀ attestation ∈ entry.attestations, attestation.Live →
      Resolves classOf subject presentSet attestation) ∧
    (∃ attestation ∈ entry.attestations,
      attestation.Live ∧ Passes classOf subject presentSet attestation) ∧
    ∃ attestation ∈ entry.attestations,
      ¬attestation.Live ∧ ¬Resolves classOf subject presentSet attestation

variable {classOf entry memory presentSet}

theorem surfaces_iff (listed : entry.attestations ≠ []) :
    Surfaces classOf entry memory presentSet ↔
      entry.supersededBy = none ∧
        (∀ attestation ∈ entry.attestations,
          Resolves classOf (subjectParticipant memory.name memory.id) presentSet attestation) ∧
        ((∃ attestation ∈ entry.attestations, attestation.Live ∧
            Passes classOf (subjectParticipant memory.name memory.id) presentSet attestation) ∨
          ∃ founding ∈ entry.attestations.head?,
            Passes classOf (subjectParticipant memory.name memory.id) presentSet founding) := by
  unfold Surfaces explain
  cases entry.supersededBy with
  | some => simp [VisibilityDecision.isVisible]
  | none =>
    obtain ⟨founding, rest, split⟩ := List.exists_cons_of_ne_nil listed
    have effective : effectiveAttestations entry = founding :: rest := by
      simp [effectiveAttestations, split]
    simp only [Option.isSome_none, Bool.false_eq_true, if_false, effective, true_and]
    rw [explainFrom_start_visible_iff, split]
    simp

theorem attested_iff :
    Attested classOf entry memory presentSet ↔
      entry.supersededBy = none ∧
        (∀ attestation ∈ entry.attestations, attestation.Live →
          Resolves classOf (subjectParticipant memory.name memory.id) presentSet attestation) ∧
        ∃ attestation ∈ entry.attestations, attestation.Live ∧
          Passes classOf (subjectParticipant memory.name memory.id) presentSet attestation := by
  unfold Attested visibleAttestations
  cases entry.supersededBy with
  | some => simp
  | none =>
    simp only [Option.isSome_none, Bool.false_eq_true, if_false, true_and]
    exact passingAttestations_nonempty_iff

theorem surfaces_iff_attested_iff (listed : entry.attestations ≠ []) :
    (Surfaces classOf entry memory presentSet ↔ Attested classOf entry memory presentSet) ↔
      ¬AnsweredByWithdrawn classOf entry memory presentSet ∧
        ¬BlockedByWithdrawn classOf entry memory presentSet := by
  rw [surfaces_iff listed, attested_iff]
  constructor
  · intro agree
    constructor
    · rintro ⟨live, resolves, ⟨founding, isFounding, _, passes⟩, none⟩
      obtain ⟨_, _, attestation, member, stands, shown⟩ :=
        agree.mp ⟨live, resolves, .inr ⟨founding, isFounding, passes⟩⟩
      exact none attestation member stands shown
    · rintro ⟨live, resolves, passing, attestation, member, _, stuck⟩
      exact stuck ((agree.mpr ⟨live, resolves, passing⟩).2.1 attestation member)
  · rintro ⟨notAnswered, notBlocked⟩
    constructor
    · rintro ⟨live, resolves, passing⟩
      refine ⟨live, fun attestation member _ => resolves attestation member, ?_⟩
      rcases passing with standing | ⟨founding, isFounding, passes⟩
      · exact standing
      · by_contra noneStands
        have none : ∀ attestation ∈ entry.attestations, attestation.Live →
            ¬Passes classOf (subjectParticipant memory.name memory.id) presentSet attestation :=
          fun attestation member stands shown => noneStands ⟨attestation, member, stands, shown⟩
        have member : founding ∈ entry.attestations := List.mem_of_mem_head? isFounding
        have withdrawn : ¬founding.Live := fun stands => none founding member stands passes
        exact notAnswered ⟨live, resolves, ⟨founding, isFounding, withdrawn, passes⟩, none⟩
    · rintro ⟨live, resolves, passing⟩
      refine ⟨live, fun attestation member => ?_, .inl passing⟩
      by_cases stands : attestation.Live
      · exact resolves attestation member stands
      · by_contra stuck
        exact notBlocked ⟨live, resolves, passing, attestation, member, stands, stuck⟩

end Agreement

/-! ### Lookups that never fail -/

section Total

variable {ε : Type} {classOf : ClassOf ε} (total : ∀ id, ∃ identity, classOf id = .ok identity)
include total

theorem isPresent_total (entity : MemoryId) (presentSet : List MemoryId) :
    ∃ present, isPresent classOf entity presentSet = .ok present := by
  obtain ⟨target, found⟩ := total entity
  simp only [isPresent, found, bind, Except.bind, pure, Except.pure]
  induction presentSet with
  | nil => exact ⟨false, rfl⟩
  | cons present rest ih =>
    obtain ⟨identity, resolved⟩ := total present
    simp only [List.anyM, resolved, bind, Except.bind, pure, Except.pure]
    by_cases same : identity = target
    · exact ⟨true, by simp [same]⟩
    · obtain ⟨answer, others⟩ := ih
      exact ⟨answer, by simpa [same] using others⟩

theorem tellerPresent_total (teller : Teller) (presentSet : List MemoryId) :
    ∃ present, tellerPresent classOf teller presentSet = .ok present := by
  cases teller with
  | participant id => exact isPresent_total total id presentSet
  | agent => exact ⟨true, rfl⟩
  | bootstrap => exact ⟨false, rfl⟩

theorem subjectBlocks_total (subject : Option MemoryId) (teller : Teller)
    (presentSet : List MemoryId) :
    ∃ blocks, subjectBlocks classOf subject teller presentSet = .ok blocks := by
  cases subject with
  | none => exact ⟨false, rfl⟩
  | some subject =>
    obtain ⟨identity, resolved⟩ := total subject
    obtain ⟨present, answer⟩ := isPresent_total total subject presentSet
    cases teller with
    | participant id =>
      obtain ⟨own, ownResolved⟩ := total id
      simp only [subjectBlocks, tellerIs, resolved, ownResolved, answer, bind, Except.bind, pure,
        Except.pure]
      split <;> exact ⟨_, rfl⟩
    | agent | bootstrap =>
      exact ⟨present, by simp [subjectBlocks, tellerIs, answer, bind, Except.bind]⟩

theorem noExcludeePresent_total (excluded : IdSet) (presentSet : List MemoryId) :
    ∃ clear, noExcludeePresent classOf excluded presentSet = .ok clear := by
  unfold noExcludeePresent
  induction excluded.members with
  | nil => exact ⟨true, rfl⟩
  | cons excludee rest ih =>
    obtain ⟨present, answer⟩ := isPresent_total total excludee presentSet
    obtain ⟨clear, others⟩ := ih
    simp only [List.allM, answer, bind, Except.bind, pure, Except.pure]
    cases present with
    | true => exact ⟨false, rfl⟩
    | false => exact ⟨clear, others⟩

theorem resolves_of_total (subject : Option MemoryId) (presentSet : List MemoryId)
    (attestation : AttestationView) : Resolves classOf subject presentSet attestation := by
  obtain ⟨present, tellerAnswer⟩ := tellerPresent_total total attestation.teller presentSet
  obtain ⟨blocks, subjectAnswer⟩ :=
    subjectBlocks_total total subject attestation.teller presentSet
  unfold Resolves explainAttestation
  cases attestation.posture with
  | «public» | attributed => exact ⟨_, rfl⟩
  | privateToTeller =>
    simp only [tellerAnswer, subjectAnswer, bind, Except.bind, pure, Except.pure]
    cases present <;> cases blocks <;> exact ⟨_, rfl⟩
  | exclude excluded =>
    obtain ⟨clear, excludeeAnswer⟩ := noExcludeePresent_total total excluded presentSet
    simp only [tellerAnswer, subjectAnswer, excludeeAnswer, bind, Except.bind, pure, Except.pure]
    cases present <;> cases clear <;> cases blocks <;> exact ⟨_, rfl⟩

theorem visibleAttestations_total (entry : EntryView) (memory : MemoryView)
    (presentSet : List MemoryId) :
    ∃ found, visibleAttestations classOf entry memory presentSet = .ok found := by
  unfold visibleAttestations
  split
  · exact ⟨[], rfl⟩
  · exact passingAttestations_total fun attestation _ _ =>
      resolves_of_total total _ presentSet attestation

end Total

end Zuihitsu
