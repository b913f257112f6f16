/-
# What a block's reads hand the agent

`entries` and `history` list a class's content with the confidences the present
audience may not see replaced by a stub. A live read carries the endorsements
that stand; a history read carries the withdrawn ones beside them, and the
audience check reasons over whatever list it is given.

The main result says exactly when the two reads disagree about a live entry:
when the founding endorsement has been withdrawn, would itself pass, and no
standing one does.
-/

import Zuihitsu.Block.State
import Zuihitsu.Graph.Reachable

namespace Zuihitsu

open Zuihitsu.Core Zuihitsu.Graph Zuihitsu.Library

namespace MemoryBlock

/-- An addressable content entry handed back to the agent. -/
structure EntryRef where
  entryId : EntryId
  text : String
  assertedAt : Timestamp
  visibility : Visibility
  teller : String
  attesters : List String := []
  disputed : Bool := false
  occurredAt : Option TemporalRef
  withheld : Bool := false
  stale : Bool := false
  retractedReason : Option String := none
  deriving DecidableEq

def withheldStub : String := "(withheld — a confidence not for the present audience)"

/-- The resolver the block's reads give the predicates; it never fails. -/
def blockClassOf (graph : Graph) : ClassOf MemoryError := fun id => .ok (graph.classOf id)

/-- An entry with the read-time annotations of a direct read. -/
structure AnnotatedEntry where
  entry : EntryView
  withheld : Bool
  stale : Bool
  attesters : List Teller
  deriving DecidableEq

def staleHighMillis : Int := 30 * millisPerDay

/-- Whether a fact has aged past usefulness: only a highly volatile memory's does. -/
def isStale (volatility : Volatility) (effective now : Timestamp) : Bool :=
  volatility = .high && staleHighMillis < now.millis - effective.millis

/-- The entry the audience check probes with: supersession cleared. -/
def probe (entry : EntryView) : EntryView := { entry with supersededBy := none }

/-- Annotate one entry of a direct read of a memory. -/
def annotateEntry (engine : Engine) (presentSet : List MemoryId) (memory : Option MemoryView)
    (entry : EntryView) : Except MemoryError AnnotatedEntry := do
  let graph := engine.graph
  let volatility := (memory.map (·.volatility)).getD .medium
  let effective := entry.occurredSort.getD entry.assertedAt
  let stale := entry.supersededBy.isNone && isStale volatility effective engine.now
  let audience := !presentSet.isEmpty
  let withheld ← match audience, memory with
    | true, some memory =>
      (visible (blockClassOf graph) (probe entry) memory presentSet).map fun shown => !shown
    | _, _ => .ok false
  let tellers ← match audience, memory with
    | true, some memory =>
      (visibleAttestations (blockClassOf graph) (probe entry) memory presentSet).map
        fun found => found.map (·.teller)
    | _, _ => .ok (entry.attestations.map (·.teller))
  return ⟨entry, withheld, stale, tellers.filter (· ≠ .agent)⟩

/-- Annotate the entries of a direct read of a memory. -/
def annotate (engine : Engine) (block : MemoryBlock) (id : MemoryId) (entries : List EntryView) :
    Except MemoryError (List AnnotatedEntry) :=
  entries.mapM (annotateEntry engine block.presentSet (engine.graph.memoryById id))

/-- Project an annotated entry into what the agent is handed. -/
def entryRef (graph : Graph) (block : MemoryBlock) (disputed : List EntryId)
    (annotated : AnnotatedEntry) : EntryRef where
  entryId := annotated.entry.entryId
  text := if annotated.withheld then withheldStub else annotated.entry.text
  assertedAt := annotated.entry.assertedAt
  visibility := annotated.entry.visibility
  teller := tellerLabel graph block annotated.entry.toldBy
  attesters := annotated.attesters.map (tellerLabel graph block)
  disputed := disputed.contains annotated.entry.entryId
  occurredAt := annotated.entry.occurredAt
  withheld := annotated.withheld
  stale := annotated.stale
  retractedReason := annotated.entry.retractedReason

/-- A pending append to one of the members, as an entry the agent is handed. -/
def pendingEntry (graph : Graph) (block : MemoryBlock) (members : List MemoryId)
    (excluded : List EntryId) : EventPayload → Option EntryRef
  | .memoryContentAppended id entryId assertedAt occurredAt text toldBy _ visibility =>
    if id ∈ members ∧ entryId ∉ excluded then
      some
        { entryId, text, assertedAt, visibility, occurredAt
          teller := tellerLabel graph block toldBy }
    else none
  | _ => none

/-- The memory's live entries, the block's own writes included. -/
def entries (engine : Engine) (block : MemoryBlock) (id : MemoryId) :
    Except MemoryError (List EntryRef) := do
  let graph := engine.graph
  let live := (graph.classEntries id).filter (·.entryId ∉ pendingSuperseded block)
  let annotated ← annotate engine block id live
  return annotated.map (entryRef graph block (graph.disputedEntries id)) ++
    block.buffer.filterMap
      (pendingEntry graph block (id :: graph.classMembers id) (pendingSuperseded block))

/-- The memory's entries with the superseded ones, the block's own appends included. -/
def history (engine : Engine) (block : MemoryBlock) (id : MemoryId) :
    Except MemoryError (List EntryRef) := do
  let graph := engine.graph
  let annotated ← annotate engine block id (graph.classHistory id)
  return annotated.map (entryRef graph block (graph.disputedEntries id)) ++
    block.buffer.filterMap (pendingEntry graph block (id :: graph.classMembers id) [])

/-! ### What a read withholds -/

section Withholding

variable {engine : Engine} {block : MemoryBlock} {id : MemoryId}

theorem blockClassOf_total (graph : Graph) :
    ∀ id, ∃ identity, blockClassOf graph id = .ok identity := fun id => ⟨graph.classOf id, rfl⟩

/-- Whether a direct read of a memory withholds an entry from the audience: one
is present, and the entry does not surface to it. -/
def Withholds (graph : Graph) (presentSet : List MemoryId) (id : MemoryId) (entry : EntryView) :
    Prop :=
  presentSet ≠ [] ∧
    ∃ memory, graph.memoryById id = some memory ∧
      ¬Surfaces (blockClassOf graph) (probe entry) memory presentSet

theorem visible_total (graph : Graph) (entry : EntryView) (memory : MemoryView)
    (presentSet : List MemoryId) :
    ∃ shown, visible (blockClassOf graph) entry memory presentSet = .ok shown ∧
      (shown = true ↔ Surfaces (blockClassOf graph) entry memory presentSet) := by
  have decided : ∃ decision, explain (blockClassOf graph) entry memory presentSet = .ok decision := by
    unfold explain
    split
    · exact ⟨_, rfl⟩
    · exact explainFrom_total (fun attestation _ =>
        resolves_of_total (blockClassOf_total graph) _ presentSet attestation)
  obtain ⟨decision, explained⟩ := decided
  refine ⟨decision.isVisible, by simp [visible, explained, bind, Except.bind, pure, Except.pure], ?_⟩
  simp [Surfaces, explained]

theorem annotateEntry_ok (engine : Engine) (block : MemoryBlock) (id : MemoryId)
    (entry : EntryView) :
    ∃ annotated, annotateEntry engine block.presentSet (engine.graph.memoryById id) entry =
        .ok annotated ∧ annotated.entry = entry ∧
      (annotated.withheld = true ↔ Withholds engine.graph block.presentSet id entry) := by
  unfold annotateEntry Withholds
  cases present : block.presentSet with
  | nil => exact ⟨_, rfl, rfl, by simp⟩
  | cons first others =>
    cases owner : engine.graph.memoryById id with
    | none => exact ⟨_, rfl, rfl, by simp⟩
    | some memory =>
      obtain ⟨shown, computed, spec⟩ :=
        visible_total engine.graph (probe entry) memory (first :: others)
      obtain ⟨found, listed⟩ := visibleAttestations_total (blockClassOf_total engine.graph)
        (probe entry) memory (first :: others)
      simp only [List.isEmpty_cons, Bool.not_false, computed, listed, Except.map, bind,
        Except.bind, pure, Except.pure]
      refine ⟨_, rfl, rfl, ?_⟩
      rw [Bool.not_eq_true', ← Bool.not_eq_true, spec]
      simp

theorem annotate_ok (engine : Engine) (block : MemoryBlock) (id : MemoryId) :
    ∃ mark : EntryView → AnnotatedEntry,
      (∀ views, annotate engine block id views = .ok (views.map mark)) ∧
        ∀ entry, (mark entry).entry = entry ∧
          ((mark entry).withheld = true ↔ Withholds engine.graph block.presentSet id entry) := by
  choose mark marked spec using annotateEntry_ok engine block id
  refine ⟨mark, fun views => ?_, spec⟩
  induction views with
  | nil => rfl
  | cons entry rest ih =>
    unfold annotate at ih ⊢
    rw [List.mapM_cons, marked, ih]
    rfl

theorem mem_entries_of_live {row : EntryRow} (member : row ∈ engine.graph.entries)
    (inClass : engine.graph.inClass id row.memoryId = true) (live : row.supersededBy = none) :
    entryFromRow engine.graph .live row ∈ engine.graph.classEntries id ∧
      entryFromRow engine.graph .withWithdrawn row ∈ engine.graph.classHistory id :=
  ⟨List.mem_map_of_mem (mem_entryRowsWhere.mpr ⟨member, by simp [inClass, live]⟩),
    List.mem_map_of_mem (mem_entryRowsWhere.mpr ⟨member, inClass⟩)⟩

/-- The withdrawn founding endorsement opens an entry to a history read: an
audience is present, and it is the one that answers for the entry. -/
def OpenedByWithdrawn (graph : Graph) (presentSet : List MemoryId) (id : MemoryId)
    (row : EntryRow) : Prop :=
  presentSet ≠ [] ∧
    ∃ memory, graph.memoryById id = some memory ∧
      AnsweredByWithdrawn (blockClassOf graph) (probe (entryFromRow graph .withWithdrawn row))
        memory presentSet

theorem mem_live_attestations {row : EntryRow} {attestation : AttestationView} {graph : Graph} :
    attestation ∈ (entryFromRow graph .live row).attestations ↔
      attestation ∈ (entryFromRow graph .withWithdrawn row).attestations ∧ attestation.Live := by
  simp only [entryFromRow, mem_attestationsFor]
  constructor
  · rintro ⟨stored, member, owner, covered, rfl⟩
    have stands : stored.retractedReason = none := by simpa [AttestationScope.covers] using covered
    exact ⟨⟨stored, member, owner, rfl, rfl⟩, stands⟩
  · rintro ⟨⟨stored, member, owner, _, rfl⟩, stands⟩
    refine ⟨stored, member, owner, ?_, rfl⟩
    simpa [AttestationScope.covers, attestationFromRow, AttestationView.Live] using stands

theorem surfaces_live_iff {graph : Graph} (endorsed : Endorsed graph) {row : EntryRow}
    (member : row ∈ graph.entries) (live : row.supersededBy = none) {memory : MemoryView}
    {presentSet : List MemoryId} :
    Surfaces (blockClassOf graph) (probe (entryFromRow graph .live row)) memory presentSet ↔
      ∃ attestation ∈ (entryFromRow graph .withWithdrawn row).attestations, attestation.Live ∧
        Passes (blockClassOf graph) (subjectParticipant memory.name memory.id) presentSet
          attestation := by
  have listed : (probe (entryFromRow graph .live row)).attestations ≠ [] := by
    obtain ⟨stored, storedMem, owner, stands⟩ := endorsed row member live
    have shown : attestationFromRow stored ∈ (entryFromRow graph .live row).attestations :=
      mem_attestationsFor.mpr ⟨stored, storedMem, owner, by simp [AttestationScope.covers, stands],
        rfl⟩
    exact List.ne_nil_of_mem shown
  rw [surfaces_iff listed]
  constructor
  · rintro ⟨_, _, ⟨attestation, attestationMem, stands, passes⟩ | ⟨founding, isFounding, passes⟩⟩
    · exact ⟨attestation, (mem_live_attestations.mp attestationMem).1, stands, passes⟩
    · obtain ⟨kept, stands⟩ := mem_live_attestations.mp (List.mem_of_mem_head? isFounding)
      exact ⟨founding, kept, stands, passes⟩
  · rintro ⟨attestation, attestationMem, stands, passes⟩
    refine ⟨rfl, fun other _ => resolves_of_total (blockClassOf_total graph) _ _ other, .inl ?_⟩
    exact ⟨attestation, mem_live_attestations.mpr ⟨attestationMem, stands⟩, stands, passes⟩

theorem withholds_iff_of_endorsed (endorsed : Endorsed engine.graph) {row : EntryRow}
    (member : row ∈ engine.graph.entries) (live : row.supersededBy = none) :
    (Withholds engine.graph block.presentSet id (entryFromRow engine.graph .live row) →
        Withholds engine.graph block.presentSet id (entryFromRow engine.graph .withWithdrawn row)) ↔
      ¬OpenedByWithdrawn engine.graph block.presentSet id row := by
  have listed : (probe (entryFromRow engine.graph .withWithdrawn row)).attestations ≠ [] := by
    obtain ⟨stored, storedMem, owner, _⟩ := endorsed row member live
    exact List.ne_nil_of_mem (mem_attestationsFor.mpr ⟨stored, storedMem, owner, rfl, rfl⟩)
  constructor
  · rintro follows ⟨present, memory, found, _, resolves, ⟨founding, isFounding, _, passes⟩, none⟩
    have hidden : ¬Surfaces (blockClassOf engine.graph)
        (probe (entryFromRow engine.graph .live row)) memory block.presentSet := by
      rw [surfaces_live_iff endorsed member live]
      rintro ⟨attestation, attestationMem, stands, shown⟩
      exact none attestation attestationMem stands shown
    obtain ⟨_, other, sameFound, stillHidden⟩ := follows ⟨present, memory, found, hidden⟩
    rw [found] at sameFound
    cases sameFound
    exact stillHidden ((surfaces_iff listed).mpr
      ⟨rfl, resolves, .inr ⟨founding, isFounding, passes⟩⟩)
  · rintro notOpened ⟨present, memory, found, hidden⟩
    refine ⟨present, memory, found, fun surfaces => notOpened ⟨present, memory, found, ?_⟩⟩
    rw [surfaces_live_iff endorsed member live] at hidden
    obtain ⟨_, resolves, passing⟩ := (surfaces_iff listed).mp surfaces
    have none : ∀ attestation ∈ (entryFromRow engine.graph .withWithdrawn row).attestations,
        attestation.Live → ¬Passes (blockClassOf engine.graph)
          (subjectParticipant memory.name memory.id) block.presentSet attestation :=
      fun attestation attestationMem stands passes =>
        hidden ⟨attestation, attestationMem, stands, passes⟩
    rcases passing with standing | ⟨founding, isFounding, passes⟩
    · exact absurd standing hidden
    · have withdrawn : ¬founding.Live := fun stands =>
        none founding (List.mem_of_mem_head? isFounding) stands passes
      exact ⟨rfl, resolves, ⟨founding, isFounding, withdrawn, passes⟩, none⟩

/-- Whether a list handed to the agent withholds an entry. -/
def WithheldIn (refs : List EntryRef) (entry : EntryId) : Prop :=
  ∃ ref ∈ refs, ref.entryId = entry ∧ ref.withheld = true

instance (refs : List EntryRef) (entry : EntryId) : Decidable (WithheldIn refs entry) :=
  inferInstanceAs (Decidable (∃ ref ∈ refs, ref.entryId = entry ∧ ref.withheld = true))

theorem withheldIn_iff {mark : EntryView → AnnotatedEntry}
    (marked : ∀ entry, (mark entry).entry = entry ∧
      ((mark entry).withheld = true ↔ Withholds engine.graph block.presentSet id entry))
    {views : List EntryView} (view : EntryView) (member : view ∈ views)
    (only : ∀ other ∈ views, other.entryId = view.entryId → other = view)
    {disputed excluded : List EntryId} {members : List MemoryId} :
    WithheldIn ((views.map mark).map (entryRef engine.graph block disputed) ++
        block.buffer.filterMap (pendingEntry engine.graph block members excluded)) view.entryId ↔
      Withholds engine.graph block.presentSet id view := by
  constructor
  · rintro ⟨ref, refMem, owner, withheld⟩
    rcases List.mem_append.mp refMem with committed | pending
    · rw [List.map_map] at committed
      obtain ⟨other, otherMem, rfl⟩ := List.mem_map.mp committed
      have sameId : other.entryId = view.entryId := by
        rw [← owner]
        exact congrArg EntryView.entryId (marked other).1.symm
      rw [← only other otherMem sameId]
      exact (marked other).2.mp withheld
    · obtain ⟨event, _, made⟩ := List.mem_filterMap.mp pending
      unfold pendingEntry at made
      split at made
      · split at made
        · cases made
          cases withheld
        · cases made
      · cases made
  · intro withholds
    refine ⟨entryRef engine.graph block disputed (mark view), List.mem_append_left _
      (List.mem_map_of_mem (List.mem_map_of_mem member)), ?_, (marked view).2.mpr withholds⟩
    exact congrArg EntryView.entryId (marked view).1

theorem withheld_in_entries {row : EntryRow} (member : row ∈ engine.graph.entries)
    (inClass : engine.graph.inClass id row.memoryId = true) (live : row.supersededBy = none)
    (standing : row.entryId ∉ pendingSuperseded block) :
    ∃ shown, entries engine block id = .ok shown ∧
      (WithheldIn shown row.entryId ↔
        Withholds engine.graph block.presentSet id (entryFromRow engine.graph .live row)) := by
  obtain ⟨mark, listed, marked⟩ := annotate_ok engine block id
  refine ⟨_, by rw [entries, listed]; rfl, ?_⟩
  refine withheldIn_iff marked (entryFromRow engine.graph .live row) ?_ ?_
  · refine List.mem_filter.mpr ⟨(mem_entries_of_live member inClass live).1, ?_⟩
    exact decide_eq_true standing
  · intro other otherMem same
    obtain ⟨stored, storedMem, rfl⟩ := List.mem_map.mp (List.mem_filter.mp otherMem).1
    rw [Table.eq_of_key_eq (mem_entryRowsWhere.mp storedMem).1 member same]

theorem withheld_in_history (block : MemoryBlock) {row : EntryRow}
    (member : row ∈ engine.graph.entries)
    (inClass : engine.graph.inClass id row.memoryId = true) (live : row.supersededBy = none) :
    ∃ kept, history engine block id = .ok kept ∧
      (WithheldIn kept row.entryId ↔
        Withholds engine.graph block.presentSet id
          (entryFromRow engine.graph .withWithdrawn row)) := by
  obtain ⟨mark, listed, marked⟩ := annotate_ok engine block id
  refine ⟨_, by rw [history, listed]; rfl, ?_⟩
  refine withheldIn_iff marked (entryFromRow engine.graph .withWithdrawn row)
    (mem_entries_of_live member inClass live).2 ?_
  intro other otherMem same
  obtain ⟨stored, storedMem, rfl⟩ := List.mem_map.mp otherMem
  rw [Table.eq_of_key_eq (mem_entryRowsWhere.mp storedMem).1 member same]

end Withholding

/-- Withdrawn endorsements open nothing but what these two conditions name. For
any entry view with attestations, the verdict agrees with the attestations that
stand exactly when no withdrawn one decides it; and of a live entry of any
reachable graph, a history read withholds what the live read withholds exactly
when the withdrawn founding endorsement does not open it. -/
theorem verdict_rests_on_standing (presentSet : List MemoryId) :
    (∀ (ε : Type) (classOf : ClassOf ε) (entry : EntryView) (memory : MemoryView),
      entry.attestations ≠ [] →
      ((Surfaces classOf entry memory presentSet ↔ Attested classOf entry memory presentSet) ↔
        ¬AnsweredByWithdrawn classOf entry memory presentSet ∧
          ¬BlockedByWithdrawn classOf entry memory presentSet)) ∧
    ∀ (engine : Engine) (block : MemoryBlock) (id : MemoryId) (row : EntryRow),
      block.presentSet = presentSet → Reachable engine.graph → row ∈ engine.graph.entries →
      engine.graph.inClass id row.memoryId = true → row.supersededBy = none →
      row.entryId ∉ pendingSuperseded block →
      ∃ shown kept, entries engine block id = .ok shown ∧ history engine block id = .ok kept ∧
        ((WithheldIn shown row.entryId → WithheldIn kept row.entryId) ↔
          ¬OpenedByWithdrawn engine.graph presentSet id row) := by
  constructor
  · intro ε classOf entry memory listed
    exact surfaces_iff_attested_iff listed
  · rintro engine block id row rfl reachable member inClass live standing
    obtain ⟨shown, listed, inShown⟩ := withheld_in_entries member inClass live standing
    obtain ⟨kept, recorded, inKept⟩ := withheld_in_history block member inClass live
    refine ⟨shown, kept, listed, recorded, ?_⟩
    rw [inShown, inKept]
    exact withholds_iff_of_endorsed reachable.endorsed member live

/-! A fact told in public, attested in confidence by a second teller, and then
withdrawn by the first. -/

def launch : MemoryId := ⟨1⟩

def ana : MemoryId := ⟨2⟩

def ben : MemoryId := ⟨3⟩

def cleo : MemoryId := ⟨4⟩

def slip : EntryId := ⟨10⟩

def withdrawnLog : List EventPayload :=
  [.memoryCreated launch ⟨"topic/launch"⟩, .memoryCreated ana ⟨"person/ana"⟩,
    .memoryCreated ben ⟨"person/ben"⟩, .memoryCreated cleo ⟨"person/cleo"⟩,
    .memoryContentAppended launch slip ⟨0⟩ none "the launch slips" (.participant ana) none .public,
    .entryAttested launch slip (.participant ben) none ⟨0⟩ .privateToTeller none none none,
    .attestationRetracted launch slip (.participant ana) "told in error" none]

def withdrawnGraph : Graph :=
  ((commit ⟨0⟩ .agent withdrawnLog Graph.fresh).toOption).getD Graph.fresh

def withdrawnRow : EntryRow where
  entryId := slip
  memoryId := launch
  assertedAt := ⟨0⟩
  occurrence := ⟨none, .unbounded⟩
  occurredAuthored := false
  text := "the launch slips"
  toldBy := .participant ana
  toldIn := none
  visibility := .public
  originPlatform := none
  seq := 5

def bystanderBlock : MemoryBlock :=
  MemoryBlock.open withdrawnGraph .agent .platform none none [cleo] 4000

theorem withdrawnGraph_reachable : Reachable withdrawnGraph := by
  have committed : commit ⟨0⟩ .agent withdrawnLog Graph.fresh = .ok withdrawnGraph := rfl
  exact Reachable.fresh.commit committed

/-- At that fact the verdict is visible to the bystander although no attestation
that stands is, and the history hands out the text the live read withholds. -/
theorem history_opens_withdrawn :
    Reachable withdrawnGraph ∧
    withdrawnGraph.classHistory launch = [entryFromRow withdrawnGraph .withWithdrawn withdrawnRow] ∧
    (∃ memory, withdrawnGraph.memoryById launch = some memory ∧
      ¬(Surfaces (blockClassOf withdrawnGraph)
            (entryFromRow withdrawnGraph .withWithdrawn withdrawnRow) memory [cleo] ↔
          Attested (blockClassOf withdrawnGraph)
            (entryFromRow withdrawnGraph .withWithdrawn withdrawnRow) memory [cleo])) ∧
    ∃ shown kept, entries ⟨withdrawnGraph, ⟨1⟩⟩ bystanderBlock launch = .ok shown ∧
      history ⟨withdrawnGraph, ⟨1⟩⟩ bystanderBlock launch = .ok kept ∧
      WithheldIn shown slip ∧ ¬WithheldIn kept slip := by
  refine ⟨withdrawnGraph_reachable, by decide, ⟨⟨launch, ⟨"topic/launch"⟩, "", .medium, ⟨0⟩, []⟩,
    by decide, ?_⟩, _, _, rfl, rfl, by decide, by decide⟩
  intro agree
  obtain ⟨found, listed, nonempty⟩ := agree.mp ⟨.public, rfl, rfl⟩
  cases listed
  exact nonempty rfl

/-- The two reads of the withdrawn fact, as the general result decides them. -/
theorem verdict_rests_on_standing_slip :
    ∃ memory,
      ((Surfaces (blockClassOf withdrawnGraph)
            (entryFromRow withdrawnGraph .withWithdrawn withdrawnRow) memory [cleo] ↔
          Attested (blockClassOf withdrawnGraph)
            (entryFromRow withdrawnGraph .withWithdrawn withdrawnRow) memory [cleo]) ↔
        ¬AnsweredByWithdrawn (blockClassOf withdrawnGraph)
            (entryFromRow withdrawnGraph .withWithdrawn withdrawnRow) memory [cleo] ∧
          ¬BlockedByWithdrawn (blockClassOf withdrawnGraph)
            (entryFromRow withdrawnGraph .withWithdrawn withdrawnRow) memory [cleo]) ∧
      ∃ shown kept, entries ⟨withdrawnGraph, ⟨1⟩⟩ bystanderBlock launch = .ok shown ∧
        history ⟨withdrawnGraph, ⟨1⟩⟩ bystanderBlock launch = .ok kept ∧
        ((WithheldIn shown slip → WithheldIn kept slip) ↔
          ¬OpenedByWithdrawn withdrawnGraph [cleo] launch withdrawnRow) :=
  ⟨⟨launch, ⟨"topic/launch"⟩, "", .medium, ⟨0⟩, []⟩,
    (verdict_rests_on_standing [cleo]).1 _ _ _ _ (by decide),
    (verdict_rests_on_standing [cleo]).2 ⟨withdrawnGraph, ⟨1⟩⟩ bystanderBlock launch withdrawnRow
      rfl withdrawnGraph_reachable (by decide) (by decide) rfl (by decide)⟩

end MemoryBlock

end Zuihitsu
