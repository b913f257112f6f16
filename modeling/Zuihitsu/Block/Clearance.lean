/-
# What an audience is cleared for

An entry is cleared for an audience when the read predicate shows it there: by the
endorsements that stand behind it, under the guard of its own memory, and whether it was
superseded or not. A read of a class asks another question. It reads an entry under the
guard of the memory it was asked for, which need not be a person as the entry's own
memory is, and a history takes a withdrawn founding endorsement for one that answers.
-/

import Zuihitsu.Block.Liveness
import Zuihitsu.Block.Quoted
import Zuihitsu.Graph.Lookup
import Zuihitsu.Visibility.Guard

namespace Zuihitsu

open Zuihitsu.Core Zuihitsu.Graph Zuihitsu.Library

namespace Graph

/-- The person a memory is about, by its id. -/
def subjectOf (graph : Graph) (id : MemoryId) : Option MemoryId :=
  (graph.memoryById id).bind fun memory => subjectParticipant memory.name memory.id

theorem subjectOf_eq {graph : Graph} {id : MemoryId} {memory : MemoryView}
    (found : graph.memoryById id = some memory) :
    graph.subjectOf id = subjectParticipant memory.name memory.id := by
  rw [subjectOf, found, Option.bind_some]

theorem subjectOf_eq_some {graph : Graph} {id subject : MemoryId}
    (person : graph.subjectOf id = some subject) : subject = id := by
  obtain ⟨memory, found, about⟩ := Option.bind_eq_some_iff.mp person
  unfold subjectParticipant at about
  split at about
  · cases about
    exact memoryById_id found
  · cases about

theorem exists_memoryById {graph : Graph} {id : MemoryId} (live : (graph.liveRow id).isSome = true) :
    ∃ memory, graph.memoryById id = some memory := by
  obtain ⟨row, found⟩ := Option.isSome_iff_exists.mp live
  exact ⟨_, by rw [memoryById, found]; rfl⟩

end Graph

namespace MemoryBlock

/-! ### What an audience is cleared for -/

section Clearance

variable {graph : Graph} {presentSet : List MemoryId} {id : MemoryId} {row : EntryRow}
variable {view : EntryView} {scope : AttestationScope} {attestation : AttestationView}

/-- Whether an entry is visible to an audience, supersession ignored: the read predicate over
the endorsements that stand, at the memory the entry is on. -/
def Cleared (graph : Graph) (presentSet : List MemoryId) (row : EntryRow) : Prop :=
  ∃ owner, graph.memoryById row.memoryId = some owner ∧
    Surfaces (blockClassOf graph) (probe (entryFromRow graph .live row)) owner presentSet

/-- No endorsement that stands behind an entry shows it to an audience. -/
def Shuttered (graph : Graph) (presentSet : List MemoryId) (row : EntryRow) : Prop :=
  ∀ attestation ∈ effectiveAttestations (entryFromRow graph .live row),
    ¬Passes (blockClassOf graph) (graph.subjectOf row.memoryId) presentSet attestation

/-- What opens an entry to a read at a memory: an endorsement that stands and passes there, or
the founding one. -/
def Opens (graph : Graph) (presentSet : List MemoryId) (id : MemoryId) (view : EntryView) : Prop :=
  (∃ attestation ∈ effectiveAttestations view, attestation.Live ∧
      Passes (blockClassOf graph) (graph.subjectOf id) presentSet attestation) ∨
    ∃ founding ∈ (effectiveAttestations view).head?,
      Passes (blockClassOf graph) (graph.subjectOf id) presentSet founding

/-- A read at a memory that is no person opens an entry that a guard might have kept. -/
def Unguarded (graph : Graph) (presentSet : List MemoryId) (id : MemoryId) (view : EntryView) :
    Prop :=
  graph.subjectOf id = none ∧
    ∃ attestation ∈ effectiveAttestations view, attestation.Live ∧
      Passes (blockClassOf graph) none presentSet attestation

/-- The founding endorsement opens an entry although it was withdrawn. -/
def FoundingOpens (graph : Graph) (presentSet : List MemoryId) (id : MemoryId) (view : EntryView) :
    Prop :=
  ∃ founding ∈ (effectiveAttestations view).head?, ¬founding.Live ∧
    Passes (blockClassOf graph) (graph.subjectOf id) presentSet founding

theorem surfaces_probe_iff {memory : MemoryView} (found : graph.memoryById id = some memory) :
    Surfaces (blockClassOf graph) (probe view) memory presentSet ↔ Opens graph presentSet id view := by
  rw [surfaces_iff_effective, Opens, subjectOf_eq found]
  constructor
  · rintro ⟨_, _, opens⟩
    exact opens
  · intro opens
    exact ⟨rfl, fun other _ => resolves_of_total (blockClassOf_total graph) _ _ other, opens⟩

theorem withholds_iff (audience : presentSet ≠ []) (live : (graph.liveRow id).isSome = true) :
    Withholds graph presentSet id view ↔ ¬Opens graph presentSet id view := by
  obtain ⟨memory, found⟩ := exists_memoryById live
  rw [← surfaces_probe_iff found]
  constructor
  · rintro ⟨_, other, sameFound, hidden⟩
    rw [found] at sameFound
    cases sameFound
    exact hidden
  · intro hidden
    exact ⟨audience, memory, found, hidden⟩

theorem live_of_effective (member : attestation ∈ effectiveAttestations (entryFromRow graph .live row)) :
    attestation.Live := by
  unfold effectiveAttestations at member
  split at member
  · rw [List.mem_singleton.mp member]
    rfl
  · exact (mem_live_attestations.mp member).2

theorem effective_live (member : attestation ∈ effectiveAttestations (entryFromRow graph scope row))
    (stands : attestation.Live) :
    attestation ∈ effectiveAttestations (entryFromRow graph .live row) := by
  cases scope with
  | live => exact member
  | withWithdrawn =>
    unfold effectiveAttestations at member
    split at member
    · rename_i none
      have noneLive : (entryFromRow graph .live row).attestations = [] := by
        refine List.eq_nil_iff_forall_not_mem.mpr fun other otherMem => ?_
        have listed := (mem_live_attestations.mp otherMem).1
        rw [List.isEmpty_iff.mp none] at listed
        cases listed
      rw [effectiveAttestations, noneLive, List.isEmpty_nil, if_pos rfl]
      exact member
    · have listed := mem_live_attestations.mpr ⟨member, stands⟩
      rw [effectiveAttestations, if_neg (by simpa using List.ne_nil_of_mem listed)]
      exact listed

theorem not_cleared_iff (live : (graph.liveRow row.memoryId).isSome = true) :
    ¬Cleared graph presentSet row ↔ Shuttered graph presentSet row := by
  obtain ⟨owner, found⟩ := exists_memoryById live
  have cleared : Cleared graph presentSet row ↔
      Opens graph presentSet row.memoryId (entryFromRow graph .live row) := by
    rw [← surfaces_probe_iff found, Cleared, found]
    simp
  rw [cleared]
  constructor
  · intro hidden attestation member passes
    exact hidden (.inl ⟨attestation, member, live_of_effective member, passes⟩)
  · rintro shuttered (⟨attestation, member, _, passes⟩ | ⟨founding, isFounding, passes⟩)
    · exact shuttered attestation member passes
    · exact shuttered founding (List.mem_of_mem_head? isFounding) passes

theorem no_subject (within : graph.inClass id row.memoryId = true)
    (passes : Passes (blockClassOf graph) (graph.subjectOf id) presentSet attestation)
    (kept : ¬Passes (blockClassOf graph) (graph.subjectOf row.memoryId) presentSet attestation) :
    graph.subjectOf id = none := by
  cases asked : graph.subjectOf id with
  | none => rfl
  | some subject =>
    rw [asked] at passes
    obtain rfl := subjectOf_eq_some asked
    cases own : graph.subjectOf row.memoryId with
    | none =>
      rw [own] at kept
      exact absurd passes.unguarded kept
    | some =>
      rw [own, subjectOf_eq_some own] at kept
      have same : blockClassOf graph subject = blockClassOf graph row.memoryId :=
        congrArg Except.ok (classOf_of_inClass within).symm
      exact absurd ((passes_congr same).mp passes) kept

theorem opens_iff_of_shuttered (within : graph.inClass id row.memoryId = true)
    (shuttered : Shuttered graph presentSet row) :
    Opens graph presentSet id (entryFromRow graph scope row) ↔
      Unguarded graph presentSet id (entryFromRow graph scope row) ∨
        FoundingOpens graph presentSet id (entryFromRow graph scope row) := by
  have standing : ∀ attestation ∈ effectiveAttestations (entryFromRow graph scope row),
      attestation.Live → Passes (blockClassOf graph) (graph.subjectOf id) presentSet attestation →
        Unguarded graph presentSet id (entryFromRow graph scope row) := by
    intro attestation member stands passes
    have nobody := no_subject within passes (shuttered attestation (effective_live member stands))
    exact ⟨nobody, attestation, member, stands, nobody ▸ passes⟩
  constructor
  · rintro (⟨attestation, member, stands, passes⟩ | ⟨founding, isFounding, passes⟩)
    · exact .inl (standing attestation member stands passes)
    · by_cases stands : founding.Live
      · exact .inl (standing founding (List.mem_of_mem_head? isFounding) stands passes)
      · exact .inr ⟨founding, isFounding, stands, passes⟩
  · rintro (⟨nobody, attestation, member, stands, passes⟩ | ⟨founding, isFounding, _, passes⟩)
    · exact .inl ⟨attestation, member, stands, nobody ▸ passes⟩
    · exact .inr ⟨founding, isFounding, passes⟩

theorem not_foundingOpens_live :
    ¬FoundingOpens graph presentSet id (entryFromRow graph .live row) := by
  rintro ⟨founding, isFounding, withdrawn, _⟩
  exact withdrawn (live_of_effective (List.mem_of_mem_head? isFounding))

end Clearance

/-! ### The words of a committed entry -/

section Words

variable {graph : Graph} {engine : Engine} {block : MemoryBlock} {id : MemoryId} {row : EntryRow}
variable {scope : AttestationScope} {rows : List EntryRow} {text : String}

/-- The entries this block itself appends. -/
def pendingIds (block : MemoryBlock) : List EntryId := block.buffer.filterMap appended

theorem withheldFromPresent_ok (graph : Graph) (block : MemoryBlock) (memory : MemoryView)
    (view : EntryView) :
    ∃ withheld, withheldFromPresent graph block memory view = .ok withheld ∧
      (withheld = true ↔ block.presentSet ≠ [] ∧
        ¬Surfaces (blockClassOf graph) (probe view) memory block.presentSet) := by
  unfold withheldFromPresent
  cases present : block.presentSet with
  | nil => exact ⟨false, rfl, by simp⟩
  | cons first others =>
    obtain ⟨shown, computed, spec⟩ := visible_total graph (probe view) memory (first :: others)
    refine ⟨!shown, by simp [computed, Except.map], ?_⟩
    rw [Bool.not_eq_true', ← Bool.not_eq_true, spec]
    simp

theorem candidate_ok (graph : Graph) (block : MemoryBlock) (id : MemoryId) (view : EntryView) :
    ∃ withheld, candidate graph block (graph.memoryById id) view =
        .ok (view.entryId, .of withheld view.text) ∧
      (withheld = true ↔ Withholds graph block.presentSet id view) := by
  unfold candidate Withholds
  cases owner : graph.memoryById id with
  | none => exact ⟨false, rfl, by simp⟩
  | some memory =>
    obtain ⟨withheld, computed, spec⟩ := withheldFromPresent_ok graph block memory view
    refine ⟨withheld, by simp [computed, bind, Except.bind, pure, Except.pure], ?_⟩
    rw [spec]
    simp

theorem classEntryTexts_ok (graph : Graph) (block : MemoryBlock) (id : MemoryId) :
    ∃ mark : EntryView → Bool,
      classEntryTexts graph block id = .ok
        ((graph.classHistory id).map (fun view => (view.entryId, .of (mark view) view.text)) ++
          block.buffer.filterMap (pendingCandidate (id :: graph.classMembers id))) ∧
        ∀ view, mark view = true ↔ Withholds graph block.presentSet id view := by
  choose mark marked spec using candidate_ok graph block id
  refine ⟨mark, ?_, spec⟩
  have listed : ∀ views : List EntryView,
      views.mapM (candidate graph block (graph.memoryById id)) =
        .ok (views.map fun view => (view.entryId, .of (mark view) view.text)) := by
    intro views
    induction views with
    | nil => rfl
    | cons view rest ih =>
      rw [List.mapM_cons, marked, ih]
      rfl
  rw [classEntryTexts, listed]
  rfl

theorem pendingCandidate_mem {members : List MemoryId} {payload : EventPayload}
    {found : EntryId × Wording} (member : payload ∈ block.buffer)
    (made : pendingCandidate members payload = some found) : found.1 ∈ pendingIds block := by
  unfold pendingCandidate at made
  split at made
  · split at made
    · cases made
      exact List.mem_filterMap.mpr ⟨_, member, rfl⟩
    · cases made
  · cases made

theorem pendingEntry_mem {members : List MemoryId} {excluded : List EntryId}
    {payload : EventPayload} {found : EntryRef} (member : payload ∈ block.buffer)
    (made : pendingEntry graph block members excluded payload = some found) :
    found.entryId ∈ pendingIds block := by
  unfold pendingEntry at made
  split at made
  · split at made
    · cases made
      exact List.mem_filterMap.mpr ⟨_, member, rfl⟩
    · cases made
  · cases made

theorem exists_view_iff (stored : ∀ other ∈ rows, other ∈ graph.entries)
    (member : row ∈ graph.entries) {holds : EntryView → Prop} :
    (∃ view ∈ rows.map (entryFromRow graph scope), view.entryId = row.entryId ∧ holds view) ↔
      row ∈ rows ∧ holds (entryFromRow graph scope row) := by
  constructor
  · rintro ⟨view, viewMem, same, held⟩
    obtain ⟨other, otherMem, rfl⟩ := List.mem_map.mp viewMem
    obtain rfl := Table.eq_of_key_eq (stored other otherMem) member same
    exact ⟨otherMem, held⟩
  · rintro ⟨rowMem, held⟩
    exact ⟨_, List.mem_map_of_mem rowMem, rfl, held⟩

/-- What a listing quotes of a committed entry. -/
theorem mem_listing_quotes {mark : EntryView → AnnotatedEntry}
    (marked : ∀ view, (mark view).entry = view ∧
      ((mark view).withheld = true ↔ Withholds graph block.presentSet id view))
    (stored : ∀ other ∈ rows, other ∈ graph.entries) (member : row ∈ graph.entries)
    (foreign : row.entryId ∉ pendingIds block) {disputed excluded : List EntryId}
    {members : List MemoryId} :
    (row.entryId, text) ∈ (((rows.map (entryFromRow graph scope)).map mark).map
        (entryRef graph block disputed) ++
          block.buffer.filterMap (pendingEntry graph block members excluded)).filterMap
            EntryRef.quote ↔
      row ∈ rows ∧ ¬Withholds graph block.presentSet id (entryFromRow graph scope row) ∧
        text = row.text := by
  have shape : ∀ view, (entryRef graph block disputed (mark view)).quote = some (row.entryId, text) ↔
      view.entryId = row.entryId ∧ ¬Withholds graph block.presentSet id view ∧ text = view.text := by
    intro view
    unfold EntryRef.quote
    by_cases withheld : (mark view).withheld = true
    · simp [entryRef, withheld, (marked view).2.mp withheld]
    · have shown : ¬Withholds graph block.presentSet id view := fun hidden =>
        withheld ((marked view).2.mpr hidden)
      simp [entryRef, withheld, shown, (marked view).1, eq_comm]
  have viewed := @exists_view_iff graph row scope rows stored member fun view =>
    ¬Withholds graph block.presentSet id view ∧ text = view.text
  refine Iff.trans ?_ viewed
  rw [List.mem_filterMap]
  constructor
  · rintro ⟨ref, refMem, quoted⟩
    rcases List.mem_append.mp refMem with committed | pending
    · rw [List.map_map] at committed
      obtain ⟨view, viewMem, rfl⟩ := List.mem_map.mp committed
      exact ⟨view, viewMem, (shape view).mp quoted⟩
    · obtain ⟨payload, payloadMem, made⟩ := List.mem_filterMap.mp pending
      have named : ref.entryId = row.entryId := by
        unfold EntryRef.quote at quoted
        split at quoted
        · cases quoted
        · exact (Prod.mk.inj (Option.some.inj quoted)).1
      exact absurd (named ▸ pendingEntry_mem payloadMem made) foreign
  · rintro ⟨view, viewMem, shown⟩
    exact ⟨_, List.mem_append_left _ (List.mem_map_of_mem (List.mem_map_of_mem viewMem)),
      (shape view).mpr shown⟩

theorem mem_entries_quotes (member : row ∈ engine.graph.entries)
    (foreign : row.entryId ∉ pendingIds block) :
    ∃ refs, block.entries engine id = .ok refs ∧
      ((row.entryId, text) ∈ refs.filterMap EntryRef.quote ↔
        (engine.graph.inClass id row.memoryId = true ∧ row.supersededBy = none ∧
            row.entryId ∉ pendingSuperseded block) ∧
          ¬Withholds engine.graph block.presentSet id (entryFromRow engine.graph .live row) ∧
            text = row.text) := by
  obtain ⟨mark, listed, marked⟩ := annotate_ok engine block id
  refine ⟨_, by rw [entries, listed]; rfl, ?_⟩
  rw [classEntries, List.filter_map, mem_listing_quotes marked ?_ member foreign]
  · rw [List.mem_filter, mem_entryRowsWhere]
    have kept : ((fun entry : EntryView => decide (entry.entryId ∉ pendingSuperseded block)) ∘
        entryFromRow engine.graph .live) row = true ↔ row.entryId ∉ pendingSuperseded block :=
      decide_eq_true_iff
    rw [kept]
    simp only [member, true_and, Bool.and_eq_true, Option.isNone_iff_eq_none, and_assoc]
  · intro other otherMem
    exact (mem_entryRowsWhere.mp (List.mem_filter.mp otherMem).1).1

theorem mem_history_quotes (member : row ∈ engine.graph.entries)
    (foreign : row.entryId ∉ pendingIds block) :
    ∃ refs, block.history engine id = .ok refs ∧
      ((row.entryId, text) ∈ refs.filterMap EntryRef.quote ↔
        engine.graph.inClass id row.memoryId = true ∧
          ¬Withholds engine.graph block.presentSet id
            (entryFromRow engine.graph .withWithdrawn row) ∧ text = row.text) := by
  obtain ⟨mark, listed, marked⟩ := annotate_ok engine block id
  refine ⟨_, by rw [history, listed]; rfl, ?_⟩
  rw [classHistory, mem_listing_quotes marked ?_ member foreign]
  · simp only [mem_entryRowsWhere, member, true_and]
  · exact fun other otherMem => (mem_entryRowsWhere.mp otherMem).1

theorem mem_handback_quotes {entry : EntryId} (member : row ∈ graph.entries)
    (foreign : row.entryId ∉ pendingIds block) :
    ∃ ref, entryRefByIdAny graph block entry = .ok ref ∧
      ((row.entryId, text) ∈ (ref.bind EntryRef.quote).toList →
        ∃ owner, graph.memoryById row.memoryId = some owner ∧
          (block.presentSet ≠ [] →
            Surfaces (blockClassOf graph) (probe (entryFromRow graph .live row)) owner
              block.presentSet)) := by
  unfold entryRefByIdAny
  cases pending : entryRefById graph block entry with
  | some ref =>
    refine ⟨some ref, rfl, fun quoted => absurd ?_ foreign⟩
    obtain ⟨payload, payloadMem, made⟩ := List.exists_of_findSome?_eq_some pending
    unfold pendingHandle at made
    split at made
    · split at made
      · cases made
        simp only [Option.bind_some, EntryRef.quote, Bool.false_eq_true, if_false,
          Option.toList_some, List.mem_singleton, Prod.mk.injEq] at quoted
        exact List.mem_filterMap.mpr ⟨_, payloadMem, by rw [quoted.1]; rfl⟩
      · cases made
    · cases made
  | none =>
    cases found : graph.entryById entry with
    | none => exact ⟨none, rfl, fun quoted => absurd quoted (by simp)⟩
    | some pair =>
      obtain ⟨owner, view⟩ := pair
      obtain ⟨withheld, computed, spec⟩ := withheldFromPresent_ok graph block owner view
      refine ⟨_, by simp only [computed]; rfl, ?_⟩
      obtain ⟨stored, storedRow, made⟩ := Option.bind_eq_some_iff.mp found
      obtain ⟨memory, live, made⟩ := Option.map_eq_some_iff.mp made
      cases made
      intro quoted
      cases withheld with
      | true => simp [entryRef, EntryRef.quote] at quoted
      | false =>
        simp only [entryRef, EntryRef.quote, Bool.false_eq_true, if_false, Option.bind_some,
          Option.toList_some, List.mem_singleton, Prod.mk.injEq] at quoted
        obtain rfl := Table.eq_of_key_eq member (Table.find_eq_some_iff.mp storedRow).1 quoted.1
        refine ⟨owner, live, fun audience => ?_⟩
        by_contra hidden
        cases spec.mpr ⟨audience, hidden⟩

end Words

end MemoryBlock

end Zuihitsu
