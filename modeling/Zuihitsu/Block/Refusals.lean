/-
# What a refusal quotes

Of the errors of a block only two carry an entry's words: the duplicate a deduplicated
append refuses, and the candidates of an ambiguous prefix. Every other operation fails
without words, so a request that names an entry is refused with words by its reference
alone.
-/

import Zuihitsu.Block.Clearance

namespace Zuihitsu

open Zuihitsu.Core Zuihitsu.Graph Zuihitsu.Library

namespace MemoryBlock

/-! ### Failures without words -/

/-- A step whose failures quote no entry. -/
def Wordless {α : Type} (done : Except MemoryError α) : Prop :=
  ∀ failure, done = .error failure → failureQuotes failure = []

section Wordless

variable {α β : Type} {engine : Engine} {graph : Graph} {block : MemoryBlock} {id : MemoryId}
variable {entry fresh : EntryId} {text : String} {opts : AppendOptions}

@[simp] theorem wordless_ok (value : α) : Wordless (.ok value) := by
  intro failure refused
  cases refused

@[simp] theorem wordless_error {failure : MemoryError} :
    Wordless (.error failure : Except MemoryError α) ↔ failureQuotes failure = [] := by
  constructor
  · intro plain
    exact plain failure rfl
  · rintro plain _ ⟨⟩
    exact plain

theorem Wordless.bind {done : Except MemoryError α} {next : α → Except MemoryError β}
    (first : Wordless done) (second : ∀ value, Wordless (next value)) : Wordless (done >>= next) := by
  intro failure refused
  rcases bind_eq_error.mp refused with here | ⟨value, _, later⟩
  · exact first failure here
  · exact second value failure later

theorem wordless_ite {condition : Prop} [Decidable condition] {first second : Except MemoryError α}
    (yes : Wordless first) (no : Wordless second) : Wordless (if condition then first else second) := by
  split
  · exact yes
  · exact no

theorem wordless_foldlM {items : List β} {step : α → β → Except MemoryError α}
    (each : ∀ state item, Wordless (step state item)) (start : α) :
    Wordless (items.foldlM step start) := by
  induction items generalizing start with
  | nil => exact wordless_ok start
  | cons item rest ih =>
    rw [List.foldlM_cons]
    exact (each start item).bind ih

theorem wordless_refuseIf {refused : Prop} [Decidable refused] {failure : MemoryError}
    (plain : failureQuotes failure = []) : Wordless (refuseIf refused failure) :=
  wordless_ite (wordless_error.mpr plain) (wordless_ok ())

theorem wordless_guardSelf : Wordless (guardSelf block id) :=
  wordless_ite (wordless_error.mpr rfl) (wordless_ok ())

theorem wordless_guardOperator : Wordless (guardOperator block id) :=
  wordless_ite (wordless_error.mpr rfl) (wordless_ok ())

theorem wordless_guardSelfMerge {other : MemoryId} : Wordless (guardSelfMerge block id other) :=
  wordless_ite (wordless_error.mpr rfl) (wordless_ok ())

theorem wordless_guardForeign {live : LiveEntry} :
    Wordless (guardForeignConfidenceSupersede graph block live) := by
  unfold guardForeignConfidenceSupersede
  refine wordless_ite (wordless_ok ()) ?_
  split
  · exact wordless_ite (wordless_ok ()) (wordless_error.mpr rfl)
  · exact wordless_ite (wordless_ok ()) (wordless_error.mpr rfl)
  · exact wordless_ok ()

theorem wordless_validateOccurredAt {occurredAt : Option TemporalRef} :
    Wordless (validateOccurredAt occurredAt) := by
  unfold validateOccurredAt
  split
  · exact wordless_ite (wordless_ok ()) (wordless_error.mpr rfl)
  · exact wordless_ok ()

theorem wordless_reconcile {visibility : Option VisibilityChoice} {excluded : Option IdSet} :
    Wordless (reconcileForcedVisibility visibility excluded) := by
  unfold reconcileForcedVisibility
  split
  · refine wordless_ite (wordless_error.mpr rfl) ?_
    split
    · exact wordless_ok _
    · exact wordless_ok _
    · exact wordless_error.mpr rfl
  · exact wordless_ok _
  · exact wordless_ok _

theorem wordless_resolveVisibility {name : Option MemoryName} {toldBy : Teller}
    {forced : Option ForcedVisibility} :
    Wordless (resolveVisibility block name id toldBy forced) := by
  unfold resolveVisibility
  split
  · exact wordless_ok _
  · refine wordless_ite (wordless_ok _) (wordless_ite (wordless_error.mpr rfl) ?_)
    split
    · exact wordless_ok _
    · exact wordless_ok _

theorem wordless_liveEntry : Wordless (liveEntry graph block id entry) := by
  unfold liveEntry
  split
  · exact wordless_ok _
  · exact wordless_error.mpr rfl

theorem wordless_pushContent {toldBy : Teller} {visibility : Visibility}
    {occurredAt : Option TemporalRef} :
    Wordless (pushContent engine fresh block id text toldBy visibility occurredAt) :=
  wordless_ite (wordless_error.mpr rfl) (wordless_ok _)

theorem wordless_recordAttestation {write : AttestationWrite} :
    Wordless (recordAttestation engine block write) :=
  (wordless_refuseIf rfl).bind fun _ => wordless_ite (wordless_ok _) (wordless_ok _)

theorem wordless_attestTarget : Wordless (attestTarget graph block entry) := by
  unfold attestTarget
  split
  · exact wordless_ok _
  · split
    · exact wordless_ok _
    · exact wordless_error.mpr rfl

theorem wordless_attestTargetText : Wordless (attestTargetText graph block entry) := by
  unfold attestTargetText
  split
  · rename_i memory view _
    obtain ⟨withheld, computed, _⟩ := withheldFromPresent_ok graph block memory view
    rw [computed]
    exact wordless_ok _
  · split
    · exact wordless_ok _
    · exact wordless_error.mpr rfl

theorem wordless_append : Wordless (append engine fresh block id text opts) :=
  wordless_guardSelf.bind fun _ => wordless_guardOperator.bind fun _ =>
    wordless_reconcile.bind fun _ => wordless_resolveVisibility.bind fun _ =>
      (wordless_refuseIf rfl).bind fun _ => wordless_validateOccurredAt.bind fun _ =>
        wordless_pushContent.bind fun _ => wordless_ok _

theorem wordless_supersede {old new : EntryId} : Wordless (supersede engine block id old new) :=
  wordless_guardSelf.bind fun _ => wordless_guardOperator.bind fun _ =>
    wordless_liveEntry.bind fun _ => wordless_liveEntry.bind fun _ =>
      wordless_guardForeign.bind fun _ => wordless_ok _

theorem wordless_retract {reason : String} {producedBy : Option ProducedBy} :
    Wordless (retract engine block id entry reason producedBy) :=
  wordless_guardSelf.bind fun _ => wordless_guardOperator.bind fun _ =>
    (wordless_refuseIf rfl).bind fun _ => wordless_liveEntry.bind fun _ =>
      wordless_ite (wordless_ok _) (wordless_guardForeign.bind fun _ => wordless_ok _)

theorem wordless_retractAttestation {teller : Teller} {reason : String}
    {producedBy : Option ProducedBy} :
    Wordless (retractAttestation engine block id entry teller reason producedBy) :=
  wordless_guardSelf.bind fun _ => wordless_guardOperator.bind fun _ =>
    (wordless_refuseIf rfl).bind fun _ => wordless_liveEntry.bind fun _ =>
      (wordless_refuseIf rfl).bind fun _ => wordless_ok _

theorem wordless_create {created : MemoryId} {name : MemoryName} {content : Option String} :
    Wordless (createWithOpts engine created fresh block name content opts) := by
  refine (wordless_refuseIf rfl).bind fun _ => ?_
  cases content with
  | none => exact wordless_ok _
  | some =>
    exact wordless_reconcile.bind fun _ => (wordless_refuseIf rfl).bind fun _ =>
      wordless_resolveVisibility.bind fun _ => wordless_validateOccurredAt.bind fun _ =>
        wordless_pushContent.bind fun _ => wordless_ok _

theorem wordless_rename {newName : MemoryName} : Wordless (rename engine block id newName) := by
  refine wordless_guardSelf.bind fun _ => wordless_ite (wordless_ok _) ?_
  refine (wordless_refuseIf rfl).bind fun _ => (wordless_refuseIf rfl).bind fun _ => ?_
  split
  · exact wordless_ok _
  · exact (wordless_refuseIf rfl).bind fun _ => wordless_ok _

theorem wordless_consolidate {sources : List EntryId} {producedBy : Option ProducedBy} :
    Wordless (consolidate engine fresh block id sources text producedBy) := by
  refine wordless_guardSelf.bind fun _ => wordless_guardOperator.bind fun _ =>
    (wordless_foldlM (fun shared source => ?_) none).bind fun shared => ?_
  · refine wordless_liveEntry.bind fun _ => wordless_guardForeign.bind fun _ => ?_
    cases shared with
    | none => exact wordless_ok _
    | some => exact (wordless_refuseIf rfl).bind fun _ => wordless_ok _
  · cases shared with
    | none => exact wordless_error.mpr rfl
    | some =>
      exact (wordless_refuseIf rfl).bind fun _ => wordless_pushContent.bind fun _ => wordless_ok _

theorem wordless_consolidateInto {sources : List EntryId} {producedBy : Option ProducedBy} :
    Wordless (consolidateInto engine block id sources entry producedBy) := by
  refine wordless_guardSelf.bind fun _ => wordless_guardOperator.bind fun _ =>
    (wordless_refuseIf rfl).bind fun _ => wordless_liveEntry.bind fun _ =>
      (wordless_foldlM (fun plan source => ?_) _).bind fun _ => wordless_ok _
  exact wordless_liveEntry.bind fun _ => wordless_guardForeign.bind fun _ =>
    wordless_ite (wordless_ok _) (wordless_ok _)

theorem wordless_proposeMerge {other : MemoryId} {rationale : Option String} :
    Wordless (proposeMerge block id other rationale) :=
  (wordless_refuseIf rfl).bind fun _ => wordless_guardSelfMerge.bind fun _ => wordless_ok _

theorem wordless_writeLink {other : MemoryId} {relation : RelationName} {create : Bool}
    {forced : Option ForcedVisibility} :
    Wordless (writeLink engine block id other relation create forced) := by
  refine wordless_ite (Wordless.bind ?_ fun _ => wordless_ite (wordless_ok _) (wordless_ok _))
    (wordless_ok _)
  unfold resolveLinkVisibility
  split
  · exact wordless_ok _
  · refine wordless_ite (wordless_ok _) (wordless_ite (wordless_error.mpr rfl) ?_)
    split
    · exact wordless_ok _
    · exact wordless_ok _

theorem wordless_changeLink {other : MemoryId} {relation : RelationName} {create : Bool}
    {forced : Option ForcedVisibility} :
    Wordless (changeLink engine block id other relation create forced) := by
  refine (wordless_refuseIf rfl).bind fun _ => wordless_ite ?_ wordless_writeLink
  refine wordless_guardSelfMerge.bind fun _ => ?_
  split
  · exact wordless_ite wordless_proposeMerge (wordless_error.mpr rfl)
  · exact wordless_ite wordless_proposeMerge wordless_writeLink
  · exact wordless_writeLink

theorem wordless_run {op : Operation} (plain : op.isDedup = false) :
    Wordless (op.run engine block) := by
  cases op with
  | create => exact wordless_create
  | rename => exact wordless_rename
  | append => exact wordless_append
  | appendDedup => cases plain
  | supersede => exact wordless_supersede
  | revise => exact wordless_append.bind fun _ => wordless_supersede
  | setVolatility id level =>
    refine wordless_guardSelf.bind fun _ => ?_
    cases Volatility.parse level with
    | none => exact wordless_error.mpr rfl
    | some => exact wordless_ok _
  | attest =>
    exact wordless_guardSelf.bind fun _ => wordless_guardOperator.bind fun _ =>
      wordless_liveEntry.bind fun _ => wordless_attestTarget.bind fun _ =>
        wordless_reconcile.bind fun _ => wordless_resolveVisibility.bind fun _ =>
          wordless_recordAttestation
  | retract => exact wordless_retract
  | retractAttestation => exact wordless_retractAttestation
  | consolidate => exact wordless_consolidate
  | consolidateInto => exact wordless_consolidateInto
  | createTag | describeTag => exact (wordless_refuseIf rfl).bind fun _ => wordless_ok _
  | tag =>
    exact wordless_guardSelf.bind fun _ => (wordless_refuseIf rfl).bind fun _ => wordless_ok _
  | untag =>
    refine wordless_guardSelf.bind fun _ => Wordless.bind ?_ fun _ => wordless_ok _
    exact wordless_ite (wordless_error.mpr rfl) (wordless_ok ())
  | registerRelation =>
    have parsed : ∀ value, Wordless (parseCardinality value) := by
      intro value
      unfold parseCardinality
      split
      · exact wordless_ok _
      · exact wordless_error.mpr rfl
    exact (parsed _).bind fun _ => (parsed _).bind fun _ => wordless_ok _
  | link => exact wordless_reconcile.bind fun _ => wordless_changeLink
  | unlink => exact wordless_changeLink
  | proposeMerge => exact wordless_proposeMerge
  | designatePrimary => exact wordless_guardSelf.bind fun _ => wordless_ok _
  | rehomeLink => exact wordless_ok _

end Wordless

/-! ### What a refusal quotes -/

/-- A step that fails and quotes some words as it does. -/
def RefusesWith {α : Type} (done : Except Refusal α) (quote : EntryId × String) : Prop :=
  ∃ refusal, done = .error refusal ∧ quote ∈ refusal.quotes

section Refusals

variable {α β : Type} {quote : EntryId × String}

theorem refusesWith_bind {done : Except Refusal α} {next : α → Except Refusal β} :
    RefusesWith (done >>= next) quote ↔
      RefusesWith done quote ∨ ∃ value, done = .ok value ∧ RefusesWith (next value) quote := by
  simp only [RefusesWith, bind_eq_error]
  constructor
  · rintro ⟨refusal, here | ⟨value, passed, later⟩, quoted⟩
    · exact .inl ⟨refusal, here, quoted⟩
    · exact .inr ⟨value, passed, refusal, later, quoted⟩
  · rintro (⟨refusal, here, quoted⟩ | ⟨value, passed, refusal, later, quoted⟩)
    · exact ⟨refusal, .inl here, quoted⟩
    · exact ⟨refusal, .inr ⟨value, passed, later⟩, quoted⟩

@[simp] theorem not_refusesWith_ok {value : α} :
    ¬RefusesWith (.ok value : Except Refusal α) quote := by
  rintro ⟨refusal, refused, _⟩
  cases refused

@[simp] theorem not_refusesWith_pure {value : α} :
    ¬RefusesWith (pure value : Except Refusal α) quote := not_refusesWith_ok

theorem refusesWith_checked {done : Except MemoryError α} :
    RefusesWith (checked done) quote ↔
      ∃ failure, done = .error failure ∧ quote ∈ failureQuotes failure := by
  cases done with
  | ok => simp [checked]
  | error => simp [RefusesWith, checked, Refusal.quotes]

theorem not_refusesWith_checked {done : Except MemoryError α} (plain : Wordless done) :
    ¬RefusesWith (checked done) quote := by
  rw [refusesWith_checked]
  rintro ⟨failure, refused, quoted⟩
  rw [plain failure refused] at quoted
  cases quoted

theorem refusesWith_checked_bind {done : Except MemoryError α} (plain : Wordless done)
    {next : α → Except Refusal β} :
    RefusesWith (checked done >>= next) quote ↔
      ∃ value, done = .ok value ∧ RefusesWith (next value) quote := by
  rw [refusesWith_bind, or_iff_right (not_refusesWith_checked plain)]
  simp only [checked_ok]

theorem refusesWith_bind_pure {done : Except Refusal α} {next : α → β} :
    RefusesWith (done >>= fun value => pure (next value)) quote ↔ RefusesWith done quote := by
  rw [refusesWith_bind, or_iff_left]
  rintro ⟨value, _, refuses⟩
  exact not_refusesWith_pure refuses

end Refusals

section References

variable {ulids : UlidText} {graph : Graph} {engine : Engine} {block : MemoryBlock}
variable {id : MemoryId} {row : EntryRow} {text : String} {selector : EntrySelector}

/-- The ids a prefix is matched against. -/
def candidateIds (graph : Graph) (block : MemoryBlock) (id : MemoryId) : List EntryId :=
  (graph.classHistory id).map (·.entryId) ++
    (block.buffer.filterMap (pendingCandidate (id :: graph.classMembers id))).map (·.1)

/-- Whether what the agent typed is no full id, and long enough to be matched as a prefix. -/
def IsPrefix (ulids : UlidText) (raw : String) : Prop :=
  ulids.parse (String.ofList (trimmed raw.toList)) = none ∧
    minEntryPrefix ≤ (String.ofList (needle raw)).utf8ByteSize

/-- A committed entry is a candidate of a reference that more than one entry of its class
matches. -/
def IsCandidate (ulids : UlidText) (graph : Graph) (block : MemoryBlock) (id : MemoryId)
    (selector : EntrySelector) (row : EntryRow) : Prop :=
  ∃ raw, selector = .ref raw ∧ IsPrefix ulids raw ∧
    2 ≤ ((candidateIds graph block id).filter (matchesRef ulids raw)).length ∧
    graph.inClass id row.memoryId = true ∧ matchesRef ulids raw row.entryId = true

theorem IsCandidate.within (listed : IsCandidate ulids graph block id selector row) :
    graph.inClass id row.memoryId = true := by
  obtain ⟨_, _, _, _, within, _⟩ := listed
  exact within

/-- The words of a committed entry among the candidates of a prefix. -/
theorem mem_candidates_quotes {mark : EntryView → Bool}
    (marked : ∀ view, mark view = true ↔ Withholds graph block.presentSet id view)
    (member : row ∈ graph.entries) (foreign : row.entryId ∉ pendingIds block) {raw : String} :
    (∃ found ∈ (graph.classHistory id).map (fun view => (view.entryId, Wording.of (mark view)
          view.text)) ++ block.buffer.filterMap (pendingCandidate (id :: graph.classMembers id)),
        matchesRef ulids raw found.1 = true ∧ found.2.quote found.1 = some (row.entryId, text)) ↔
      (graph.inClass id row.memoryId = true ∧ matchesRef ulids raw row.entryId = true) ∧
        ¬Withholds graph block.presentSet id (entryFromRow graph .withWithdrawn row) ∧
          text = row.text := by
  have shape : ∀ view : EntryView,
      (Wording.of (mark view) view.text).quote view.entryId = some (row.entryId, text) ↔
        view.entryId = row.entryId ∧ ¬Withholds graph block.presentSet id view ∧
          text = view.text := by
    intro view
    rw [← marked view]
    cases mark view with
    | true => simp [Wording.of, Wording.quote]
    | false => simp [Wording.of, Wording.quote, eq_comm]
  have viewed := @exists_view_iff graph row .withWithdrawn
    (graph.entryRowsWhere fun other => graph.inClass id other.memoryId)
    (fun other otherMem => (mem_entryRowsWhere.mp otherMem).1) member fun view =>
      matchesRef ulids raw row.entryId = true ∧
        ¬Withholds graph block.presentSet id view ∧ text = view.text
  constructor
  · rintro ⟨found, foundMem, matches', quoted⟩
    rcases List.mem_append.mp foundMem with committed | pending
    · obtain ⟨view, viewMem, rfl⟩ := List.mem_map.mp committed
      obtain ⟨same, shown⟩ := (shape view).mp quoted
      obtain ⟨rowMem, matched, words⟩ := viewed.mp ⟨view, viewMem, same, same ▸ matches', shown⟩
      exact ⟨⟨(mem_entryRowsWhere.mp rowMem).2, matched⟩, words⟩
    · obtain ⟨payload, payloadMem, made⟩ := List.mem_filterMap.mp pending
      obtain ⟨_, _, here⟩ := Option.map_eq_some_iff.mp quoted
      have named : found.1 = row.entryId := (Prod.mk.inj here).1
      exact absurd (named ▸ pendingCandidate_mem payloadMem made) foreign
  · rintro ⟨⟨within, matched⟩, words⟩
    obtain ⟨view, viewMem, same, matches', shown⟩ :=
      viewed.mpr ⟨mem_entryRowsWhere.mpr ⟨member, within⟩, matched, words⟩
    exact ⟨_, List.mem_append_left _ (List.mem_map_of_mem viewMem), same ▸ matches',
      (shape view).mpr ⟨same, shown⟩⟩

theorem refusesWith_resolve (member : row ∈ graph.entries)
    (foreign : row.entryId ∉ pendingIds block) :
    RefusesWith (resolveEntryRef ulids graph block id selector) (row.entryId, text) ↔
      IsCandidate ulids graph block id selector row ∧
        ¬Withholds graph block.presentSet id (entryFromRow graph .withWithdrawn row) ∧
          text = row.text := by
  cases selector with
  | id => simp [resolveEntryRef, IsCandidate]
  | ref raw =>
    unfold resolveEntryRef IsCandidate IsPrefix
    simp only [EntrySelector.ref.injEq, exists_eq_left']
    cases parsed : ulids.parse (String.ofList (trimmed raw.toList)) with
    | some => simp
    | none =>
      dsimp only
      split
      · rename_i short
        have tooShort := Nat.not_le.mpr short
        simp [RefusesWith, Refusal.quotes, tooShort]
      · rename_i long
        obtain ⟨mark, listed, marked⟩ := classEntryTexts_ok graph block id
        have matched := @mem_candidates_quotes ulids graph block id row text mark marked member
          foreign raw
        have ids : candidateIds graph block id =
            ((graph.classHistory id).map (fun view => (view.entryId, Wording.of (mark view)
              view.text)) ++ block.buffer.filterMap (pendingCandidate (id :: graph.classMembers
                id))).map Prod.fst := by
          rw [candidateIds, List.map_append, List.map_map]
          rfl
        generalize (graph.classHistory id).map (fun view => (view.entryId, Wording.of (mark view)
          view.text)) ++ block.buffer.filterMap (pendingCandidate (id :: graph.classMembers id)) =
            entries at listed matched ids
        rw [ids, List.filter_map, List.length_map]
        have among : (∃ found ∈ entries.filter (matchesRef ulids raw ∘ Prod.fst),
            found.2.quote found.1 = some (row.entryId, text)) ↔
              (graph.inClass id row.memoryId = true ∧ matchesRef ulids raw row.entryId = true) ∧
                ¬Withholds graph block.presentSet id (entryFromRow graph .withWithdrawn row) ∧
                  text = row.text := by
          rw [← matched]
          simp only [List.mem_filter, Function.comp_apply, and_assoc]
        rw [refusesWith_bind, listed]
        simp only [checked, not_refusesWith_ok, false_or, Except.ok.injEq, exists_eq_left',
          true_and, Nat.not_lt.mp long, and_assoc]
        rw [← and_assoc (a := graph.inClass id row.memoryId = true), ← among]
        have fetched : (entries.filter fun entry => matchesRef ulids raw entry.1) =
            entries.filter (matchesRef ulids raw ∘ Prod.fst) := rfl
        rw [fetched]
        cases entries.filter (matchesRef ulids raw ∘ Prod.fst) with
        | nil => simp [RefusesWith, Refusal.quotes]
        | cons first rest =>
          cases rest with
          | nil => simp
          | cons =>
            simp only [RefusesWith, Except.error.injEq, exists_eq_left', Refusal.quotes,
              List.mem_filterMap, List.length_cons]
            exact (and_iff_right (by omega)).symm

end References

end MemoryBlock

end Zuihitsu
