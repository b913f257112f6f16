/-
# Who a block's answers speak in front of

Three of the block's paths hand out an entry without asking what stands behind it. A
listing asks the guard of the memory it was given, a history and the candidates of a
prefix are answered for by a founding endorsement that was withdrawn, and a dedup scan
looks at the posture an entry was founded at, or at who founded it.

The main result says of every run of requests in front of an audience that its replies
quote cleared entries only, exactly when none of the requests takes one of these paths to
an entry that no endorsement standing behind it shows.
-/

import Zuihitsu.Block.Refusals

namespace Zuihitsu

open Zuihitsu.Core Zuihitsu.Graph Zuihitsu.Library

namespace MemoryBlock

/-! ### What a request reaches -/

section Requests

variable {ulids : UlidText} {engine : Engine} {block : MemoryBlock} {id : MemoryId}
variable {row : EntryRow} {text : String} {opts : AppendOptions} {selector : EntrySelector}
variable {quote : EntryId × String} {request : Request}

/-- The live read of a class lists an entry. -/
def Listed (graph : Graph) (block : MemoryBlock) (id : MemoryId) (row : EntryRow) : Prop :=
  graph.inClass id row.memoryId = true ∧ row.supersededBy = none ∧
    row.entryId ∉ pendingSuperseded block

/-- A read that takes the withdrawn endorsements for the founding one opens an entry. -/
def HistoryOpens (graph : Graph) (presentSet : List MemoryId) (id : MemoryId) (row : EntryRow) :
    Prop :=
  Unguarded graph presentSet id (entryFromRow graph .withWithdrawn row) ∨
    FoundingOpens graph presentSet id (entryFromRow graph .withWithdrawn row)

/-- A reference is ambiguous, and its candidates hand an entry out. -/
def ReachesCandidate (ulids : UlidText) (graph : Graph) (block : MemoryBlock) (id : MemoryId)
    (row : EntryRow) (selector : EntrySelector) : Prop :=
  IsCandidate ulids graph block id selector row ∧ HistoryOpens graph block.presentSet id row

/-- The guards of a content write pass at its target. -/
def Guarded (block : MemoryBlock) (target : MemoryId) : Prop :=
  guardSelf block target = .ok () ∧ guardOperator block target = .ok ()

/-- The scan of a deduplicated append. -/
def scanFor (engine : Engine) (block : MemoryBlock) (id : MemoryId) (opts : AppendOptions)
    (distinct : Option EntryId) (hits : List DedupHit) : DedupScan :=
  dedupScan engine.graph (engine.graph.classOf (classWriteTarget engine.graph block id)) distinct
    (entryTeller opts block.teller) none hits

/-- A capture is answered with the entry's words: the writer founded it, or the posture of the
endorsement resolves. -/
def Answered (engine : Engine) (block : MemoryBlock) (opts : AppendOptions)
    (found : MemoryView × EntryView) : Prop :=
  sameTellerClass engine.graph found.2.toldBy (entryTeller opts block.teller) = true ∨
    ∃ forced posture, reconcileForcedVisibility opts.visibility opts.exclude = .ok forced ∧
      resolveVisibility block (some found.1.name) found.1.id (entryTeller opts block.teller) forced =
        .ok posture

/-- A deduplicated append speaks of an entry: it captures it, or it is recorded and the entry
is the advisory's. -/
def Picks (engine : Engine) (fresh : EntryId) (block : MemoryBlock) (id : MemoryId) (text : String)
    (opts : AppendOptions) (distinct : Option EntryId) (hits : List DedupHit) (row : EntryRow) :
    Prop :=
  ∃ found : MemoryView × EntryView, found.2.entryId = row.entryId ∧
    ((scanFor engine block id opts distinct hits).capture = some found ∧
        Answered engine block opts found ∨
      (scanFor engine block id opts distinct hits).capture = none ∧
        (scanFor engine block id opts distinct hits).crossClass = some found ∧
          ∃ after, append engine fresh block id text opts = .ok after)

/-- The path that hands out an entry without asking what stands behind it. -/
def Request.Reaches (ulids : UlidText) (engine : Engine) (block : MemoryBlock) (row : EntryRow) :
    Request → Prop
  | entries id | details id =>
    Listed engine.graph block id row ∧
      Unguarded engine.graph block.presentSet id (entryFromRow engine.graph .live row)
  | history id =>
    engine.graph.inClass id row.memoryId = true ∧
      HistoryOpens engine.graph block.presentSet id row
  | handback _ => False
  | attest id selector _ =>
    Guarded block (classWriteTarget engine.graph block id) ∧
      ReachesCandidate ulids engine.graph block (classWriteTarget engine.graph block id) row selector
  | appendDedup fresh id text opts distinctFrom hits =>
    (∃ selector ∈ distinctFrom, ReachesCandidate ulids engine.graph block id row selector) ∨
      ∃ distinct, distinctFrom.mapM (resolveEntryRef ulids engine.graph block id) = .ok distinct ∧
        Picks engine fresh block id text opts distinct hits row
  | supersede id old new =>
    let target := classWriteTarget engine.graph block id
    Guarded block target ∧
      (ReachesCandidate ulids engine.graph block target row old ∨
        (∃ entry, resolveEntryRef ulids engine.graph block target old = .ok entry) ∧
          ReachesCandidate ulids engine.graph block target row new)
  | retract id selector reason _ | retractAttestation id selector _ reason _ =>
    Guarded block (classWriteTarget engine.graph block id) ∧ trimmedReason reason ≠ "" ∧
      ReachesCandidate ulids engine.graph block (classWriteTarget engine.graph block id) row selector
  | other .. => False

theorem mem_serve_quotes :
    quote ∈ (serve ulids engine block request).2.quotes ↔
      RefusesWith (request.run ulids engine block) quote ∨
        ∃ served, request.run ulids engine block = .ok served ∧ quote ∈ served.2.quotes := by
  unfold serve RefusesWith
  cases request.run ulids engine block with
  | ok => simp
  | error => simp [Reply.quotes]

theorem entryId_of_entryById {graph : Graph} {entry : EntryId} {found : MemoryView × EntryView}
    (stored : graph.entryById entry = some found) : found.2.entryId = entry := by
  obtain ⟨kept, keptRow, made⟩ := Option.bind_eq_some_iff.mp stored
  obtain ⟨memory, _, rfl⟩ := Option.map_eq_some_iff.mp made
  exact (Table.find_eq_some_iff.mp keptRow).2

theorem live_of_entryById {graph : Graph} {source : EntryId} {found : MemoryView × EntryView}
    (stored : graph.entryById source = some found) (member : row ∈ graph.entries)
    (named : found.2.entryId = row.entryId) : (graph.liveRow row.memoryId).isSome = true := by
  obtain ⟨kept, keptRow, made⟩ := Option.bind_eq_some_iff.mp stored
  obtain ⟨memory, live, rfl⟩ := Option.map_eq_some_iff.mp made
  obtain rfl := Table.eq_of_key_eq (Table.find_eq_some_iff.mp keptRow).1 member named
  obtain ⟨standing, there, _⟩ := row_of_memoryById live
  rw [there, Option.isSome_some]

theorem attestTargetText_committed {graph : Graph} {entry : EntryId} {wording : Wording}
    (read : attestTargetText graph block entry = .ok wording) (foreign : entry ∉ pendingIds block) :
    ∃ owner view withheld, graph.entryById entry = some (owner, view) ∧
      withheldFromPresent graph block owner view = .ok withheld ∧
        wording = .of withheld view.text := by
  unfold attestTargetText at read
  split at read
  · rename_i owner view found
    obtain ⟨withheld, computed, made⟩ := bind_eq_ok.mp read
    cases made
    exact ⟨owner, view, withheld, found, computed, rfl⟩
  · split at read
    · rename_i text pending
      obtain ⟨payload, payloadMem, made⟩ := List.exists_of_findSome?_eq_some pending
      unfold pendingText at made
      split at made
      · split at made
        · rename_i own
          exact absurd (List.mem_filterMap.mpr ⟨_, payloadMem, by rw [appended, own]⟩) foreign
        · cases made
      · cases made
    · cases read

theorem cleared_of_entryById {graph : Graph} {entry : EntryId} {owner : MemoryView} {view : EntryView}
    (found : graph.entryById entry = some (owner, view)) (audience : block.presentSet ≠ [])
    (member : row ∈ graph.entries) (named : view.entryId = row.entryId)
    (shown : withheldFromPresent graph block owner view = .ok false) :
    Cleared graph block.presentSet row := by
  obtain ⟨stored, storedRow, made⟩ := Option.bind_eq_some_iff.mp found
  obtain ⟨memory, live, made⟩ := Option.map_eq_some_iff.mp made
  cases made
  obtain rfl := Table.eq_of_key_eq (Table.find_eq_some_iff.mp storedRow).1 member named
  obtain ⟨withheld, computed, spec⟩ := withheldFromPresent_ok graph block owner
    (entryFromRow graph .live stored)
  rw [shown] at computed
  cases computed
  refine ⟨owner, live, ?_⟩
  by_contra hidden
  cases spec.mpr ⟨audience, hidden⟩

theorem refusesWith_guards {α : Type} {target : MemoryId} {next : Except Refusal α} :
    RefusesWith (checked (guardSelf block target) >>= fun _ =>
        checked (guardOperator block target) >>= fun _ => next) quote ↔
      Guarded block target ∧ RefusesWith next quote := by
  rw [refusesWith_checked_bind wordless_guardSelf, exists_checked,
    refusesWith_checked_bind wordless_guardOperator, exists_checked, Guarded, and_assoc]

section Reached

variable (audience : block.presentSet ≠ [])
variable (shuttered : Shuttered engine.graph block.presentSet row)
include audience shuttered

theorem not_withholds_iff (within : engine.graph.inClass id row.memoryId = true)
    {scope : AttestationScope} :
    ¬Withholds engine.graph block.presentSet id (entryFromRow engine.graph scope row) ↔
      Unguarded engine.graph block.presentSet id (entryFromRow engine.graph scope row) ∨
        FoundingOpens engine.graph block.presentSet id (entryFromRow engine.graph scope row) := by
  have live : (engine.graph.liveRow id).isSome = true := by
    obtain ⟨primary, own, _⟩ := inClass_iff.mp within
    obtain ⟨found, stored, _⟩ := Option.map_eq_some_iff.mp own
    rw [stored, Option.isSome_some]
  rw [withholds_iff audience live, not_not, opens_iff_of_shuttered within shuttered]

variable (member : row ∈ engine.graph.entries) (foreign : row.entryId ∉ pendingIds block)
include member foreign

theorem exists_refusesWith_resolve :
    (∃ text, RefusesWith (resolveEntryRef ulids engine.graph block id selector)
        (row.entryId, text)) ↔
      ReachesCandidate ulids engine.graph block id row selector := by
  simp only [refusesWith_resolve member foreign, ReachesCandidate]
  constructor
  · rintro ⟨text, listed, shown, _⟩
    exact ⟨listed, (not_withholds_iff audience shuttered listed.within).mp shown⟩
  · rintro ⟨listed, opens⟩
    exact ⟨row.text, listed, (not_withholds_iff audience shuttered listed.within).mpr opens, rfl⟩

theorem quotes_entries_iff {refs : List EntryRef} (listed : block.entries engine id = .ok refs) :
    (∃ text, (row.entryId, text) ∈ refs.filterMap EntryRef.quote) ↔
      Listed engine.graph block id row ∧
        Unguarded engine.graph block.presentSet id (entryFromRow engine.graph .live row) := by
  have quoted : ∀ text, (row.entryId, text) ∈ refs.filterMap EntryRef.quote ↔
      Listed engine.graph block id row ∧
        ¬Withholds engine.graph block.presentSet id (entryFromRow engine.graph .live row) ∧
          text = row.text := by
    intro text
    obtain ⟨read, same, quoted⟩ := @mem_entries_quotes engine block id row text member foreign
    rw [listed] at same
    cases same
    exact quoted
  simp only [quoted]
  constructor
  · rintro ⟨text, here, shown, _⟩
    refine ⟨here, ?_⟩
    have opens := (not_withholds_iff audience shuttered here.1).mp shown
    exact opens.resolve_right not_foundingOpens_live
  · rintro ⟨here, opens⟩
    exact ⟨row.text, here, (not_withholds_iff audience shuttered here.1).mpr
      (.inl opens), rfl⟩

theorem quotes_history_iff {refs : List EntryRef} (listed : block.history engine id = .ok refs) :
    (∃ text, (row.entryId, text) ∈ refs.filterMap EntryRef.quote) ↔
      engine.graph.inClass id row.memoryId = true ∧
        HistoryOpens engine.graph block.presentSet id row := by
  have quoted : ∀ text, (row.entryId, text) ∈ refs.filterMap EntryRef.quote ↔
      engine.graph.inClass id row.memoryId = true ∧
        ¬Withholds engine.graph block.presentSet id
          (entryFromRow engine.graph .withWithdrawn row) ∧ text = row.text := by
    intro text
    obtain ⟨read, same, quoted⟩ := @mem_history_quotes engine block id row text member foreign
    rw [listed] at same
    cases same
    exact quoted
  simp only [quoted]
  constructor
  · rintro ⟨text, within, shown, _⟩
    exact ⟨within, (not_withholds_iff audience shuttered within).mp shown⟩
  · rintro ⟨within, opens⟩
    exact ⟨row.text, within, (not_withholds_iff audience shuttered within).mpr opens,
      rfl⟩

theorem stub_of_attestTarget {wording : Wording}
    (read : attestTargetText engine.graph block row.entryId = .ok wording) : wording = .stub := by
  obtain ⟨owner, view, withheld, found, computed, rfl⟩ := attestTargetText_committed read foreign
  have same : view.entryId = row.entryId := entryId_of_entryById found
  cases withheld with
  | true => rfl
  | false =>
    exact absurd (cleared_of_entryById found audience member same computed)
      ((not_cleared_iff (live_of_entryById found member same)).mpr shuttered)

end Reached

end Requests

/-! ### The deduplicated append -/

section Dedup

variable {engine : Engine} {graph : Graph} {block : MemoryBlock} {id : MemoryId} {row : EntryRow}
variable {text : String} {opts : AppendOptions} {found : MemoryView × EntryView} {entry : EntryId}

theorem quotes_corroborate_iff
    (visible : visibleToWriter engine.graph found.2 (entryTeller opts block.teller) = true) :
    (∃ said, (∃ failure, corroborateNoted engine block found.1 found.2 text opts = .error failure ∧
          (entry, said) ∈ failureQuotes failure) ∨
        ∃ noted, corroborateNoted engine block found.1 found.2 text opts = .ok noted ∧
          (entry, said) ∈ (Reply.appended (.corroborated noted.2)).quotes) ↔
      found.2.entryId = entry ∧ Answered engine block opts found := by
  unfold Answered
  by_cases same : sameTellerClass engine.graph found.2.toldBy (entryTeller opts block.teller) = true
  · have refused : corroborateNoted engine block found.1 found.2 text opts =
        .error (.duplicateEntry found.2.entryId found.2.text) := by
      simp only [corroborateNoted, refuseIf, same, if_true]
      rfl
    simp [refused, failureQuotes, same, eq_comm]
  · have openly : isAllAudience found.2.visibility = true := by
      simpa [visibleToWriter, same] using visible
    simp only [same, Bool.false_eq_true, false_or]
    cases reconciled : reconcileForcedVisibility opts.visibility opts.exclude with
    | error failure =>
      have refused : corroborateNoted engine block found.1 found.2 text opts = .error failure := by
        simp only [corroborateNoted, refuseIf, same, Bool.false_eq_true, if_false, reconciled]
        rfl
      simp [refused, wordless_reconcile failure reconciled]
    | ok forced =>
      cases resolved : resolveVisibility block (some found.1.name) found.1.id
          (entryTeller opts block.teller) forced with
      | error failure =>
        have refused : corroborateNoted engine block found.1 found.2 text opts = .error failure := by
          simp only [corroborateNoted, refuseIf, same, Bool.false_eq_true, if_false, reconciled]
          simp only [bind, Except.bind, resolved]
        simp [refused, wordless_resolveVisibility failure resolved, resolved]
      | ok posture =>
        obtain ⟨after, recorded⟩ := @exists_recordAttestation engine block
          { memory := found.1.id
            entry := found.2.entryId
            foundingPosture := found.2.visibility
            existing := found.2.attestations.map fun held => (held.teller, held.posture)
            teller := entryTeller opts block.teller
            posture
            phrasing := if text = found.2.text then none else some text }
          (postureWidth_le_of_isAllAudience openly)
        obtain ⟨noted, recorded, entryNamed, quoted⟩ : ∃ noted,
            corroborateNoted engine block found.1 found.2 text opts = .ok noted ∧
              noted.2.entry = found.2.entryId ∧
                noted.2.note.snippet = (Wording.own found.2.text).clip := by
          simp only [corroborateNoted, refuseIf, same, Bool.false_eq_true, if_false, reconciled,
            bind, Except.bind, resolved, recordNoted, recorded]
          exact ⟨_, rfl, rfl, corroboration_snippet⟩
        have noteQuotes : ∀ said, (entry, said) ∈ (Reply.appended (.corroborated noted.2)).quotes ↔
            found.2.entryId = entry ∧ said = attestationSnippet found.2.text := by
          intro said
          simp only [Reply.quotes, quoted, Wording.clip, Wording.quote, Wording.words_own,
            Option.map_some, Option.toList_some, List.mem_singleton, entryNamed, Prod.mk.injEq,
            eq_comm]
        simp [recorded, noteQuotes, resolved]

theorem captured_of_scan {distinct : Option EntryId} {hits : List DedupHit}
    (captured : (scanFor engine block id opts distinct hits).capture = some found) :
    (∃ source, engine.graph.entryById source = some found) ∧
      visibleToWriter engine.graph found.2 (entryTeller opts block.teller) = true := by
  rw [scanFor, dedupScan_capture] at captured
  obtain ⟨hit, _, capture⟩ := List.exists_of_findSome?_eq_some captured
  unfold captures at capture
  split at capture
  · cases capture
  · simp only [Option.filter_eq_some_iff, Bool.and_eq_true] at capture
    obtain ⟨stored, ⟨_, visible⟩, _⟩ := capture
    exact ⟨⟨hit.entry, stored⟩, visible⟩

theorem crossClass_of_scan {targetClass : MemoryId} {distinct : Option EntryId} {toldBy : Teller}
    {soFar : Option (MemoryView × EntryView)} {hits : List DedupHit}
    (advised : (dedupScan graph targetClass distinct toldBy soFar hits).crossClass = some found) :
    soFar = some found ∨ ∃ source, graph.entryById source = some found := by
  induction hits generalizing soFar with
  | nil => exact .inl advised
  | cons hit rest ih =>
    rw [dedupScan] at advised
    split at advised
    · exact ih advised
    · cases stored : graph.entryById hit.entry with
      | none =>
        rw [stored] at advised
        exact ih advised
      | some =>
        rw [stored] at advised
        dsimp only at advised
        split at advised
        · exact ih advised
        · split at advised
          · rcases ih advised with here | later
            · split at here
              · exact .inr ⟨hit.entry, stored.trans here⟩
              · exact .inl here
            · exact .inr later
          · split at advised
            · exact .inl advised
            · exact ih advised

theorem quotes_scan_iff {ulids : UlidText} {fresh : EntryId} {distinctFrom : Option EntrySelector}
    {distinct : Option EntryId} {hits : List DedupHit}
    (named : distinctFrom.mapM (resolveEntryRef ulids engine.graph block id) = .ok distinct) :
    (∃ said, (row.entryId, said) ∈
        (serve ulids engine block (.appendDedup fresh id text opts distinctFrom hits)).2.quotes) ↔
      Picks engine fresh block id text opts distinct hits row := by
  have scanned : dedupScan engine.graph (engine.graph.classOf (classWriteTarget engine.graph block id))
      distinct (entryTeller opts block.teller) none hits =
        scanFor engine block id opts distinct hits := rfl
  unfold Picks
  cases captured : (scanFor engine block id opts distinct hits).capture with
  | some found =>
    obtain ⟨_, visible⟩ := captured_of_scan captured
    have run : Request.run ulids engine block (.appendDedup fresh id text opts distinctFrom hits) =
        (checked (corroborateNoted engine block found.1 found.2 text opts)).map fun noted =>
          (noted.1, Reply.appended (.corroborated noted.2)) := by
      simp only [Request.run, appendDedupSelected, named, bind, Except.bind, scanned, captured]
      cases corroborateNoted engine block found.1 found.2 text opts <;> rfl
    have said : ∀ said, (row.entryId, said) ∈
        (serve ulids engine block (.appendDedup fresh id text opts distinctFrom hits)).2.quotes ↔
          (∃ failure, corroborateNoted engine block found.1 found.2 text opts = .error failure ∧
              (row.entryId, said) ∈ failureQuotes failure) ∨
            ∃ noted, corroborateNoted engine block found.1 found.2 text opts = .ok noted ∧
              (row.entryId, said) ∈ (Reply.appended (.corroborated noted.2)).quotes := by
      intro said
      rw [serve, run]
      cases corroborateNoted engine block found.1 found.2 text opts with
      | ok => simp [checked, Except.map]
      | error => simp [checked, Except.map, Reply.quotes, Refusal.quotes]
    simp only [said, quotes_corroborate_iff visible]
    simp only [Option.some.injEq, reduceCtorEq, false_and, or_false]
    constructor
    · rintro ⟨named, answered⟩
      exact ⟨found, named, rfl, answered⟩
    · rintro ⟨_, named, rfl, answered⟩
      exact ⟨named, answered⟩
  | none =>
    have run : Request.run ulids engine block (.appendDedup fresh id text opts distinctFrom hits) =
        (checked (append engine fresh block id text opts)).map fun after =>
          (after, Reply.appended (.appended fresh
            ((scanFor engine block id opts distinct hits).crossClass.map Advisory.of))) := by
      simp only [Request.run, appendDedupSelected, named, bind, Except.bind, scanned, captured]
      cases append engine fresh block id text opts <;> rfl
    rw [serve, run]
    simp only [reduceCtorEq, false_and, false_or, true_and]
    cases appended : append engine fresh block id text opts with
    | error failure =>
      simp [checked, Except.map, Reply.quotes, Refusal.quotes, wordless_append failure appended]
    | ok =>
      simp only [checked, Except.map, Reply.quotes, Except.ok.injEq, exists_eq', and_true]
      cases (scanFor engine block id opts distinct hits).crossClass with
      | none => simp
      | some found =>
        simp only [Option.map_some, Option.bind_some, Advisory.of, Wording.clip, Wording.quote,
          Wording.words_own, Option.toList_some, List.mem_singleton, Prod.mk.injEq,
          Option.some.injEq]
        constructor
        · rintro ⟨said, named, _⟩
          exact ⟨found, named.symm, rfl⟩
        · rintro ⟨_, named, rfl⟩
          exact ⟨_, named.symm, rfl⟩

end Dedup

/-! ### What the replies quote -/

section Replies

variable {ulids : UlidText} {engine : Engine} {block : MemoryBlock} {id : MemoryId}
variable {row : EntryRow} {opts : AppendOptions} {selector : EntrySelector}
variable {quote : EntryId × String} {request : Request}

theorem quotes_done_iff {done : Except Refusal MemoryBlock}
    (run : request.run ulids engine block = done >>= fun after => pure (after, .done)) :
    quote ∈ (serve ulids engine block request).2.quotes ↔ RefusesWith done quote := by
  rw [mem_serve_quotes, run, refusesWith_bind_pure, or_iff_left]
  rintro ⟨served, answered, quoted⟩
  obtain ⟨_, _, made⟩ := bind_eq_ok.mp answered
  cases made
  cases quoted

theorem quotes_read_iff {reply : Reply} (run : request.run ulids engine block = .ok (block, reply)) :
    quote ∈ (serve ulids engine block request).2.quotes ↔ quote ∈ reply.quotes := by
  rw [serve, run]

theorem refusesWith_supersede {old new : EntrySelector} :
    RefusesWith (supersedeSelected ulids engine block id old new) quote ↔
      Guarded block (classWriteTarget engine.graph block id) ∧
        (RefusesWith (resolveEntryRef ulids engine.graph block
            (classWriteTarget engine.graph block id) old) quote ∨
          (∃ entry, resolveEntryRef ulids engine.graph block
              (classWriteTarget engine.graph block id) old = .ok entry) ∧
            RefusesWith (resolveEntryRef ulids engine.graph block
              (classWriteTarget engine.graph block id) new) quote) := by
  unfold supersedeSelected
  rw [refusesWith_guards, refusesWith_bind]
  simp only [refusesWith_bind, not_refusesWith_checked wordless_supersede, and_false, exists_false,
    or_false, exists_and_right]

theorem refusesWith_retract {reason : String} {producedBy : Option ProducedBy} :
    RefusesWith (retractSelected ulids engine block id selector reason producedBy) quote ↔
      Guarded block (classWriteTarget engine.graph block id) ∧ trimmedReason reason ≠ "" ∧
        RefusesWith (resolveEntryRef ulids engine.graph block
          (classWriteTarget engine.graph block id) selector) quote := by
  unfold retractSelected
  rw [refusesWith_guards, refusesWith_checked_bind (wordless_refuseIf rfl), exists_checked,
    refuseIf_ok, refusesWith_bind]
  simp only [not_refusesWith_checked wordless_retract, and_false, exists_false, or_false, ne_eq]

theorem refusesWith_retractAttestation {teller : Teller} {reason : String}
    {producedBy : Option ProducedBy} :
    RefusesWith (retractAttestationSelected ulids engine block id selector teller reason producedBy)
        quote ↔
      Guarded block (classWriteTarget engine.graph block id) ∧ trimmedReason reason ≠ "" ∧
        RefusesWith (resolveEntryRef ulids engine.graph block
          (classWriteTarget engine.graph block id) selector) quote := by
  unfold retractAttestationSelected
  rw [refusesWith_guards, refusesWith_checked_bind (wordless_refuseIf rfl), exists_checked,
    refuseIf_ok, refusesWith_bind]
  simp only [not_refusesWith_checked wordless_retractAttestation, and_false, exists_false, or_false,
    ne_eq]

theorem refusesWith_attest :
    RefusesWith (attestSelected ulids engine block id selector opts) quote ↔
      Guarded block (classWriteTarget engine.graph block id) ∧
        RefusesWith (resolveEntryRef ulids engine.graph block
          (classWriteTarget engine.graph block id) selector) quote := by
  unfold attestSelected
  rw [refusesWith_guards, refusesWith_bind]
  refine and_congr_right fun _ => or_iff_left ?_
  rintro ⟨entry, _, refuses⟩
  rw [refusesWith_checked_bind wordless_liveEntry] at refuses
  obtain ⟨target, _, refuses⟩ := refuses
  rw [refusesWith_checked_bind wordless_attestTarget] at refuses
  obtain ⟨found, _, refuses⟩ := refuses
  rw [refusesWith_checked_bind wordless_attestTargetText] at refuses
  obtain ⟨text, _, refuses⟩ := refuses
  rw [refusesWith_checked_bind wordless_reconcile] at refuses
  obtain ⟨forced, _, refuses⟩ := refuses
  rw [refusesWith_checked_bind wordless_resolveVisibility] at refuses
  obtain ⟨posture, _, refuses⟩ := refuses
  exact not_refusesWith_checked (wordless_recordAttestation.bind fun _ => wordless_ok _) refuses

theorem quotes_attest_iff :
    quote ∈ (serve ulids engine block (.attest id selector opts)).2.quotes ↔
      RefusesWith (attestSelected ulids engine block id selector opts) quote ∨
        ∃ noted, attestSelected ulids engine block id selector opts = .ok noted ∧
          quote ∈ (noted.2.note.snippet.quote noted.2.entry).toList := by
  rw [mem_serve_quotes, Request.run, refusesWith_bind_pure]
  refine or_congr_right ?_
  constructor
  · rintro ⟨served, answered, quoted⟩
    obtain ⟨noted, attested, made⟩ := bind_eq_ok.mp answered
    cases made
    exact ⟨noted, attested, quoted⟩
  · rintro ⟨noted, attested, quoted⟩
    exact ⟨_, bind_eq_ok.mpr ⟨noted, attested, rfl⟩, quoted⟩

theorem attestSelected_snippet {noted : MemoryBlock × Corroboration}
    (attested : attestSelected ulids engine block id selector opts = .ok noted) :
    ∃ wording, attestTargetText engine.graph block noted.2.entry = .ok wording ∧
      noted.2.note.snippet = wording.clip := by
  simp only [attestSelected, bind_eq_ok, checked_ok, exists_checked, recordNoted_ok] at attested
  obtain ⟨_, _, entry, _, _, _, _, _, wording, read, _, _, _, _, _, note⟩ := attested
  rw [note, corroboration_entry, corroboration_snippet]
  exact ⟨wording, read, rfl⟩

theorem mapM_error_iff {distinctFrom : Option EntrySelector} {refusal : Refusal} :
    distinctFrom.mapM (resolveEntryRef ulids engine.graph block id) = .error refusal ↔
      ∃ selector ∈ distinctFrom, resolveEntryRef ulids engine.graph block id selector =
        .error refusal := by
  cases distinctFrom with
  | none => simp [pure, Except.pure]
  | some selector =>
    cases named : resolveEntryRef ulids engine.graph block id selector with
    | ok | error => simp [Option.mapM_some, named, Functor.map, Except.map]

theorem quotes_unresolved_iff {fresh : EntryId} {text : String}
    {distinctFrom : Option EntrySelector} {hits : List DedupHit} {refusal : Refusal}
    (refused : distinctFrom.mapM (resolveEntryRef ulids engine.graph block id) = .error refusal) :
    quote ∈ (serve ulids engine block
        (.appendDedup fresh id text opts distinctFrom hits)).2.quotes ↔ quote ∈ refusal.quotes := by
  rw [serve, Request.run, appendDedupSelected, refused]
  rfl

section Committed

variable (member : row ∈ engine.graph.entries) (foreign : row.entryId ∉ pendingIds block)
include member foreign

theorem live_of_quotes {said : String}
    (quoted : (row.entryId, said) ∈ (serve ulids engine block request).2.quotes) :
    (engine.graph.liveRow row.memoryId).isSome = true := by
  have resolved : ∀ {target : MemoryId} {selector : EntrySelector},
      RefusesWith (resolveEntryRef ulids engine.graph block target selector) (row.entryId, said) →
        (engine.graph.liveRow row.memoryId).isSome = true := fun refuses =>
    live_of_inClass ((refusesWith_resolve member foreign).mp refuses).1.within
  cases request with
  | entries id =>
    obtain ⟨refs, listed, inRefs⟩ := @mem_entries_quotes engine block id row said member foreign
    have run : (Request.entries id).run ulids engine block = .ok (block, .listing refs) := by
      simp only [Request.run, listed, checked]; rfl
    exact live_of_inClass (inRefs.mp ((quotes_read_iff run).mp quoted)).1.1
  | history id =>
    obtain ⟨refs, listed, inRefs⟩ := @mem_history_quotes engine block id row said member foreign
    have run : (Request.history id).run ulids engine block = .ok (block, .listing refs) := by
      simp only [Request.run, listed, checked]; rfl
    exact live_of_inClass (inRefs.mp ((quotes_read_iff run).mp quoted)).1
  | details id =>
    obtain ⟨refs, listed, inRefs⟩ := @mem_entries_quotes engine block id row said member foreign
    have run : ∃ record, (Request.details id).run ulids engine block = .ok (block, .details record) ∧
        record.entries = refs := by
      simp only [Request.run, details, listed, checked, bind, Except.bind, pure, Except.pure]
      exact ⟨_, rfl, rfl⟩
    obtain ⟨record, run, rfl⟩ := run
    exact live_of_inClass (inRefs.mp ((quotes_read_iff run).mp quoted)).1.1
  | handback entry =>
    obtain ⟨ref, read, cleared⟩ := @mem_handback_quotes engine.graph block row said entry member
      foreign
    have run : (Request.handback entry).run ulids engine block = .ok (block, .handback ref) := by
      simp only [Request.run, read, checked]; rfl
    obtain ⟨owner, live, _⟩ := cleared ((quotes_read_iff run).mp quoted)
    obtain ⟨standing, there, _⟩ := row_of_memoryById live
    rw [there, Option.isSome_some]
  | attest =>
    rcases quotes_attest_iff.mp quoted with refuses | ⟨noted, attested, inNote⟩
    · exact resolved (refusesWith_attest.mp refuses).2
    · obtain ⟨wording, read, snippet⟩ := attestSelected_snippet attested
      rw [snippet] at inNote
      obtain ⟨text, _, here⟩ := Option.map_eq_some_iff.mp (Option.mem_toList.mp inNote)
      rw [(Prod.mk.inj here).1] at read
      obtain ⟨owner, view, _, found, _⟩ := attestTargetText_committed read foreign
      exact live_of_entryById found member (entryId_of_entryById found)
  | appendDedup fresh id text opts distinctFrom hits =>
    cases named : distinctFrom.mapM (resolveEntryRef ulids engine.graph block id) with
    | error refusal =>
      obtain ⟨selector, _, refused⟩ := mapM_error_iff.mp named
      exact resolved ⟨refusal, refused, (quotes_unresolved_iff named).mp quoted⟩
    | ok =>
      obtain ⟨found, same, picked⟩ := (quotes_scan_iff named).mp ⟨said, quoted⟩
      rcases picked with ⟨captured, _⟩ | ⟨_, advised, _⟩
      · obtain ⟨⟨source, stored⟩, _⟩ := captured_of_scan captured
        exact live_of_entryById stored member same
      · obtain none | ⟨source, stored⟩ := crossClass_of_scan advised
        · cases none
        · exact live_of_entryById stored member same
  | supersede =>
    rcases (refusesWith_supersede.mp ((quotes_done_iff rfl).mp quoted)).2 with refuses | ⟨_, refuses⟩
    · exact resolved refuses
    · exact resolved refuses
  | retract =>
    exact resolved (refusesWith_retract.mp ((quotes_done_iff rfl).mp quoted)).2.2
  | retractAttestation =>
    exact resolved (refusesWith_retractAttestation.mp ((quotes_done_iff rfl).mp quoted)).2.2
  | other op plain =>
    exact absurd ((quotes_done_iff rfl).mp quoted) (not_refusesWith_checked (wordless_run plain))

theorem quotes_iff_of_shuttered (audience : block.presentSet ≠ [])
    (shuttered : Shuttered engine.graph block.presentSet row) :
    (∃ said, (row.entryId, said) ∈ (serve ulids engine block request).2.quotes) ↔
      request.Reaches ulids engine block row := by
  have named : ∀ {target : MemoryId} {selector : EntrySelector},
      (∃ said, RefusesWith (resolveEntryRef ulids engine.graph block target selector)
        (row.entryId, said)) ↔ ReachesCandidate ulids engine.graph block target row selector :=
    exists_refusesWith_resolve audience shuttered member foreign
  cases request with
  | entries id =>
    obtain ⟨refs, listed, _⟩ := @mem_entries_quotes engine block id row "" member foreign
    have run : (Request.entries id).run ulids engine block = .ok (block, .listing refs) := by
      simp only [Request.run, listed, checked]; rfl
    simp only [quotes_read_iff run, Request.Reaches]
    exact quotes_entries_iff audience shuttered member foreign listed
  | history id =>
    obtain ⟨refs, listed, _⟩ := @mem_history_quotes engine block id row "" member foreign
    have run : (Request.history id).run ulids engine block = .ok (block, .listing refs) := by
      simp only [Request.run, listed, checked]; rfl
    simp only [quotes_read_iff run, Request.Reaches]
    exact quotes_history_iff audience shuttered member foreign listed
  | details id =>
    obtain ⟨refs, listed, _⟩ := @mem_entries_quotes engine block id row "" member foreign
    have run : ∃ record, (Request.details id).run ulids engine block = .ok (block, .details record) ∧
        record.entries = refs := by
      simp only [Request.run, details, listed, checked, bind, Except.bind, pure, Except.pure]
      exact ⟨_, rfl, rfl⟩
    obtain ⟨record, run, rfl⟩ := run
    simp only [quotes_read_iff run, Request.Reaches]
    exact quotes_entries_iff audience shuttered member foreign listed
  | handback entry =>
    obtain ⟨ref, read, _⟩ := @mem_handback_quotes engine.graph block row "" entry member foreign
    have run : (Request.handback entry).run ulids engine block = .ok (block, .handback ref) := by
      simp only [Request.run, read, checked]; rfl
    simp only [quotes_read_iff run, Request.Reaches, iff_false]
    rintro ⟨said, quoted⟩
    obtain ⟨other, again, cleared⟩ := @mem_handback_quotes engine.graph block row said entry member
      foreign
    rw [read] at again
    cases again
    obtain ⟨owner, live, shown⟩ := cleared quoted
    obtain ⟨standing, there, _⟩ := row_of_memoryById live
    exact (not_cleared_iff (by rw [there, Option.isSome_some])).mpr shuttered
      ⟨owner, live, shown audience⟩
  | attest =>
    simp only [quotes_attest_iff, refusesWith_attest, Request.Reaches, ← named]
    constructor
    · rintro ⟨said, ⟨guarded, refuses⟩ | ⟨noted, attested, inNote⟩⟩
      · exact ⟨guarded, said, refuses⟩
      · obtain ⟨wording, read, snippet⟩ := attestSelected_snippet attested
        rw [snippet] at inNote
        obtain ⟨words, shown, here⟩ := Option.map_eq_some_iff.mp (Option.mem_toList.mp inNote)
        rw [(Prod.mk.inj here).1] at read
        rw [stub_of_attestTarget audience shuttered member foreign read] at shown
        cases shown
    · rintro ⟨guarded, said, refuses⟩
      exact ⟨said, .inl ⟨guarded, refuses⟩⟩
  | appendDedup fresh id text opts distinctFrom hits =>
    simp only [Request.Reaches, ← named]
    cases resolved : distinctFrom.mapM (resolveEntryRef ulids engine.graph block id) with
    | error refusal =>
      obtain ⟨selector, given, refused⟩ := mapM_error_iff.mp resolved
      simp only [quotes_unresolved_iff resolved, reduceCtorEq, false_and, exists_false, or_false]
      constructor
      · rintro ⟨said, quoted⟩
        exact ⟨selector, given, said, refusal, refused, quoted⟩
      · rintro ⟨other, otherGiven, said, failure, otherRefused, quoted⟩
        obtain rfl := Option.mem_unique given otherGiven
        rw [refused] at otherRefused
        cases otherRefused
        exact ⟨said, quoted⟩
    | ok distinct =>
      rw [quotes_scan_iff resolved]
      constructor
      · intro picks
        exact .inr ⟨distinct, rfl, picks⟩
      · rintro (⟨selector, given, said, refusal, refused, _⟩ | ⟨other, same, picks⟩)
        · rw [mapM_error_iff.mpr ⟨selector, given, refused⟩] at resolved
          cases resolved
        · cases same
          exact picks
  | supersede id old new =>
    have quoted : ∀ said, (row.entryId, said) ∈
        (serve ulids engine block (.supersede id old new)).2.quotes ↔ _ := fun said =>
      (quotes_done_iff rfl).trans refusesWith_supersede
    simp only [quoted, Request.Reaches, ← named]
    rw [exists_and_left, exists_or, exists_and_left]
  | retract id selector reason producedBy =>
    have quoted : ∀ said, (row.entryId, said) ∈
        (serve ulids engine block (.retract id selector reason producedBy)).2.quotes ↔ _ :=
      fun said => (quotes_done_iff rfl).trans refusesWith_retract
    simp only [quoted, Request.Reaches, ← named, exists_and_left]
  | retractAttestation id selector teller reason producedBy =>
    have quoted : ∀ said, (row.entryId, said) ∈ (serve ulids engine block
        (.retractAttestation id selector teller reason producedBy)).2.quotes ↔ _ :=
      fun said => (quotes_done_iff rfl).trans refusesWith_retractAttestation
    simp only [quoted, Request.Reaches, ← named, exists_and_left]
  | other op plain =>
    simp only [Request.Reaches, iff_false]
    rintro ⟨said, quoted⟩
    exact not_refusesWith_checked (wordless_run plain) ((quotes_done_iff rfl).mp quoted)

theorem quotes_uncleared_iff (audience : block.presentSet ≠ []) :
    ((∃ said, (row.entryId, said) ∈ (serve ulids engine block request).2.quotes) ∧
        ¬Cleared engine.graph block.presentSet row) ↔
      Shuttered engine.graph block.presentSet row ∧ request.Reaches ulids engine block row := by
  constructor
  · rintro ⟨⟨said, quoted⟩, hidden⟩
    have shuttered := (not_cleared_iff (live_of_quotes member foreign quoted)).mp hidden
    exact ⟨shuttered, (quotes_iff_of_shuttered member foreign audience shuttered).mp ⟨said, quoted⟩⟩
  · rintro ⟨shuttered, reaches⟩
    obtain ⟨said, quoted⟩ :=
      (quotes_iff_of_shuttered member foreign audience shuttered).mpr reaches
    exact ⟨⟨said, quoted⟩, (not_cleared_iff (live_of_quotes member foreign quoted)).mpr shuttered⟩

end Committed

end Replies

/-! ### Runs of requests -/

/-- One request of a run, with the block it was asked of and what was answered. -/
structure Exchange where
  engine : Engine
  block : MemoryBlock
  request : Request
  reply : Reply

/-- The exchanges of a run: each request is served over the graph of its time, on the block
that the ones before it left. -/
def exchanges (ulids : UlidText) : MemoryBlock → List (Engine × Request) → List Exchange
  | _, [] => []
  | block, (engine, request) :: rest =>
    let served := serve ulids engine block request
    ⟨engine, block, request, served.2⟩ :: exchanges ulids served.1 rest

/-- The reply hands out words of a committed entry that is none of the block's own. -/
def Exchange.Carries (exchange : Exchange) (row : EntryRow) : Prop :=
  row.entryId ∉ pendingIds exchange.block ∧
    ∃ said, (row.entryId, said) ∈ exchange.reply.quotes

/-- The reply hands out no words of an entry that its audience is not cleared for. -/
def Exchange.Discreet (exchange : Exchange) : Prop :=
  ∀ row ∈ exchange.engine.graph.entries, exchange.Carries row →
    Cleared exchange.engine.graph exchange.block.presentSet row

/-- The request takes a path to a committed entry that no endorsement standing behind it shows. -/
def Exchange.Betrays (ulids : UlidText) (exchange : Exchange) : Prop :=
  ∃ row ∈ exchange.engine.graph.entries, row.entryId ∉ pendingIds exchange.block ∧
    Shuttered exchange.engine.graph exchange.block.presentSet row ∧
      exchange.request.Reaches ulids exchange.engine exchange.block row

section Runs

variable {ulids : UlidText} {engine : Engine} {block : MemoryBlock} {request : Request}

theorem serve_presentSet :
    (serve ulids engine block request).1.presentSet = block.presentSet := by
  rcases serve_block ulids engine block request with same | ⟨op, done⟩
  · rw [same]
  · obtain ⟨events, ⟨seeds, left⟩, _⟩ := @call_mayBuffer engine.graph block _ engine.now op done
    rw [left]

theorem of_mem_exchanges {requests : List (Engine × Request)} {exchange : Exchange}
    (member : exchange ∈ exchanges ulids block requests) :
    exchange.block.presentSet = block.presentSet ∧
      exchange.reply = (serve ulids exchange.engine exchange.block exchange.request).2 := by
  induction requests generalizing block with
  | nil => cases member
  | cons asked rest ih =>
    obtain ⟨engine, request⟩ := asked
    rcases List.mem_cons.mp member with rfl | later
    · exact ⟨rfl, rfl⟩
    · obtain ⟨kept, served⟩ := ih later
      exact ⟨kept.trans serve_presentSet, served⟩

theorem discreet_of_serve {exchange : Exchange} (audience : exchange.block.presentSet ≠ [])
    (served : exchange.reply =
      (serve ulids exchange.engine exchange.block exchange.request).2) :
    exchange.Discreet ↔ ¬exchange.Betrays ulids := by
  constructor
  · rintro discreet ⟨row, member, foreign, shuttered, reaches⟩
    obtain ⟨quoted, hidden⟩ :=
      (quotes_uncleared_iff member foreign audience).mpr ⟨shuttered, reaches⟩
    exact hidden (discreet row member ⟨foreign, served ▸ quoted⟩)
  · rintro faithful row member ⟨foreign, quoted⟩
    by_contra hidden
    exact faithful ⟨row, member, foreign,
      (quotes_uncleared_iff member foreign audience).mp ⟨served ▸ quoted, hidden⟩⟩

/-- In every run of requests in front of an audience, the replies hand out words of cleared
entries only, exactly when none of the requests betrays an entry. -/
theorem discreet_iff_no_betrayal (ulids : UlidText) (block : MemoryBlock)
    (requests : List (Engine × Request)) (audience : block.presentSet ≠ []) :
    (∀ exchange ∈ exchanges ulids block requests, exchange.Discreet) ↔
      ∀ exchange ∈ exchanges ulids block requests, ¬exchange.Betrays ulids := by
  refine forall₂_congr fun exchange member => ?_
  obtain ⟨kept, served⟩ := of_mem_exchanges member
  exact discreet_of_serve (kept ▸ audience) served

end Runs

/-! The fact that was told in public, attested in confidence and withdrawn by its founder: the
bystander is not cleared for it, and the history and a capture of the dedup scan quote it. -/

/-- A digit of the text of a ULID. -/
def crockfordDigit (value : Nat) : Char := "0123456789ABCDEFGHJKMNPQRSTVWXYZ".toList.getD value '0'

def crockford : UlidText where
  print entry := String.ofList
    ((List.range 26).map fun place => crockfordDigit (entry.ulid / 32 ^ (25 - place) % 32))
  parse text :=
    let digits := text.toList.map "0123456789ABCDEFGHJKMNPQRSTVWXYZ".toList.idxOf
    if digits.length = 26 ∧ digits.all (· < 32) then
      some ⟨digits.foldl (fun value digit => 32 * value + digit) 0⟩
    else none

def asking : List (Engine × Request) :=
  [(⟨withdrawnGraph, ⟨1⟩⟩, .history launch),
    (⟨withdrawnGraph, ⟨1⟩⟩, .appendDedup ⟨20⟩ launch "the launch is late" {} none [⟨slip, true⟩])]

def stubbed : List (Engine × Request) :=
  [(⟨withdrawnGraph, ⟨1⟩⟩, .entries launch), (⟨withdrawnGraph, ⟨1⟩⟩, .handback slip)]

theorem withdrawnRows : withdrawnGraph.entries.rows = [withdrawnRow] := by decide

theorem standing_withdrawnRow :
    effectiveAttestations (entryFromRow withdrawnGraph .live withdrawnRow) =
      [⟨.participant ben, none, ⟨0⟩, .privateToTeller, none, none, none⟩] := by decide

theorem not_cleared_withdrawnRow : ¬Cleared withdrawnGraph [cleo] withdrawnRow := by
  rintro ⟨owner, found, decision, explained, visible⟩
  cases found
  cases explained
  cases visible

/-- The bystander is answered with the words of an entry that is not visible to anybody
present. -/
theorem withdrawn_fact_quoted :
    Reachable withdrawnGraph ∧ bystanderBlock.presentSet = [cleo] ∧
      withdrawnRow ∈ withdrawnGraph.entries ∧ ¬Cleared withdrawnGraph [cleo] withdrawnRow ∧
      (exchanges crockford bystanderBlock asking).map (·.reply.quotes) =
        [[(slip, "the launch slips")], [(slip, "the launch slips")]] ∧
      ¬∀ exchange ∈ exchanges crockford bystanderBlock asking, exchange.Discreet := by
  have stored : withdrawnRow ∈ withdrawnGraph.entries := by decide
  have quoted : (exchanges crockford bystanderBlock asking).map (·.reply.quotes) =
      [[(slip, "the launch slips")], [(slip, "the launch slips")]] := by decide
  refine ⟨withdrawnGraph_reachable, rfl, stored, not_cleared_withdrawnRow, quoted, ?_⟩
  intro discreet
  refine not_cleared_withdrawnRow (discreet _ List.mem_cons_self withdrawnRow stored ⟨?_, ?_⟩)
  · exact List.not_mem_nil
  · have answered : (serve crockford ⟨withdrawnGraph, ⟨1⟩⟩ bystanderBlock
        (.history launch)).2.quotes = [(slip, "the launch slips")] := (List.cons.inj quoted).1
    refine ⟨"the launch slips", ?_⟩
    change (slip, "the launch slips") ∈ (serve crockford _ bystanderBlock _).2.quotes
    rw [answered]
    exact List.mem_singleton.mpr rfl

/-- The live read and the handback of the fact are discreet, as the general result decides. -/
theorem discreet_iff_no_betrayal_stubbed :
    bystanderBlock.presentSet ≠ [] ∧
      ∀ exchange ∈ exchanges crockford bystanderBlock stubbed, exchange.Discreet := by
  refine ⟨by decide, (discreet_iff_no_betrayal crockford bystanderBlock stubbed (by decide)).mpr ?_⟩
  rintro exchange member ⟨row, rowMem, _, shuttered, reaches⟩
  rcases List.mem_cons.mp member with rfl | later
  · obtain ⟨_, _, attestation, listed, _, passes⟩ := reaches
    have same : row = withdrawnRow := by
      rw [Table.mem_def] at rowMem
      exact List.mem_singleton.mp (withdrawnRows ▸ rowMem)
    rw [same] at listed
    rw [standing_withdrawnRow, List.mem_singleton] at listed
    subst listed
    obtain ⟨verdict, explained, visible⟩ := passes
    cases explained
    cases visible
  · rw [List.mem_singleton.mp later] at reaches
    exact reaches

end MemoryBlock

end Zuihitsu
