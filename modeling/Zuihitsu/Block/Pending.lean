/-
# A block reads its own writes

The live entries a write guard reads are the committed ones overlaid with the
block's buffer. When the buffer commits, the graph it leaves holds each of them
as it was read: the same teller and posture, and the same endorsements standing.
-/

import Zuihitsu.Block.Consolidate
import Zuihitsu.Block.Liveness

namespace Zuihitsu

open Zuihitsu.Core Zuihitsu.Graph Zuihitsu.Library

namespace Graph

/-! ### Entries are never lost -/

section Entries

variable {event : Event} {before after : Graph} {recordedAt : Timestamp} {source : EventSource}
variable {payloads : List EventPayload}

@[simp] theorem entryChange_toldBy (row : EntryRow) :
    (entryChange event before row).toldBy = row.toldBy := by
  unfold entryChange
  split <;> (try split) <;> rfl

@[simp] theorem entryChange_visibility (row : EntryRow) :
    (entryChange event before row).visibility = row.visibility := by
  unfold entryChange
  split <;> (try split) <;> rfl

theorem entryChange_live {row : EntryRow} (live : row.supersededBy = none)
    (kept : row.entryId ∉ MemoryBlock.supersededBy event.payload)
    (held : MemoryBlock.isRetraction event.payload = false) :
    (entryChange event before row).supersededBy = none := by
  cases payload : event.payload with
  | memorySuperseded id entry successor =>
    have other : row.entryId ≠ entry := by simpa [payload, MemoryBlock.supersededBy] using kept
    simp [entryChange, payload, other, live]
  | entriesConsolidated id sources replacement producedBy =>
    have other : row.entryId ∉ sources := by simpa [payload, MemoryBlock.supersededBy] using kept
    simp [entryChange, payload, other, live]
  | entryRetracted | attestationRetracted =>
    simp [payload, MemoryBlock.isRetraction] at held
  | _ =>
    simp only [entryChange, payload]
    first | exact live | (split <;> exact live)

/-- What is recorded once about an entry: who told it, and how it was told. -/
def Recorded (graph : Graph) (entry : EntryId) (toldBy : Teller) (visibility : Visibility) : Prop :=
  ∃ row ∈ graph.entries, row.entryId = entry ∧ row.toldBy = toldBy ∧ row.visibility = visibility

theorem Recorded.unique {graph : Graph} {entry : EntryId} {first second : Teller}
    {one other : Visibility} (left : Recorded graph entry first one)
    (right : Recorded graph entry second other) : first = second ∧ one = other := by
  obtain ⟨row, member, same, rfl, rfl⟩ := left
  obtain ⟨row', member', same', rfl, rfl⟩ := right
  have rows : row = row' := Table.eq_of_key_eq member member' (same.trans same'.symm)
  exact ⟨congrArg EntryRow.toldBy rows, congrArg EntryRow.visibility rows⟩

theorem Recorded.contains {graph : Graph} {entry : EntryId} {toldBy : Teller}
    {visibility : Visibility} (recorded : Recorded graph entry toldBy visibility) :
    graph.entries.contains entry = true := by
  obtain ⟨row, member, rfl, _⟩ := recorded
  exact Table.contains_of_mem member

theorem Recorded.apply {entry : EntryId} {toldBy : Teller} {visibility : Visibility}
    (recorded : Recorded before entry toldBy visibility)
    (applied : apply event before = .ok after) :
    Recorded after entry toldBy visibility := by
  obtain ⟨row, member, rfl, rfl, rfl⟩ := recorded
  exact ⟨_, (mem_entries_apply applied).mpr (.inl ⟨row, member, rfl⟩), by simp⟩

theorem Recorded.commit {entry : EntryId} {toldBy : Teller} {visibility : Visibility}
    (recorded : Recorded before entry toldBy visibility)
    (committed : commit recordedAt source payloads before = .ok after) :
    Recorded after entry toldBy visibility :=
  commit_induction (motive := fun graph => Recorded graph entry toldBy visibility)
    (fun _ _ _ _ applied earlier => earlier.apply applied) committed recorded

theorem Reachable.standing_known {graph : Graph} (reachable : Reachable graph) {entry : EntryId}
    {teller : Teller} {posture : Visibility} (stands : graph.standing entry teller = some posture) :
    graph.entries.contains entry = true := by
  obtain ⟨row, member, key, _⟩ := standing_eq_some.mp stands
  have owner : row.entryId = entry := congrArg Prod.fst key
  exact owner ▸ reachable.attested row member

theorem Reachable.standing_unknown {graph : Graph} (reachable : Reachable graph) {entry : EntryId}
    (unknown : graph.entries.contains entry = false) (teller : Teller) :
    graph.standing entry teller = none := by
  cases stands : graph.standing entry teller with
  | none => rfl
  | some =>
    rw [reachable.standing_known stands] at unknown
    cases unknown

end Entries

end Graph

/-! ### What an event endorses and what it records -/

/-- The entry and posture an event endorses an existing entry with. -/
def endorsement : EventPayload → Option (EntryId × Visibility)
  | .entryAttested _ entry _ _ _ posture _ _ _ => some (entry, posture)
  | _ => none

section Endorsing

variable {event : Event} {before after : Graph} {entry : EntryId} {teller : Teller}
variable {posture : Visibility}

theorem standing_after (applied : apply event before = .ok after)
    (stands : after.standing entry teller = some posture) :
    before.standing entry teller = some posture ∨ endorsement event.payload = some (entry, posture) ∨
      ∃ row, appendedRow event before = some row ∧ row.entryId = entry ∧ row.visibility = posture := by
  rw [standing_apply applied] at stands
  cases payload : event.payload with
  | memoryContentAppended id appended assertedAt occurredAt text toldBy toldIn visibility =>
    simp only [payload, heldAfter] at stands
    split at stands
    · rename_i key
      cases stands
      exact .inr (.inr ⟨appendedEntry event before id appended assertedAt occurredAt text toldBy
        toldIn posture, by simp only [appendedRow, payload], congrArg Prod.fst key, rfl⟩)
    · exact .inl stands
  | entryAttested memory attested by' toldIn assertedAt level phrasing sourceEntry producedBy =>
    simp only [payload, heldAfter] at stands
    split at stands
    · rename_i key
      obtain ⟨rfl, rfl⟩ := Prod.mk.inj key
      cases stands
      exact .inr (.inl rfl)
    · exact .inl stands
  | entryRetracted | attestationRetracted =>
    simp only [payload, heldAfter] at stands
    split at stands
    · cases stands
    · exact .inl stands
  | _ =>
    simp only [payload, heldAfter] at stands
    exact .inl stands

theorem recorded_of_apply (applied : apply event before = .ok after)
    (recorded : Recorded after entry teller posture) :
    Recorded before entry teller posture ∨
      ∃ row, appendedRow event before = some row ∧ row.entryId = entry ∧ row.toldBy = teller ∧
        row.visibility = posture := by
  obtain ⟨row, member, rfl, rfl, rfl⟩ := recorded
  rcases (mem_entries_apply applied).mp member with ⟨old, oldMem, rfl⟩ | appended
  · exact .inl ⟨old, oldMem, by simp⟩
  · exact .inr ⟨row, appended, rfl, rfl, rfl⟩

end Endorsing

namespace MemoryBlock

/-! ### The overlay of the buffer -/

section Overlay

variable {entry : EntryId} {held : List (Teller × Visibility)}

/-- A list of endorsements is what stands on an entry, each teller once. -/
structure ListsStanding (graph : Graph) (entry : EntryId) (held : List (Teller × Visibility)) :
    Prop where
  once : (held.map Prod.fst).Nodup
  stands : ∀ teller posture, (teller, posture) ∈ held ↔ graph.standing entry teller = some posture

theorem map_fst_holdAs (teller : Teller) (posture : Visibility) :
    (holdAs teller posture held).map Prod.fst =
      if teller ∈ held.map Prod.fst then held.map Prod.fst else held.map Prod.fst ++ [teller] := by
  induction held with
  | nil => rfl
  | cons first rest ih =>
    unfold holdAs
    by_cases same : first.1 = teller
    · simp [same]
    · simp only [same, if_false, List.map_cons, ih, List.mem_cons, Ne.symm same, false_or]
      split <;> rfl

theorem mem_holdAs (once : (held.map Prod.fst).Nodup) {teller other : Teller}
    {posture level : Visibility} :
    (other, level) ∈ holdAs teller posture held ↔
      if teller = other then posture = level else (other, level) ∈ held := by
  induction held with
  | nil =>
    by_cases same : teller = other
    · simp [holdAs, same, eq_comm]
    · simp [holdAs, same, Ne.symm same]
  | cons first rest ih =>
    obtain ⟨absent, restOnce⟩ := List.nodup_cons.mp once
    unfold holdAs
    by_cases here : first.1 = teller
    · rw [if_pos here, List.mem_cons]
      by_cases same : teller = other
      · -- the teller's only place is the head
        have gone : (other, level) ∉ rest := fun member =>
          absent (here.trans same ▸ List.mem_map_of_mem member)
        simp [same, gone, eq_comm]
      · have notHead : (other, level) ≠ first := fun head => same (by rw [← here, ← head])
        simp [same, Ne.symm same, notHead]
    · rw [if_neg here, List.mem_cons, ih restOnce]
      by_cases same : teller = other
      · have notHead : (other, level) ≠ first := fun head => here (by rw [← head, same])
        simp [same, notHead]
      · simp [same]

theorem ListsStanding.step {before after : Graph} {event : Event}
    (lists : ListsStanding before entry held) (applied : apply event before = .ok after)
    (unrecorded : ∀ row, appendedRow event before = some row → row.entryId ≠ entry)
    (kept : entry ∉ supersededBy event.payload) :
    ListsStanding after entry (foldAttestation entry held event.payload) := by
  have follow : ∀ teller, after.standing entry teller =
      heldAfter entry teller (before.standing entry teller) event.payload :=
    fun _ => standing_apply applied
  cases payload : event.payload with
  | entryAttested memory attested by' toldIn assertedAt posture phrasing sourceEntry producedBy =>
    simp only [payload, heldAfter, Prod.mk.injEq] at follow
    simp only [foldAttestation]
    by_cases here : attested = entry
    · rw [if_pos here]
      -- the teller is moved to its new posture, or takes the last place
      refine ⟨?_, fun teller level => ?_⟩
      · rw [map_fst_holdAs]
        split
        · exact lists.once
        · rename_i absent
          exact List.nodup_append.mpr ⟨lists.once, by simp, by
            rintro teller member _ added rfl
            exact absent (List.mem_singleton.mp added ▸ member)⟩
      · rw [mem_holdAs lists.once, follow teller]
        by_cases same : by' = teller
        · simp [here, same]
        · simp [here, same, lists.stands]
    · rw [if_neg here]
      exact ⟨lists.once, fun teller level => by simp [follow, here, lists.stands]⟩
  | attestationRetracted memory retracted by' reason producedBy =>
    simp only [payload, heldAfter, Prod.mk.injEq] at follow
    simp only [foldAttestation]
    by_cases here : retracted = entry
    · rw [if_pos here]
      refine ⟨lists.once.sublist (List.filter_sublist.map _), fun teller level => ?_⟩
      rw [List.mem_filter, follow teller, lists.stands]
      by_cases same : by' = teller
      · simp [here, same]
      · simp [here, same, Ne.symm same]
    · rw [if_neg here]
      exact ⟨lists.once, fun teller level => by simp [follow, here, lists.stands]⟩
  | memoryContentAppended id appended assertedAt occurredAt text toldBy toldIn visibility =>
    -- an append records another entry
    have other : appended ≠ entry :=
      unrecorded (appendedEntry event before id appended assertedAt occurredAt text toldBy toldIn
        visibility) (by simp only [appendedRow, payload])
    simp only [payload, heldAfter, Prod.mk.injEq, other, false_and, if_false] at follow
    exact ⟨lists.once, fun teller level => by simp [foldAttestation, follow, lists.stands]⟩
  | entryRetracted memory retracted reason producedBy =>
    have other : retracted ≠ entry := by
      simpa [payload, supersededBy, eq_comm] using kept
    simp only [payload, heldAfter, other, if_false] at follow
    exact ⟨lists.once, fun teller level => by simp [foldAttestation, follow, lists.stands]⟩
  | _ =>
    simp only [payload, heldAfter] at follow
    exact ⟨lists.once, fun teller level => by simp [foldAttestation, follow, lists.stands]⟩

section Commit

variable {recordedAt : Timestamp} {source : EventSource} {payloads : List EventPayload}
variable {before after : Graph}

theorem ListsStanding.commit (lists : ListsStanding before entry held)
    (recorded : before.entries.contains entry = true)
    (committed : commit recordedAt source payloads before = .ok after)
    (kept : entry ∉ payloads.flatMap supersededBy) :
    ListsStanding after entry (payloads.foldl (foldAttestation entry) held) := by
  induction payloads generalizing before held with
  | nil =>
    cases committed
    exact lists
  | cons payload rest ih =>
    obtain ⟨middle, applied, remaining⟩ := commit_cons_ok.mp committed
    rw [List.flatMap_cons, List.mem_append, not_or] at kept
    refine ih (lists.step applied (fun row appended => ?_) kept.1)
      (contains_entry_apply recorded applied) remaining kept.2
    -- the entry is there already, so the event appends another
    rintro rfl
    have fresh := (appended_of_apply applied appended).2.1
    rw [recorded] at fresh
    cases fresh

theorem isLive_commit (live : IsLive before entry)
    (committed : commit recordedAt source payloads before = .ok after)
    (kept : entry ∉ payloads.flatMap supersededBy)
    (unretracted : ∀ payload ∈ payloads, isRetraction payload = false) : IsLive after entry := by
  refine commit_induction (motive := fun graph => IsLive graph entry) ?_ committed live
  rintro payload member before after applied ⟨row, rowMem, rfl, rowLive⟩
  refine ⟨_, (mem_entries_apply applied).mpr (.inl ⟨row, rowMem, rfl⟩), by simp, ?_⟩
  refine entryChange_live rowLive (fun taken => kept ?_) (unretracted payload member)
  exact List.mem_flatMap.mpr ⟨payload, member, taken⟩

theorem foldl_before_append (committed : commit recordedAt source payloads before = .ok after)
    (absent : after.entries.contains entry = false)
    (unretracted : ∀ payload ∈ payloads, retractedEntry payload ≠ some entry) :
    payloads.foldl (foldAttestation entry) held = held := by
  induction payloads generalizing before held with
  | nil => rfl
  | cons payload rest ih =>
    obtain ⟨middle, applied, remaining⟩ := commit_cons_ok.mp committed
    have here : foldAttestation entry held payload = held := by
      cases payload with
      | entryAttested memory attested by' toldIn assertedAt posture phrasing sourceEntry producedBy =>
        have known := contains_entry_commit (attested_of_apply applied rfl) remaining
        have other : attested ≠ entry := by
          rintro rfl
          rw [absent] at known
          cases known
        simp [foldAttestation, other]
      | attestationRetracted memory retracted by' reason producedBy =>
        have other : retracted ≠ entry := by
          rintro rfl
          exact unretracted _ List.mem_cons_self rfl
        simp [foldAttestation, other]
      | _ => rfl
    rw [List.foldl_cons, here]
    exact ih remaining fun other member => unretracted other (List.mem_cons_of_mem _ member)

end Commit

end Overlay

/-! ### The live entries of a class -/

/-- A graph holds an entry as a write guard read it. -/
structure HoldsAsRead (graph : Graph) (entry : LiveEntry) : Prop where
  recorded : Recorded graph entry.entryId entry.toldBy entry.visibility
  standing : ListsStanding graph entry.entryId entry.attestations
  live : IsLive graph entry.entryId

section Reads

variable {recordedAt : Timestamp} {source : EventSource} {graph committed : Graph}
variable {block : MemoryBlock} {id : MemoryId}

theorem listsStanding_entryFromRow (graph : Graph) (row : EntryRow) :
    ListsStanding graph row.entryId
      ((entryFromRow graph .live row).attestations.map fun view => (view.teller, view.posture)) where
  once := by
    have keys : ((attestationRowsFor graph row.entryId .live).map AttestationRow.key).Nodup := by
      have sorted := List.perm_insertionSort (fun first second : AttestationRow =>
        first.seq ≤ second.seq) (graph.attestations.rows.filter fun stored =>
          stored.entryId = row.entryId && AttestationScope.live.covers stored)
      exact (sorted.map _).nodup_iff.mpr (graph.attestations.nodup.sublist
        (List.filter_sublist.map _))
    have named : (attestationRowsFor graph row.entryId .live).map AttestationRow.key =
        ((attestationRowsFor graph row.entryId .live).map (·.teller)).map
          fun teller => (row.entryId, teller) := by
      rw [List.map_map]
      refine List.map_congr_left fun stored member => ?_
      have owner := (mem_attestationRowsFor.mp member).2.1
      simp [AttestationRow.key, owner]
    rw [named] at keys
    have tellers : ((entryFromRow graph .live row).attestations.map fun view =>
        (view.teller, view.posture)).map Prod.fst =
          (attestationRowsFor graph row.entryId .live).map (·.teller) := by
      simp [entryFromRow, attestationsFor, attestationFromRow, Function.comp_def]
    exact tellers ▸ keys.of_map _
  stands := by
    intro teller posture
    rw [← exists_live_attestation_iff, List.mem_map]
    simp [entryFromRow]

/-- A pending append is read with its founding endorsement and the later writes on it. -/
private theorem listsStanding_of_appended {before after : Graph} {earlier later : List EventPayload}
    {owner : MemoryId} {entry : EntryId} {assertedAt : Timestamp}
    {occurredAt : Option TemporalRef} {text : String} {toldBy : Teller}
    {toldIn : Option ConversationRef} {visibility : Visibility} (reachable : Reachable before)
    (applied : apply ⟨before.head + 1, recordedAt, source,
      .memoryContentAppended owner entry assertedAt occurredAt text toldBy toldIn visibility⟩ before =
        .ok after)
    (last : commit recordedAt source later after = .ok committed)
    (kept : entry ∉ later.flatMap supersededBy)
    (quiet : earlier.foldl (foldAttestation entry) [(toldBy, visibility)] = [(toldBy, visibility)]) :
    ListsStanding committed entry
      ((earlier ++
        .memoryContentAppended owner entry assertedAt occurredAt text toldBy toldIn visibility ::
          later).foldl (foldAttestation entry) [(toldBy, visibility)]) := by
  obtain ⟨_, fresh, _⟩ := appended_of_apply applied rfl
  have stored := (mem_entries_apply applied).mpr (.inr rfl)
  have founded : ListsStanding after entry [(toldBy, visibility)] := by
    refine ⟨by simp, fun teller posture => ?_⟩
    rw [standing_apply applied]
    have unheld : before.standing entry teller = none := reachable.standing_unknown fresh teller
    by_cases same : toldBy = teller
    · simp [heldAfter, same, eq_comm]
    · simp [heldAfter, same, Ne.symm same, unheld]
  simp only [List.foldl_append, quiet, List.foldl_cons]
  exact founded.commit (Table.contains_of_mem stored) last kept

theorem recorded_of_live (done : commit recordedAt source block.buffer graph = .ok committed)
    {entry : LiveEntry} (member : entry ∈ liveClassEntries graph block id) :
    Recorded committed entry.entryId entry.toldBy entry.visibility := by
  rcases List.mem_append.mp member with stored | pending
  · obtain ⟨view, listed, rfl⟩ := List.mem_map.mp stored
    obtain ⟨row, rowMem, rfl⟩ := List.mem_map.mp (List.mem_filter.mp listed).1
    have inEntries := (mem_entryRowsWhere.mp rowMem).1
    have recorded : Recorded graph row.entryId row.toldBy row.visibility :=
      ⟨row, inEntries, rfl, rfl, rfl⟩
    exact recorded.commit done
  · obtain ⟨payload, inBuffer, read⟩ := List.mem_filterMap.mp pending
    unfold livePending at read
    split at read
    · split at read
      · cases read
        obtain ⟨earlier, later, split⟩ := List.append_of_mem inBuffer
        rw [split] at done
        obtain ⟨before, _, rest⟩ := commit_append_ok.mp done
        obtain ⟨after, applied, last⟩ := commit_cons_ok.mp rest
        have stored := (mem_entries_apply applied).mpr (.inr rfl)
        exact Recorded.commit ⟨_, stored, rfl, rfl, rfl⟩ last
      · cases read
    · cases read

theorem listsStanding_of_live (reachable : Reachable graph)
    (done : commit recordedAt source block.buffer graph = .ok committed)
    {entry : LiveEntry} (member : entry ∈ liveClassEntries graph block id)
    (unnamed : ∀ earlier payload later, block.buffer = earlier ++ payload :: later →
      appended payload = some entry.entryId → ∀ other ∈ earlier,
        retractedEntry other ≠ some entry.entryId) :
    ListsStanding committed entry.entryId entry.attestations := by
  rcases List.mem_append.mp member with stored | pending
  · obtain ⟨view, listed, rfl⟩ := List.mem_map.mp stored
    obtain ⟨inClass, kept⟩ := List.mem_filter.mp listed
    obtain ⟨row, rowMem, rfl⟩ := List.mem_map.mp inClass
    have inEntries := (mem_entryRowsWhere.mp rowMem).1
    have kept : row.entryId ∉ block.buffer.flatMap supersededBy := by
      simpa [pendingSuperseded, entryFromRow] using kept
    exact (listsStanding_entryFromRow graph row).commit (Table.contains_of_mem inEntries) done kept
  · obtain ⟨payload, inBuffer, read⟩ := List.mem_filterMap.mp pending
    unfold livePending at read
    split at read
    · rename_i owner entryId assertedAt occurredAt text toldBy toldIn visibility
      split at read
      · rename_i kept
        cases read
        obtain ⟨earlier, later, split⟩ := List.append_of_mem inBuffer
        have kept : entryId ∉ block.buffer.flatMap supersededBy := kept.2
        have unnamed := unnamed earlier _ later split rfl
        simp only [foldPendingAttestations]
        rw [split] at done kept ⊢
        obtain ⟨before, first, rest⟩ := commit_append_ok.mp done
        obtain ⟨after, applied, last⟩ := commit_cons_ok.mp rest
        rw [List.flatMap_append, List.mem_append, List.flatMap_cons, List.mem_append, not_or,
          not_or] at kept
        exact listsStanding_of_appended (reachable.commit first) applied last kept.2.2
          (foldl_before_append first (absent_of_appended applied rfl) unnamed)
      · cases read
    · cases read

theorem appended_of_livePending {members : List MemoryId} {payload : EventPayload}
    {entry : LiveEntry} (read : livePending block members payload = some entry) :
    appended payload = some entry.entryId := by
  unfold livePending at read
  split at read
  · split at read
    · cases read
      rfl
    · cases read
  · cases read

theorem not_superseded_of_live {entry : LiveEntry}
    (member : entry ∈ liveClassEntries graph block id) :
    entry.entryId ∉ block.buffer.flatMap supersededBy := by
  rcases List.mem_append.mp member with stored | pending
  · obtain ⟨view, listed, rfl⟩ := List.mem_map.mp stored
    simpa [pendingSuperseded, liveCommitted] using (List.mem_filter.mp listed).2
  · obtain ⟨payload, _, read⟩ := List.mem_filterMap.mp pending
    unfold livePending at read
    split at read
    · split at read
      · rename_i kept
        cases read
        exact kept.2
      · cases read
    · cases read

theorem holdsAsRead_of_live (reachable : Reachable graph)
    (done : commit recordedAt source block.buffer graph = .ok committed)
    (unretracted : ∀ payload ∈ block.buffer, isRetraction payload = false) {entry : LiveEntry}
    (member : entry ∈ liveClassEntries graph block id) : HoldsAsRead committed entry := by
  have kept := not_superseded_of_live member
  refine ⟨recorded_of_live done member, listsStanding_of_live reachable done member ?_, ?_⟩
  · intro earlier payload later split _ other inEarlier retracts
    have retraction := unretracted other (by simp [split, inEarlier])
    rw [isRetraction_iff.mpr ⟨_, retracts⟩] at retraction
    cases retraction
  · rcases List.mem_append.mp member with stored | pending
    · obtain ⟨view, listed, rfl⟩ := List.mem_map.mp stored
      obtain ⟨row, rowMem, rfl⟩ := List.mem_map.mp (List.mem_filter.mp listed).1
      obtain ⟨inEntries, matching⟩ := mem_entryRowsWhere.mp rowMem
      rw [Bool.and_eq_true, Option.isNone_iff_eq_none] at matching
      exact isLive_commit ⟨row, inEntries, rfl, matching.2⟩ done kept unretracted
    · obtain ⟨payload, inBuffer, read⟩ := List.mem_filterMap.mp pending
      obtain ⟨earlier, later, split⟩ := List.append_of_mem inBuffer
      rw [split] at done kept unretracted
      obtain ⟨before, _, rest⟩ := commit_append_ok.mp done
      obtain ⟨after, applied, last⟩ := commit_cons_ok.mp rest
      simp only [List.flatMap_append, List.flatMap_cons, List.mem_append, not_or] at kept
      have recorded := (isLive_apply_iff applied).mpr (.inr (appended_of_livePending read))
      exact isLive_commit recorded last kept.2.2
        fun payload member => unretracted payload (by simp [member])

end Reads

end MemoryBlock

end Zuihitsu
