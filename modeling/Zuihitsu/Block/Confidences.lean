/-
# Whether one participant can take out what another confided

A conversation turn may take an entry out when its speaker stands behind it. The
guard reads the endorsements with the block's own writes over them, so a speaker
who endorses a confidence may replace it in the same block, and one teller's
account can be withdrawn by name whoever the speaker is. The main result says that
these are the only ways.
-/

import Zuihitsu.Block.ReadYourWrites
import Zuihitsu.Graph.Genesis

namespace Zuihitsu

open Zuihitsu.Core Zuihitsu.Graph Zuihitsu.Library

/-- An entry that a participant confided. -/
def Confided (graph : Graph) (entry : EntryId) : Prop :=
  ∃ participant visibility, Recorded graph entry (.participant participant) visibility ∧
    MemoryBlock.isAllAudience visibility = false

/-- Nobody of a speaker's class stands behind an entry. -/
def StandsApart (graph : Graph) (speaker : Teller) (entry : EntryId) : Prop :=
  ∀ teller posture, graph.standing entry teller = some posture →
    MemoryBlock.sameTellerClass graph teller speaker = false

/-- An event that leaves an entry live, and every account of it but a speaker's own. -/
def SparesEntry (graph : Graph) (speaker : Teller) (entry : EntryId) : EventPayload → Prop
  | .memorySuperseded _ old _ => old ≠ entry
  | .entriesConsolidated _ sources _ _ => entry ∉ sources
  | .entryRetracted _ retracted _ _ => retracted ≠ entry
  | .attestationRetracted _ retracted teller _ _ =>
    retracted = entry → MemoryBlock.sameTellerClass graph teller speaker = true
  | _ => True

/-! ### What sparing events leave -/

/-- An entry stays live, and everyone who stood behind it still does. -/
structure Outlives (graph left : Graph) (entry : EntryId) : Prop where
  live : IsLive graph entry → IsLive left entry
  stands : ∀ teller, (graph.standing entry teller).isSome = true →
    (left.standing entry teller).isSome = true

section Outliving

variable {graph before after : Graph} {speaker : Teller} {entry : EntryId} {event : Event}

theorem exists_standing (reachable : Reachable graph) (live : IsLive graph entry) :
    ∃ teller posture, graph.standing entry teller = some posture := by
  obtain ⟨row, member, rfl, unretired⟩ := live
  obtain ⟨attestation, stored, owner, stands⟩ := reachable.endorsed row member unretired
  exact ⟨attestation.teller, attestation.posture, standing_eq_some.mpr
    ⟨attestation, stored, by rw [AttestationRow.key, owner], stands, rfl⟩⟩

theorem Outlives.apply (reachable : Reachable graph) (apart : StandsApart graph speaker entry)
    (outlives : Outlives graph before entry) (applied : apply event before = .ok after)
    (spares : SparesEntry graph speaker entry event.payload) : Outlives graph after entry where
  live live := by
    refine (isLive_apply_iff applied).mpr (.inl ⟨outlives.live live, fun retires => ?_⟩)
    cases payload : event.payload with
    | attestationRetracted =>
      rw [payload] at retires spares
      obtain ⟨rfl, alone⟩ := retires
      -- somebody else stood behind the entry, and still does
      obtain ⟨other, posture, stood⟩ := exists_standing reachable live
      have kept := outlives.stands other (by rw [stood]; rfl)
      obtain ⟨level, stands⟩ := Option.isSome_iff_exists.mp kept
      have same := spares rfl
      rw [← alone other level stands, apart other posture stood] at same
      cases same
    | memorySuperseded | entriesConsolidated | entryRetracted =>
      rw [payload] at retires spares
      exact spares retires
    | _ =>
      rw [payload] at retires
      exact retires
  stands teller stood := by
    have kept := outlives.stands teller stood
    obtain ⟨posture, stood⟩ := Option.isSome_iff_exists.mp stood
    rw [standing_apply applied]
    unfold heldAfter
    split
    · split
      · rfl
      · exact kept
    · split
      · rfl
      · exact kept
    · rename_i payload
      rw [payload] at spares
      rw [if_neg spares]
      exact kept
    · rename_i payload
      rw [payload] at spares
      refine (if_neg fun key => ?_) ▸ kept
      obtain ⟨rfl, rfl⟩ := Prod.mk.inj key
      have same := spares rfl
      rw [apart _ posture stood] at same
      cases same
    · exact kept

theorem Outlives.commit {recordedAt : Timestamp} {source : EventSource}
    {payloads : List EventPayload} {left : Graph} (reachable : Reachable graph)
    (apart : StandsApart graph speaker entry)
    (committed : commit recordedAt source payloads graph = .ok left)
    (spares : ∀ payload ∈ payloads, SparesEntry graph speaker entry payload) :
    Outlives graph left entry :=
  commit_induction (motive := fun state => Outlives graph state entry)
    (fun payload member _ _ applied outlives =>
      outlives.apply reachable apart applied (spares payload member))
    committed ⟨id, fun _ => id⟩

end Outliving

namespace MemoryBlock

/-! ### The guard on a confidence -/

section Guard

variable {graph : Graph} {block : MemoryBlock} {id : MemoryId} {entry : EntryId}
variable {held : List (Teller × Visibility)}

theorem mem_foldPending {pair : Teller × Visibility}
    (member : pair ∈ foldPendingAttestations block entry held) :
    pair ∈ held ∨ pair ∈ pendingAttestations block entry := by
  have placed : ∀ {teller posture} {rest : List (Teller × Visibility)},
      pair ∈ holdAs teller posture rest → pair ∈ rest ∨ pair = (teller, posture) := by
    intro teller posture rest inside
    induction rest with
    | nil => exact .inr (List.mem_singleton.mp inside)
    | cons first others ih =>
      unfold holdAs at inside
      split at inside
      · rcases List.mem_cons.mp inside with here | later
        · exact .inr here
        · exact .inl (List.mem_cons_of_mem _ later)
      · rcases List.mem_cons.mp inside with here | later
        · exact .inl (here ▸ List.mem_cons_self)
        · exact (ih later).imp_left (List.mem_cons_of_mem _)
  unfold foldPendingAttestations at member
  unfold pendingAttestations
  generalize block.buffer = buffer at member ⊢
  -- induction on the buffer, with what is held before the rest of it
  induction buffer generalizing held with
  | nil => exact .inl member
  | cons payload rest ih =>
    rcases ih member with before | later
    · cases payload with
      | entryAttested memory attested teller toldIn assertedAt posture phrasing source producedBy =>
        simp only [foldAttestation] at before
        split at before
        · rename_i here
          rcases placed before with earlier | rfl
          · exact .inl earlier
          · exact .inr (List.mem_filterMap.mpr
              ⟨_, List.mem_cons_self, by simp [attests, here]⟩)
        · exact .inl before
      | attestationRetracted =>
        simp only [foldAttestation] at before
        split at before
        · exact .inl (List.mem_filter.mp before).1
        · exact .inl before
      | _ => exact .inl before
    · refine .inr ?_
      rw [List.filterMap_cons]
      split
      · exact later
      · exact List.mem_cons_of_mem _ later

theorem teller_mem_foldPending {teller : Teller} (member : teller ∈ held.map Prod.fst)
    (kept : ∀ payload ∈ block.buffer, ∀ memory reason producedBy,
      payload ≠ .attestationRetracted memory entry teller reason producedBy) :
    teller ∈ (foldPendingAttestations block entry held).map Prod.fst := by
  unfold foldPendingAttestations
  generalize block.buffer = buffer at kept ⊢
  induction buffer generalizing held with
  | nil => exact member
  | cons payload rest ih =>
    refine ih ?_ fun other later => kept other (List.mem_cons_of_mem _ later)
    cases payload with
    | entryAttested =>
      simp only [foldAttestation]
      split
      · rw [map_fst_holdAs]
        split
        · exact member
        · exact List.mem_append_left _ member
      · exact member
    | attestationRetracted memory retracted by' reason producedBy =>
      simp only [foldAttestation]
      split
      · rename_i here
        obtain ⟨pair, inHeld, rfl⟩ := List.mem_map.mp member
        have other : pair.1 ≠ by' := by
          rintro rfl
          exact kept _ List.mem_cons_self memory reason producedBy (by rw [here])
        exact List.mem_map_of_mem (List.mem_filter.mpr ⟨inHeld, by simpa using other⟩)
      · exact member
    | _ => exact member

theorem stored_of_liveEntry {live : LiveEntry} (found : liveEntry graph block id entry = .ok live) :
    (∃ payload ∈ block.buffer, appended payload = some entry) ∨
      ∃ row ∈ graph.entries, row.entryId = entry ∧ row.supersededBy = none ∧
        live.toldBy = row.toldBy ∧ live.visibility = row.visibility ∧
        ∃ held, live.attestations = foldPendingAttestations block entry held ∧
          ListsStanding graph entry held := by
  obtain ⟨member, rfl⟩ := mem_of_liveEntry found
  rcases List.mem_append.mp member with stored | pending
  · obtain ⟨view, listed, rfl⟩ := List.mem_map.mp stored
    obtain ⟨row, rowMem, rfl⟩ := List.mem_map.mp (List.mem_filter.mp listed).1
    obtain ⟨inEntries, matching⟩ := mem_entryRowsWhere.mp rowMem
    rw [Bool.and_eq_true, Option.isNone_iff_eq_none] at matching
    exact .inr ⟨row, inEntries, rfl, matching.2, rfl, rfl, _, rfl, listsStanding_entryFromRow graph row⟩
  · obtain ⟨payload, inBuffer, read⟩ := List.mem_filterMap.mp pending
    exact .inl ⟨payload, inBuffer, appended_of_livePending read⟩

theorem asked_of_guard {live : LiveEntry} (platform : block.authority = .platform)
    (confided : Confided graph entry) (found : liveEntry graph block id entry = .ok live)
    (passed : guardForeignConfidenceSupersede graph block live = .ok ()) :
    (∃ payload ∈ block.buffer, appended payload = some entry) ∨
      ∃ held ∈ live.attestations, sameTellerClass graph held.1 block.teller = true := by
  refine (stored_of_liveEntry found).imp_right ?_
  rintro ⟨row, stored, rfl, _, toldBy, visibility, _⟩
  obtain ⟨participant, level, recorded, closed⟩ := confided
  obtain ⟨teller, posture⟩ := recorded.unique ⟨row, stored, rfl, rfl, rfl⟩
  rw [guardForeignConfidenceSupersede, platform, toldBy, visibility, ← teller, ← posture] at passed
  rw [← List.any_eq_true]
  by_contra nobody
  cases level <;> simp [isAllAudience, nobody] at closed passed

theorem endorsed_of_guard {live : LiveEntry} (platform : block.authority = .platform)
    (confided : Confided graph entry) (apart : StandsApart graph block.teller entry)
    (found : liveEntry graph block id entry = .ok live)
    (passed : guardForeignConfidenceSupersede graph block live = .ok ()) :
    (∃ payload ∈ block.buffer, appended payload = some entry) ∨
      ∃ held ∈ pendingAttestations block entry, sameTellerClass graph held.1 block.teller = true := by
  rcases asked_of_guard platform confided found passed with anew | ⟨pair, member, same⟩
  · exact .inl anew
  · refine (stored_of_liveEntry found).imp_right ?_
    rintro ⟨row, stored, rfl, _, _, _, held, attestations, lists⟩
    rw [attestations] at member
    rcases mem_foldPending member with before | pending
    · rw [apart pair.1 pair.2 ((lists.stands pair.1 pair.2).mp before)] at same
      cases same
    · exact ⟨pair, pending, same⟩

end Guard

/-! ### What a call of a turn leaves -/

/-- The entries a call replaces. -/
def replacedBy : Operation → List EntryId
  | .supersede _ old _ | .revise _ _ old .. => [old]
  | .consolidate _ _ sources .. | .consolidateInto _ sources .. => sources
  | _ => []

/-- The teller whose account of an entry a call withdraws by name. -/
def withdrawnFrom (entry : EntryId) : Operation → Option Teller
  | .retractAttestation _ retracted teller .. => if retracted = entry then some teller else none
  | _ => none

/-- A call that replaces an entry only while the block holds no endorsement of it for its
speaker's class, and that withdraws by name no account of it but that class's. -/
structure Respects (graph : Graph) (entry : EntryId) (block : MemoryBlock) (op : Operation) :
    Prop where
  replaces : entry ∈ replacedBy op → ∀ held ∈ pendingAttestations block entry,
    sameTellerClass graph held.1 block.teller = false
  withdraws : ∀ teller ∈ withdrawnFrom entry op, sameTellerClass graph teller block.teller = true

section Calls

variable {engine : Engine} {graph : Graph} {block after : MemoryBlock} {id : MemoryId}
variable {entry : EntryId}

theorem supersede_guarded {old new : EntryId} (done : supersede engine block id old new = .ok after) :
    ∃ live, liveEntry engine.graph block (classWriteTarget engine.graph block id) old = .ok live ∧
      guardForeignConfidenceSupersede engine.graph block live = .ok () := by
  simp only [supersede, bind_eq_ok, exists_checked, pure, Except.pure, Except.ok.injEq] at done
  obtain ⟨_, _, live, found, _, _, passed, _⟩ := done
  exact ⟨live, found, passed⟩

theorem forall_of_foldlM {α β ε : Type} {step : α → β → Except ε α} {holds : β → Prop}
    (each : ∀ state item next, step state item = .ok next → holds item) {items : List β}
    {first last : α} (ran : items.foldlM step first = .ok last) : ∀ item ∈ items, holds item := by
  induction items generalizing first with
  | nil => simp
  | cons item rest ih =>
    rw [List.foldlM_cons] at ran
    obtain ⟨next, taken, remaining⟩ := bind_eq_ok.mp ran
    exact List.forall_mem_cons.mpr ⟨each first item next taken, ih remaining⟩

theorem consolidate_guarded {fresh : EntryId} {sources : List EntryId} {text : String}
    {producedBy : Option ProducedBy}
    (done : consolidate engine fresh block id sources text producedBy = .ok after) :
    ∀ source ∈ sources, ∃ live,
      liveEntry engine.graph block (classWriteTarget engine.graph block id) source = .ok live ∧
        guardForeignConfidenceSupersede engine.graph block live = .ok () := by
  simp only [consolidate, bind_eq_ok, exists_checked] at done
  obtain ⟨_, _, _, checked, _⟩ := done
  refine forall_of_foldlM (fun shared source next passed => ?_) checked
  simp only [checkSource, bind_eq_ok, exists_checked] at passed
  obtain ⟨live, found, guarded, _⟩ := passed
  exact ⟨live, found, guarded⟩

theorem consolidateInto_guarded {sources : List EntryId} {replacement : EntryId}
    {producedBy : Option ProducedBy}
    (done : consolidateInto engine block id sources replacement producedBy = .ok after) :
    ∀ source ∈ sources, ∃ live,
      liveEntry engine.graph block (classWriteTarget engine.graph block id) source = .ok live ∧
        guardForeignConfidenceSupersede engine.graph block live = .ok () := by
  simp only [consolidateInto, bind_eq_ok, exists_checked] at done
  obtain ⟨_, _, _, _, _, _, absorbed, _⟩ := done
  refine forall_of_foldlM (fun plan source next passed => ?_) absorbed
  simp only [absorbSource, bind_eq_ok, exists_checked] at passed
  obtain ⟨live, found, guarded, _⟩ := passed
  exact ⟨live, found, guarded⟩

/-- Whether a call may take entries or accounts of them out. -/
def takesOut : Operation → Bool
  | .supersede .. | .revise .. | .consolidate .. | .consolidateInto .. | .retract ..
  | .retractAttestation .. => true
  | _ => false

theorem sparesEntry_of_mayBuffer {op : Operation} {payload : EventPayload} {speaker : Teller}
    (quiet : takesOut op = false) (kind : op.mayBuffer payload = true) :
    SparesEntry graph speaker entry payload := by
  cases payload with
  | memorySuperseded | entriesConsolidated | entryRetracted | attestationRetracted =>
    cases op <;> first | (cases quiet; done) | cases kind
  | _ => trivial

/-- The invariant of a turn: what it has buffered spares the entry, or names it anew, and
then it cannot commit. -/
structure Spared (graph : Graph) (entry : EntryId) (block : MemoryBlock) : Prop where
  platform : block.authority = .platform
  apart : StandsApart graph block.teller entry
  buffer : (∃ payload ∈ block.buffer, appended payload = some entry) ∨
    ∀ payload ∈ block.buffer, SparesEntry graph block.teller entry payload

theorem Spared.buffers {events : List EventPayload} (spared : Spared graph entry block)
    (buffers : Buffers block events after)
    (spares : (∃ payload ∈ after.buffer, appended payload = some entry) ∨
      ∀ payload ∈ events, SparesEntry graph block.teller entry payload) :
    Spared graph entry after := by
  have extended := buffers.buffer
  obtain ⟨seeds, rfl⟩ := buffers
  refine ⟨spared.platform, spared.apart, ?_⟩
  rcases spares with anew | spares
  · exact .inl anew
  · rcases spared.buffer with ⟨payload, member, appends⟩ | before
    · exact .inl ⟨payload, List.mem_append_left _ member, appends⟩
    · exact .inr (List.forall_mem_append.mpr ⟨before, spares⟩)

theorem Spared.appends_of_guard (spared : Spared graph entry block) (confided : Confided graph entry)
    {live : LiveEntry} (found : liveEntry graph block id entry = .ok live)
    (passed : guardForeignConfidenceSupersede graph block live = .ok ())
    (unendorsed : ∀ held ∈ pendingAttestations block entry,
      sameTellerClass graph held.1 block.teller = false) :
    ∃ payload ∈ block.buffer, appended payload = some entry := by
  rcases endorsed_of_guard spared.platform confided spared.apart found passed with
    anew | ⟨held, pending, same⟩
  · exact anew
  · rw [unendorsed held pending] at same
    cases same

theorem Spared.append {fresh : EntryId} {now : Timestamp} {text : String} {opts : AppendOptions}
    (spared : Spared graph entry block)
    (done : append ⟨graph, now⟩ fresh block id text opts = .ok after) :
    Spared graph entry after ∧ pendingAttestations after entry = pendingAttestations block entry ∧
      after.teller = block.teller := by
  obtain ⟨_, _, _, _, rfl⟩ := append_ok done
  refine ⟨spared.buffers buffers_pushAll (.inr (List.forall_mem_cons.mpr
    ⟨trivial, forall_inlineVolatility fun _ => trivial⟩)), ?_, rfl⟩
  simp only [pendingAttestations, pushAll_buffer, List.filterMap_append, List.filterMap_cons, attests,
    List.append_right_eq_self, List.filterMap_eq_nil_iff]
  exact forall_inlineVolatility fun _ => rfl

theorem Spared.supersede {old new : EntryId} {now : Timestamp} (spared : Spared graph entry block)
    (confided : Confided graph entry)
    (done : supersede ⟨graph, now⟩ block id old new = .ok after)
    (unendorsed : old = entry → ∀ held ∈ pendingAttestations block entry,
      sameTellerClass graph held.1 block.teller = false) : Spared graph entry after := by
  obtain ⟨live, found, passed⟩ := supersede_guarded done
  obtain ⟨_, _, rfl⟩ := supersede_ok done
  refine spared.buffers buffers_pushAll ?_
  by_cases here : old = entry
  · subst here
    obtain ⟨payload, member, anew⟩ := spared.appends_of_guard confided found passed (unendorsed rfl)
    exact .inl ⟨payload, List.mem_append_left _ member, anew⟩
  · exact .inr (List.forall_mem_singleton.mpr here)

/-- Consolidating sources that pass the guard keeps the invariant. -/
theorem Spared.consolidating {sources : List EntryId} {events : List EventPayload}
    {target : MemoryId} {replacement : EntryId} {producedBy : Option ProducedBy}
    (spared : Spared graph entry block) (confided : Confided graph entry)
    (guarded : ∀ source ∈ sources, ∃ live, liveEntry graph block id source = .ok live ∧
      guardForeignConfidenceSupersede graph block live = .ok ())
    (unendorsed : entry ∈ sources → ∀ held ∈ pendingAttestations block entry,
      sameTellerClass graph held.1 block.teller = false)
    (spares : ∀ payload ∈ events, SparesEntry graph block.teller entry payload) :
    Spared graph entry
      (block.pushAll (events ++ [.entriesConsolidated target sources replacement producedBy])) := by
  refine spared.buffers buffers_pushAll ?_
  by_cases here : entry ∈ sources
  · obtain ⟨live, found, passed⟩ := guarded entry here
    obtain ⟨payload, member, anew⟩ := spared.appends_of_guard confided found passed (unendorsed here)
    exact .inl ⟨payload, List.mem_append_left _ member, anew⟩
  · exact .inr (List.forall_mem_append.mpr ⟨spares, List.forall_mem_singleton.mpr here⟩)

theorem Spared.othersAttest (spared : Spared graph entry block) (reachable : Reachable graph)
    {live : LiveEntry} (found : liveEntry graph block id entry = .ok live) :
    (∃ payload ∈ block.buffer, appended payload = some entry) ∨
      (live.attestations.any fun held => !sameTellerClass graph held.1 block.teller) = true := by
  rcases spared.buffer with anew | spares
  · exact .inl anew
  · refine (stored_of_liveEntry found).imp_right ?_
    rintro ⟨row, stored, rfl, unretired, _, _, held, attestations, lists⟩
    obtain ⟨teller, posture, stands⟩ := exists_standing reachable ⟨row, stored, rfl, unretired⟩
    have other := spared.apart teller posture stands
    have before : teller ∈ held.map Prod.fst :=
      List.mem_map.mpr ⟨_, (lists.stands teller posture).mpr stands, rfl⟩
    -- the buffer withdraws accounts of the speaker's class only
    have kept : teller ∈ (foldPendingAttestations block row.entryId held).map Prod.fst := by
      refine teller_mem_foldPending before fun payload member memory reason producedBy withdraws => ?_
      have own := spares payload member
      rw [withdraws] at own
      rw [own rfl] at other
      cases other
    obtain ⟨pair, member, rfl⟩ := List.mem_map.mp kept
    rw [attestations]
    exact List.any_eq_true.mpr ⟨pair, member, by rw [other]; rfl⟩

theorem Spared.retract {retracted : EntryId} {now : Timestamp} {reason : String}
    {producedBy : Option ProducedBy} (reachable : Reachable graph)
    (spared : Spared graph entry block) (confided : Confided graph entry)
    (done : retract ⟨graph, now⟩ block id retracted reason producedBy = .ok after) :
    Spared graph entry after := by
  simp only [MemoryBlock.retract, bind_eq_ok, exists_checked, exists_const, refuseIf_ok] at done
  obtain ⟨_, _, _, live, found, done⟩ := done
  split at done
  · cases done
    -- only accounts of the speaker's class go
    refine spared.buffers buffers_pushAll (.inr (List.forall_mem_map.mpr fun account member _ => ?_))
    obtain ⟨held, inAccounts, rfl⟩ := List.mem_map.mp member
    exact (List.mem_filter.mp inAccounts).2
  · rename_i whole
    simp only [bind_eq_ok, exists_checked] at done
    obtain ⟨passed, done⟩ := done
    cases done
    refine spared.buffers buffers_push ?_
    by_cases here : retracted = entry
    · subst here
      refine .inl ?_
      have anew : ∃ payload ∈ block.buffer, appended payload = some retracted := by
        rcases spared.othersAttest reachable found with anew | others
        · exact anew
        · -- with others behind it, the whole entry goes only when the speaker has no account
          rcases asked_of_guard spared.platform confided found passed with anew | ⟨held, member, same⟩
          · exact anew
          · have account : held.1 ∈ accountsOf graph live block.teller :=
              List.mem_map_of_mem (List.mem_filter.mpr ⟨member, same⟩)
            exact absurd ⟨spared.platform, List.ne_nil_of_mem account, others⟩ whole
      obtain ⟨payload, member, anew⟩ := anew
      exact ⟨payload, List.mem_append_left _ member, anew⟩
    · exact .inr (List.forall_mem_singleton.mpr here)

theorem Spared.retractAttestation {retracted : EntryId} {now : Timestamp} {teller : Teller}
    {reason : String} {producedBy : Option ProducedBy} (spared : Spared graph entry block)
    (own : retracted = entry → sameTellerClass graph teller block.teller = true)
    (done : retractAttestation ⟨graph, now⟩ block id retracted teller reason producedBy = .ok after) :
    Spared graph entry after := by
  simp only [MemoryBlock.retractAttestation, bind_eq_ok, exists_checked, exists_const, refuseIf_ok]
    at done
  obtain ⟨_, _, _, live, _, _, done⟩ := done
  cases done
  refine spared.buffers buffers_pushAll (.inr (List.forall_mem_map.mpr fun account member here => ?_))
  obtain ⟨held, inAccounts, rfl⟩ := List.mem_map.mp member
  have named : sameTellerClass graph held.1 teller = true := (List.mem_filter.mp inAccounts).2
  rw [sameTellerClass_iff] at named ⊢
  exact named.trans (sameTellerClass_iff.mp (own here))

theorem Spared.step {call : Timestamp × Operation} (reachable : Reachable graph)
    (confided : Confided graph entry) (spared : Spared graph entry block)
    (calls : Calls graph block call after) (respects : Respects graph entry block call.2) :
    Spared graph entry after := by
  obtain ⟨now, op⟩ := call
  have replaces := respects.replaces
  cases op with
  | supersede =>
    exact spared.supersede confided calls fun same => replaces (by simp [replacedBy, same])
  | revise =>
    obtain ⟨_, middle, first, second⟩ := revise_ok calls
    obtain ⟨appended, pending, teller⟩ := spared.append first
    refine appended.supersede confided second fun same => ?_
    rw [pending, teller]
    exact replaces (by simp [replacedBy, same])
  | consolidate =>
    have guarded := consolidate_guarded calls
    obtain ⟨_, _, _, _, _, _, rfl⟩ := consolidate_ok calls
    rw [← List.cons_append]
    refine spared.consolidating confided guarded replaces ?_
    exact List.forall_mem_cons.mpr ⟨trivial, List.forall_mem_map.mpr fun _ _ => trivial⟩
  | consolidateInto =>
    have guarded := consolidateInto_guarded calls
    obtain ⟨_, _, _, _, _, _, _, rfl⟩ := consolidateInto_ok calls
    exact spared.consolidating confided guarded replaces (List.forall_mem_map.mpr fun _ _ => trivial)
  | retract => exact spared.retract reachable confided calls
  | retractAttestation id retracted teller reason producedBy =>
    refine spared.retractAttestation (fun same => ?_) calls
    exact respects.withdraws teller (by simp [withdrawnFrom, same])
  | _ =>
    obtain ⟨events, buffers, kinds⟩ := call_mayBuffer calls
    exact spared.buffers buffers (.inr fun payload member => sparesEntry_of_mayBuffer rfl (kinds payload member))

/-- However many calls a conversation turn makes, and in whatever order, an entry that a
participant confided and that nobody of the speaker's class stands behind stays live when
the turn commits, and with everyone who stood behind it: as long as the turn does not
replace it after endorsing it itself, or withdraw another's account of it by name. -/
theorem confidence_outlives_turn (reachable : Reachable graph) (opened : block.buffer = [])
    (platform : block.authority = .platform) (confided : Confided graph entry)
    (apart : StandsApart graph block.teller entry) {calls : List (Timestamp × Operation)}
    (run : Trace (fun one call other => Calls graph one call other ∧ Respects graph entry one call.2)
      block calls after)
    {recordedAt : Timestamp} {source : EventSource} {left : Graph}
    (done : commit recordedAt source after.buffer graph = .ok left) : Outlives graph left entry := by
  have start : Spared graph entry block := ⟨platform, apart, .inr (by simp [opened])⟩
  have spared : Spared graph entry after :=
    run.invariant (Spared graph entry)
      (fun _ _ _ ⟨calls, respects⟩ earlier => earlier.step reachable confided calls respects) start
  rcases spared.buffer with ⟨payload, member, anew⟩ | spares
  · -- an entry that is there is not appended again
    obtain ⟨_, _, recorded, _⟩ := confided
    have absent := absent_of_buffered done member anew
    rw [recorded.contains] at absent
    cases absent
  · exact Outlives.commit reachable spared.apart done spares

end Calls

end MemoryBlock

/-! Ines confides a surprise to the agent. Jonas was not told, and talks to it next. -/

namespace Aside

open MemoryBlock

def party : MemoryId := ⟨1⟩
def ines : MemoryId := ⟨2⟩
def jonas : MemoryId := ⟨3⟩

def surprise : EntryId := ⟨11⟩

def confidingGraph : Graph :=
  ((commit ⟨0⟩ .agent
    [.memoryCreated party ⟨"topic/party"⟩, .memoryCreated ines ⟨"person/ines"⟩,
      .memoryCreated jonas ⟨"person/jonas"⟩,
      .memoryContentAppended party surprise ⟨0⟩ none "the party is for Jonas" (.participant ines) none
        .privateToTeller] Graph.fresh).toOption).getD Graph.fresh

theorem confidingGraph_reachable : Reachable confidingGraph := by
  have confides : commit ⟨0⟩ .agent
      [.memoryCreated party ⟨"topic/party"⟩, .memoryCreated ines ⟨"person/ines"⟩,
        .memoryCreated jonas ⟨"person/jonas"⟩,
        .memoryContentAppended party surprise ⟨0⟩ none "the party is for Jonas" (.participant ines) none
          .privateToTeller] Graph.fresh = .ok confidingGraph := rfl
  exact Reachable.fresh.commit confides

theorem surprise_confided : Confided confidingGraph surprise :=
  ⟨ines, .privateToTeller, ⟨_, List.mem_cons_self, rfl, rfl, rfl⟩, rfl⟩

theorem jonas_apart : StandsApart confidingGraph (.participant jonas) surprise := by
  intro teller posture stands
  obtain ⟨row, member, key, _⟩ := standing_eq_some.mp stands
  have only : confidingGraph.attestations.rows.map (·.teller) = [.participant ines] := rfl
  have by' : row.teller = .participant ines := by
    have listed : row.teller ∈ confidingGraph.attestations.rows.map (·.teller) :=
      List.mem_map_of_mem member
    simpa [only] using listed
  obtain rfl : row.teller = teller := congrArg Prod.snd key
  rw [by']
  rfl

def turn : MemoryBlock := .open confidingGraph (.participant jonas) .platform none none [jonas] 4000

def endorsing : List (Timestamp × Operation) :=
  [(⟨1⟩, .attest party surprise { visibility := some .private }),
    (⟨2⟩, .append ⟨12⟩ party "the party is for nobody" { visibility := some .public })]

/-- The block after some calls, as far as they succeed. -/
def blockAfter (calls : List (Timestamp × Operation)) : MemoryBlock :=
  calls.foldl (fun block call => ((call.2.run ⟨confidingGraph, call.1⟩ block).toOption).getD block) turn

/-- The graph those calls leave. -/
def leftBy (calls : List (Timestamp × Operation)) : Graph :=
  ((commit ⟨4⟩ .agent (blockAfter calls).buffer confidingGraph).toOption).getD confidingGraph

def replacing : List (Timestamp × Operation) := endorsing ++ [(⟨3⟩, .supersede party surprise ⟨12⟩)]

def withdrawing : List (Timestamp × Operation) :=
  [(⟨1⟩, .retractAttestation party surprise (.participant ines) "hearsay" none)]

theorem turn_platform : turn.authority = .platform := rfl

theorem turn_opened : turn.buffer = [] := rfl

/-- Her confidence is gone after the one turn, and her account of it after the other. -/
theorem confidence_taken_out :
    Reachable confidingGraph ∧ Confided confidingGraph surprise ∧
      StandsApart confidingGraph turn.teller surprise ∧ turn.buffer = [] ∧
      turn.authority = .platform ∧ IsLive confidingGraph surprise ∧
      (Trace (Calls confidingGraph) turn replacing (blockAfter replacing) ∧
        commit ⟨4⟩ .agent (blockAfter replacing).buffer confidingGraph = .ok (leftBy replacing) ∧
        ¬IsLive (leftBy replacing) surprise) ∧
      (Trace (Calls confidingGraph) turn withdrawing (blockAfter withdrawing) ∧
        commit ⟨4⟩ .agent (blockAfter withdrawing).buffer confidingGraph = .ok (leftBy withdrawing) ∧
        ¬IsLive (leftBy withdrawing) surprise ∧
        (leftBy withdrawing).standing surprise (.participant ines) = none) := by
  refine ⟨confidingGraph_reachable, surprise_confided, jonas_apart, turn_opened, turn_platform,
    ⟨_, List.mem_cons_self, rfl, rfl⟩, ⟨?_, rfl, ?_⟩, ?_, rfl, ?_, rfl⟩
  · have attests : Calls confidingGraph turn (⟨1⟩, .attest party surprise { visibility := some .private })
        (blockAfter (endorsing.take 1)) := rfl
    have appends : Calls confidingGraph (blockAfter (endorsing.take 1))
        (⟨2⟩, .append ⟨12⟩ party "the party is for nobody" { visibility := some .public })
        (blockAfter endorsing) := rfl
    have replaces : Calls confidingGraph (blockAfter endorsing) (⟨3⟩, .supersede party surprise ⟨12⟩)
        (blockAfter replacing) := rfl
    exact .cons attests (.cons appends (.single replaces))
  · rintro ⟨row, member, named, live⟩
    revert row
    decide
  · have withdraws : Calls confidingGraph turn
        (⟨1⟩, .retractAttestation party surprise (.participant ines) "hearsay" none)
        (blockAfter withdrawing) := rfl
    exact .single withdraws
  · rintro ⟨row, member, named, live⟩
    revert row
    decide

def relenting : List (Timestamp × Operation) :=
  endorsing.take 1 ++ [(⟨2⟩, .retract party surprise "not mine to tell" none)]

/-- Hers stays as it was. -/
theorem confidence_outlives_relenting : Outlives confidingGraph (leftBy relenting) surprise := by
  have attests : Calls confidingGraph turn (⟨1⟩, .attest party surprise { visibility := some .private })
      (blockAfter (endorsing.take 1)) := rfl
  have retracts : Calls confidingGraph (blockAfter (endorsing.take 1))
      (⟨2⟩, .retract party surprise "not mine to tell" none) (blockAfter relenting) := rfl
  have committed : commit ⟨4⟩ .agent (blockAfter relenting).buffer confidingGraph =
      .ok (leftBy relenting) := rfl
  have respects : ∀ block op, replacedBy op = [] → withdrawnFrom surprise op = none →
      Respects confidingGraph surprise block op := by
    intro block op unreplaced unnamed
    exact ⟨by simp [unreplaced], by simp [unnamed]⟩
  exact confidence_outlives_turn confidingGraph_reachable turn_opened turn_platform surprise_confided
    jonas_apart
    (.cons ⟨attests, respects _ _ rfl rfl⟩ (.single ⟨retracts, respects _ _ rfl rfl⟩)) committed

end Aside

end Zuihitsu
