/-
# Reachable graphs

A graph is reachable when it is what folding some log of consecutively numbered
events leaves. The invariants of the projection that hold of every such graph
are proved here from the row functions: the watermarks and positions never pass
the head, an entry's position never passes its memory's content watermark, and a
live entry has a live endorsement.
-/

import Zuihitsu.Graph.Effects
import Zuihitsu.Library.Trace

namespace Zuihitsu.Graph

open Zuihitsu.Core Zuihitsu.Library

/-- The events one append to the store makes of its payloads, numbered from after
a position. -/
def stamp (after : Nat) (recordedAt : Timestamp) (source : EventSource) :
    List EventPayload → List Event
  | [] => []
  | payload :: rest =>
    ⟨after + 1, recordedAt, source, payload⟩ :: stamp (after + 1) recordedAt source rest

/-- Append payloads to a store the graph is level with, and materialize them. -/
def commit (recordedAt : Timestamp) (source : EventSource) (payloads : List EventPayload)
    (graph : Graph) : Except Violation Graph :=
  foldLog apply (stamp graph.head recordedAt source payloads) graph

/-- Folding the event at the next position of the log. -/
def Folds (before : Graph) (event : Event) (after : Graph) : Prop :=
  event.seq = before.head + 1 ∧ apply event before = .ok after

/-- The graphs that folding a log leaves. -/
inductive Reachable : Graph → Prop
  | fresh : Reachable Graph.fresh
  | apply {before after : Graph} {event : Event} (earlier : Reachable before)
      (next : event.seq = before.head + 1) (applied : apply event before = .ok after) :
      Reachable after

theorem Reachable.step {before after : Graph} {event : Event} (earlier : Reachable before)
    (folds : Folds before event after) : Reachable after :=
  earlier.apply folds.1 folds.2

section Commit

variable {recordedAt : Timestamp} {source : EventSource} {payload : EventPayload}
variable {payloads : List EventPayload} {graph result : Graph}

@[simp] theorem commit_nil : commit recordedAt source [] graph = .ok graph := rfl

theorem commit_cons_ok :
    commit recordedAt source (payload :: payloads) graph = .ok result ↔
      ∃ after, Graph.apply ⟨graph.head + 1, recordedAt, source, payload⟩ graph = .ok after ∧
        commit recordedAt source payloads after = .ok result := by
  simp only [commit, stamp, foldLog_cons_ok]
  refine exists_congr fun after => and_congr_right fun applied => ?_
  rw [head_of_apply applied]

theorem commit_induction {motive : Graph → Prop}
    (keeps : ∀ payload ∈ payloads, ∀ before after,
      Graph.apply ⟨before.head + 1, recordedAt, source, payload⟩ before = .ok after →
        motive before → motive after)
    (committed : commit recordedAt source payloads graph = .ok result) (start : motive graph) :
    motive result := by
  induction payloads generalizing graph with
  | nil =>
    cases committed
    exact start
  | cons payload rest ih =>
    obtain ⟨after, first, remaining⟩ := commit_cons_ok.mp committed
    refine ih (fun other member => keeps other (List.mem_cons_of_mem _ member)) remaining ?_
    exact keeps payload List.mem_cons_self graph after first start

theorem commit_append_ok {more : List EventPayload} :
    commit recordedAt source (payloads ++ more) graph = .ok result ↔
      ∃ middle, commit recordedAt source payloads graph = .ok middle ∧
        commit recordedAt source more middle = .ok result := by
  induction payloads generalizing graph with
  | nil => simp
  | cons payload rest ih =>
    simp only [List.cons_append, commit_cons_ok, ih]
    constructor
    · rintro ⟨after, first, middle, second, third⟩
      exact ⟨middle, ⟨after, first, second⟩, third⟩
    · rintro ⟨middle, ⟨after, first, second⟩, third⟩
      exact ⟨after, first, middle, second, third⟩

theorem Reachable.commit (reachable : Reachable graph)
    (committed : commit recordedAt source payloads graph = .ok result) : Reachable result :=
  commit_induction (fun _ _ _ _ applied earlier => earlier.apply rfl applied) committed reachable

theorem Reachable.folded (reachable : Reachable graph) :
    Reachable ((Graph.commit recordedAt source payloads graph).toOption.getD graph) := by
  cases committed : Graph.commit recordedAt source payloads graph with
  | ok => exact reachable.commit committed
  | error => exact reachable

end Commit

/-! ### Rows through one event -/

/-- Whether an event is content on a memory, so that it moves its content watermark. -/
def touchesContent (event : Event) (id : MemoryId) : Bool :=
  match event.payload with
  | .memoryRenamed renamed .. => renamed = id
  | .memoryContentAppended appended .. => appended = id
  | _ => false

/-- Whether an event completes a description pass over a memory. Genesis
baselines every memory. -/
def completesPass (event : Event) (id : MemoryId) : Bool :=
  match event.payload with
  | .genesisCompleted => true
  | .describePassCompleted memories => id ∈ memories
  | _ => false

section Rows

variable {event : Event} {before : Graph}

theorem memoryChange_lastContentSeq (row : MemoryRow) :
    (memoryChange event before row).lastContentSeq =
      if touchesContent event row.id then event.seq else row.lastContentSeq := by
  rw [memoryChange_eq]
  unfold memoryColumns touchesContent
  cases event.payload <;> simp [eq_comm] <;> split <;> simp_all

theorem memoryChange_lastDescribedSeq_of_not_completes (row : MemoryRow)
    (open' : completesPass event row.id = false) :
    (memoryChange event before row).lastDescribedSeq = row.lastDescribedSeq := by
  rw [memoryChange_eq]
  unfold memoryColumns
  unfold completesPass at open'
  cases payload : event.payload <;> simp_all <;> split <;> simp_all

theorem memoryChange_lastDescribedSeq_of_completes (row : MemoryRow)
    (done : completesPass event row.id = true) :
    (memoryChange event before row).lastDescribedSeq = row.lastContentSeq ∨
      (memoryChange event before row).lastDescribedSeq = event.seq := by
  rw [memoryChange_eq]
  unfold memoryColumns
  unfold completesPass at done
  cases payload : event.payload <;> simp_all

theorem memoryChange_deleted (row : MemoryRow) :
    (memoryChange event before row).deleted =
      (row.deleted || decide (event.payload = .memoryDeleted row.id)) := by
  rw [memoryChange_eq]
  unfold memoryColumns
  cases event.payload with
  | memoryDeleted id =>
    by_cases here : row.id = id
    · simp [here]
    · simp [here, Ne.symm here]
  | _ => simp <;> split <;> rfl

@[simp] theorem entryChange_entryId (row : EntryRow) :
    (entryChange event before row).entryId = row.entryId := by
  unfold entryChange
  split <;> (try split) <;> rfl

@[simp] theorem entryChange_memoryId (row : EntryRow) :
    (entryChange event before row).memoryId = row.memoryId := by
  unfold entryChange
  split <;> (try split) <;> rfl

@[simp] theorem entryChange_seq (row : EntryRow) :
    (entryChange event before row).seq = row.seq := by
  unfold entryChange
  split <;> (try split) <;> rfl

theorem live_of_entryChange_live {row : EntryRow}
    (live : (entryChange event before row).supersededBy = none) : row.supersededBy = none := by
  unfold entryChange at live
  split at live <;> (try split at live) <;> first | exact live | simp [EntryRow.tombstone] at live

@[simp] theorem attestationChange_key (row : AttestationRow) :
    (attestationChange event row).key = row.key := by
  unfold attestationChange
  split
  · split <;> rfl
  · split <;> rfl
  · split
    · split <;> rfl
    · rfl

theorem attestationChange_seq (row : AttestationRow) :
    (attestationChange event row).seq = row.seq := by
  unfold attestationChange
  split
  · split <;> rfl
  · split <;> rfl
  · split
    · split <;> rfl
    · rfl

end Rows

/-! ### Positions and watermarks -/

/-- No position or watermark passes the head, and no entry's position passes the
content watermark of its memory, which exists. -/
structure Dated (graph : Graph) : Prop where
  content : ∀ row ∈ graph.memories, row.lastContentSeq ≤ graph.head
  described : ∀ row ∈ graph.memories, row.lastDescribedSeq ≤ graph.head
  attestations : ∀ row ∈ graph.attestations, row.seq ≤ graph.head
  behind : ∀ row ∈ graph.entries, ∃ memory ∈ graph.memories,
    memory.id = row.memoryId ∧ row.seq ≤ memory.lastContentSeq

theorem Dated.entries {graph : Graph} (dated : Dated graph) :
    ∀ row ∈ graph.entries, row.seq ≤ graph.head := by
  intro row member
  obtain ⟨memory, memoryMem, _, behind⟩ := dated.behind row member
  exact behind.trans (dated.content memory memoryMem)

theorem Dated.apply {event : Event} {before after : Graph} (dated : Dated before)
    (next : event.seq = before.head + 1) (applied : apply event before = .ok after) :
    Dated after where
  content := by
    intro row member
    rw [head_of_apply applied, next]
    rcases (mem_memories_apply applied).mp member with ⟨old, oldMem, rfl⟩ | created
    · rw [memoryChange_lastContentSeq]
      have bound := dated.content old oldMem
      split <;> omega
    · unfold createdMemory at created
      split at created
      · cases created
        exact next.le
      · cases created
  described := by
    intro row member
    rw [head_of_apply applied, next]
    rcases (mem_memories_apply applied).mp member with ⟨old, oldMem, rfl⟩ | created
    · have content := dated.content old oldMem
      have described := dated.described old oldMem
      cases done : completesPass event old.id with
      | false =>
        rw [memoryChange_lastDescribedSeq_of_not_completes old done]
        omega
      | true =>
        have put : (memoryChange event before old).lastDescribedSeq = old.lastContentSeq ∨
            (memoryChange event before old).lastDescribedSeq = event.seq :=
          memoryChange_lastDescribedSeq_of_completes old done
        rcases put with same | same
        · omega
        · omega
    · unfold createdMemory at created
      split at created
      · cases created
        exact Nat.zero_le _
      · cases created
  attestations := by
    intro row member
    rw [head_of_apply applied, next]
    rcases (mem_attestations_apply applied).mp member with ⟨old, oldMem, rfl⟩ | added
    · rw [attestationChange_seq]
      have bound := dated.attestations old oldMem
      omega
    · have brought := (Option.filter_eq_some_iff.mp added).1
      unfold broughtAttestation at brought
      split at brought <;> cases brought <;> exact next.le
  behind := by
    intro row member
    rcases (mem_entries_apply applied).mp member with ⟨old, oldMem, rfl⟩ | appended
    · obtain ⟨memory, memoryMem, owner, behind⟩ := dated.behind old oldMem
      refine ⟨memoryChange event before memory,
        (mem_memories_apply applied).mpr (.inl ⟨memory, memoryMem, rfl⟩), ?_, ?_⟩
      · rw [memoryChange_id, entryChange_memoryId, owner]
      · rw [entryChange_seq, memoryChange_lastContentSeq]
        have bound := dated.content memory memoryMem
        split <;> omega
    · -- the append moves its memory's watermark to itself
      obtain ⟨parent, _⟩ := appended_of_apply applied appended
      obtain ⟨memory, memoryMem, owner⟩ := Table.contains_iff.mp parent
      refine ⟨memoryChange event before memory,
        (mem_memories_apply applied).mpr (.inl ⟨memory, memoryMem, rfl⟩), ?_, ?_⟩
      · rw [memoryChange_id, owner]
      · unfold appendedRow at appended
        split at appended
        · rename_i payload
          cases appended
          have touched : touchesContent event memory.id = true := by
            simp [touchesContent, payload, owner, appendedEntry]
          rw [memoryChange_lastContentSeq, touched]
          exact le_refl _
        · cases appended

theorem Reachable.dated {graph : Graph} (reachable : Reachable graph) : Dated graph := by
  induction reachable with
  | fresh =>
    constructor <;> intro row member <;> cases member
  | apply _ next applied ih => exact ih.apply next applied

/-! ### Live entries are endorsed -/

/-- Every live entry has an endorsement that has not been withdrawn. -/
def Endorsed (graph : Graph) : Prop :=
  ∀ row ∈ graph.entries, row.supersededBy = none →
    ∃ attestation ∈ graph.attestations,
      attestation.entryId = row.entryId ∧ attestation.retractedReason = none

theorem broughtAttestation_live {event : Event} {row : AttestationRow}
    (brought : broughtAttestation event = some row) : row.retractedReason = none := by
  unfold broughtAttestation at brought
  split at brought <;> cases brought <;> rfl

theorem attestationChange_live {event : Event} {row : AttestationRow}
    (live : row.retractedReason = none)
    (whole : ∀ memory reason producedBy,
      event.payload ≠ .entryRetracted memory row.entryId reason producedBy)
    (own : ∀ memory reason producedBy,
      event.payload ≠ .attestationRetracted memory row.entryId row.teller reason producedBy) :
    (attestationChange event row).retractedReason = none := by
  unfold attestationChange
  split
  · rename_i memory entry reason producedBy payload
    have other : row.entryId ≠ entry := by
      rintro rfl
      exact whole _ _ _ payload
    simp [liveAttestationOf, other, live]
  · rename_i memory entry teller reason producedBy payload
    have other : row.key ≠ (entry, teller) := by
      rintro same
      cases same
      exact own _ _ _ payload
    rw [if_neg other]
    exact live
  · split
    · split
      · rfl
      · exact live
    · exact live

theorem Endorsed.apply {event : Event} {before after : Graph} (endorsed : Endorsed before)
    (applied : apply event before = .ok after) : Endorsed after := by
  intro row member live
  rcases (mem_entries_apply applied).mp member with ⟨old, oldMem, rfl⟩ | appended
  · have oldLive := live_of_entryChange_live live
    -- an endorsement that stays live is still of the entry
    have keeps : ∀ attestation ∈ before.attestations, attestation.entryId = old.entryId →
        (attestationChange event attestation).retractedReason = none →
        ∃ attestation ∈ after.attestations,
          attestation.entryId = (entryChange event before old).entryId ∧
            attestation.retractedReason = none := by
      intro attestation attestationMem owner stillLive
      refine ⟨_, (mem_attestations_apply applied).mpr (.inl ⟨attestation, attestationMem, rfl⟩),
        ?_, stillLive⟩
      have unchanged : (attestationChange event attestation).key = attestation.key :=
        attestationChange_key attestation
      have sameKey := congrArg Prod.fst unchanged
      rw [entryChange_entryId, ← owner]
      exact sameKey
    obtain ⟨attestation, attestationMem, owner, attestationLive⟩ := endorsed old oldMem oldLive
    cases payload : event.payload with
    | entryRetracted memory entry reason producedBy =>
      -- the retracted entry is tombstoned, so a live one is another
      have other : old.entryId ≠ entry := by
        rintro rfl
        simp [entryChange, payload, EntryRow.tombstone] at live
      refine keeps attestation attestationMem owner (attestationChange_live attestationLive ?_ ?_)
      · rintro _ _ _ same
        rw [payload] at same
        cases same
        exact other owner.symm
      · rintro _ _ _ same
        rw [payload] at same
        cases same
    | attestationRetracted memory entry teller reason producedBy =>
      have survivor : ∃ attestation ∈ before.attestations, attestation.entryId = old.entryId ∧
          attestation.retractedReason = none ∧
          ¬(attestation.entryId = entry ∧ attestation.teller = teller) := by
        by_cases here : old.entryId = entry
        · -- the entry is live afterwards, so another teller still stands behind it
          have spared : withdrawsLast before entry teller = false := by
            cases last : withdrawsLast before entry teller with
            | false => rfl
            | true => simp [entryChange, payload, here, last, EntryRow.tombstone] at live
          simp only [withdrawsLast, Bool.not_eq_false', List.any_eq_true, Bool.and_eq_true,
            liveAttestationOf, decide_eq_true_eq, Option.isNone_iff_eq_none] at spared
          obtain ⟨other, otherMem, ⟨otherOwner, otherLive⟩, otherTeller⟩ := spared
          exact ⟨other, otherMem, otherOwner.trans here.symm, otherLive,
            fun same => otherTeller same.2⟩
        · exact ⟨attestation, attestationMem, owner, attestationLive,
            fun same => here (owner.symm.trans same.1)⟩
      obtain ⟨other, otherMem, otherOwner, otherLive, spared⟩ := survivor
      refine keeps other otherMem otherOwner (attestationChange_live otherLive ?_ ?_)
      · rintro _ _ _ same
        rw [payload] at same
        cases same
      · rintro _ _ _ same
        rw [payload] at same
        cases same
        exact spared ⟨rfl, rfl⟩
    | _ =>
      refine keeps attestation attestationMem owner (attestationChange_live attestationLive ?_ ?_)
      · rintro _ _ _ same
        rw [payload] at same
        cases same
      · rintro _ _ _ same
        rw [payload] at same
        cases same
  · obtain ⟨_, _, fresh⟩ := appended_of_apply applied appended
    unfold appendedRow at appended
    split at appended
    · rename_i id entryId assertedAt occurredAt text toldBy toldIn visibility payload
      cases appended
      -- the append brings its teller's own endorsement
      let founding : AttestationRow :=
        { entryId, teller := toldBy, toldIn, assertedAt, posture := visibility, seq := event.seq }
      have added : addedAttestation event before = some founding := by
        rw [addedAttestation, broughtAttestation, payload]
        have absent : before.attestations.contains founding.key = false := fresh
        exact Option.filter_eq_some_iff.mpr ⟨rfl, by rw [absent]; rfl⟩
      exact ⟨founding, (mem_attestations_apply applied).mpr (.inr added), rfl, rfl⟩
    · cases appended

theorem Reachable.endorsed {graph : Graph} (reachable : Reachable graph) : Endorsed graph := by
  induction reachable with
  | fresh =>
    intro row member
    cases member
  | apply _ _ applied ih => exact ih.apply applied

/-! ### Endorsements are of entries that are there -/

section Attested

variable {event : Event} {before after : Graph} {recordedAt : Timestamp} {source : EventSource}
variable {payloads : List EventPayload}

theorem contains_entry_apply {entry : EntryId} (known : before.entries.contains entry = true)
    (applied : apply event before = .ok after) : after.entries.contains entry = true := by
  obtain ⟨row, member, rfl⟩ := Table.contains_iff.mp known
  exact Table.contains_iff.mpr
    ⟨_, (mem_entries_apply applied).mpr (.inl ⟨row, member, rfl⟩), by simp⟩

theorem contains_entry_commit {entry : EntryId} (known : before.entries.contains entry = true)
    (committed : commit recordedAt source payloads before = .ok after) :
    after.entries.contains entry = true :=
  commit_induction (motive := fun graph => graph.entries.contains entry = true)
    (fun _ _ _ _ applied earlier => contains_entry_apply earlier applied) committed known

@[simp] theorem attestationChange_entryId (row : AttestationRow) :
    (attestationChange event row).entryId = row.entryId :=
  congrArg Prod.fst (attestationChange_key row)

theorem attested_of_apply (applied : apply event before = .ok after)
    {brought : AttestationRow} (brings : broughtAttestation event = some brought) :
    after.entries.contains brought.entryId = true := by
  cases payload : event.payload with
  | memoryContentAppended id entryId assertedAt occurredAt text toldBy toldIn visibility =>
    simp only [broughtAttestation, payload, Option.some.injEq] at brings
    subst brings
    have appended : appendedRow event before = some (appendedEntry event before id entryId assertedAt
        occurredAt text toldBy toldIn visibility) := by
      simp only [appendedRow, payload]
    exact Table.contains_of_mem ((mem_entries_apply applied).mpr (.inr appended))
  | entryAttested =>
    simp only [broughtAttestation, payload, Option.some.injEq] at brings
    subst brings
    obtain ⟨projected, ran, rfl⟩ := apply_ok.mp applied
    simp only [project, payload, Script.run_statement, upsertAttestation_ok, attestationParents,
      Bool.and_eq_true] at ran
    obtain ⟨⟨known, _⟩, rfl⟩ := ran
    exact known
  | _ => simp [broughtAttestation, payload] at brings

theorem Reachable.attested {graph : Graph} (reachable : Reachable graph) :
    ∀ row ∈ graph.attestations, graph.entries.contains row.entryId = true := by
  induction reachable with
  | fresh =>
    intro row member
    cases member
  | apply _ _ applied ih =>
    intro row member
    rcases (mem_attestations_apply applied).mp member with ⟨old, oldMem, rfl⟩ | added
    · rw [attestationChange_entryId]
      exact contains_entry_apply (ih old oldMem) applied
    · exact attested_of_apply applied (Option.filter_eq_some_iff.mp added).1

end Attested

end Zuihitsu.Graph
