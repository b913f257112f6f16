/-
# How entries leave the live surfaces

An entry is retired by being superseded, consolidated or retracted, and by the
withdrawal of the last endorsement that stands on it. Nothing brings it back, so
one event's effect on what is live is read off the event and off what stands
before it.
-/

import Zuihitsu.Block.Standing

namespace Zuihitsu

open Zuihitsu.Core Zuihitsu.Graph Zuihitsu.Library

namespace Graph

/-- Only one teller, if any, stands behind an entry. -/
def StandsAlone (graph : Graph) (entry : EntryId) (teller : Teller) : Prop :=
  ∀ other posture, graph.standing entry other = some posture → other = teller

/-- An event that takes a live entry off the live surfaces. -/
def Retires (graph : Graph) (entry : EntryId) : EventPayload → Prop
  | .memorySuperseded _ old _ => old = entry
  | .entriesConsolidated _ sources _ _ => entry ∈ sources
  | .entryRetracted _ retracted _ _ => retracted = entry
  | .attestationRetracted _ attested teller _ _ =>
    attested = entry ∧ StandsAlone graph entry teller
  | _ => False

section Liveness

variable {event : Event} {before after : Graph} {entry : EntryId}

theorem withdrawsLast_iff {teller : Teller} :
    withdrawsLast before entry teller = true ↔ StandsAlone before entry teller := by
  simp only [withdrawsLast, Bool.not_eq_true', StandsAlone, standing_eq_some]
  rw [← Bool.not_eq_true, List.any_eq_true]
  constructor
  · intro last other posture stands
    obtain ⟨row, member, key, live, _⟩ := stands
    obtain ⟨owner, by'⟩ := Prod.mk.inj key
    by_contra different
    refine last ⟨row, member, ?_⟩
    simp [liveAttestationOf, owner, live, by', different]
  · rintro alone ⟨row, member, matches'⟩
    simp only [liveAttestationOf, Bool.and_eq_true, decide_eq_true_eq,
      Option.isNone_iff_eq_none] at matches'
    obtain ⟨⟨owner, live⟩, different⟩ := matches'
    exact different (alone row.teller row.posture
      ⟨row, member, by rw [AttestationRow.key, owner], live, rfl⟩)

theorem entryChange_live_iff {row : EntryRow} (live : row.supersededBy = none) :
    (entryChange event before row).supersededBy = none ↔
      ¬Retires before row.entryId event.payload := by
  cases payload : event.payload with
  | memorySuperseded id old successor =>
    simp only [entryChange, payload, Retires]
    split
    · rename_i same
      simp [same]
    · rename_i other
      simp [live, Ne.symm other]
  | entriesConsolidated id sources replacement producedBy =>
    simp only [entryChange, payload, Retires]
    split
    · rename_i member
      simp [member]
    · rename_i other
      simp [live, other]
  | entryRetracted memory retracted reason producedBy =>
    simp only [entryChange, payload, Retires]
    split
    · rename_i same
      simp [EntryRow.tombstone, same]
    · rename_i other
      simp [live, Ne.symm other]
  | attestationRetracted memory attested teller reason producedBy =>
    simp only [entryChange, payload, Retires]
    split
    · rename_i last
      obtain ⟨rfl, last⟩ := last
      simp [EntryRow.tombstone, withdrawsLast_iff.mp last]
    · rename_i kept
      refine iff_of_true live ?_
      rintro ⟨rfl, alone⟩
      exact kept ⟨rfl, withdrawsLast_iff.mpr alone⟩
  | _ =>
    simp only [entryChange, payload, Retires, not_false_eq_true, iff_true]
    first | exact live | (split <;> exact live)

/-- The entry an event appends. -/
def appended : EventPayload → Option EntryId
  | .memoryContentAppended _ entry .. => some entry
  | _ => none

theorem appendedRow_entryId {row : EntryRow} (appends : appendedRow event before = some row) :
    appended event.payload = some row.entryId := by
  unfold appendedRow at appends
  split at appends
  · rename_i payload
    cases appends
    simp [appended, payload, appendedEntry]
  · cases appends

theorem exists_appendedRow (appends : appended event.payload = some entry) :
    ∃ row, appendedRow event before = some row ∧ row.entryId = entry := by
  unfold appended at appends
  split at appends
  · rename_i payload
    cases appends
    exact ⟨_, by simp only [appendedRow, payload]; rfl, rfl⟩
  · cases appends

theorem absent_of_appended (applied : apply event before = .ok after)
    (appends : appended event.payload = some entry) : before.entries.contains entry = false := by
  obtain ⟨row, inserted, rfl⟩ := @exists_appendedRow event before entry appends
  exact (appended_of_apply applied inserted).2.1

theorem appendedRow_live {row : EntryRow} (appends : appendedRow event before = some row) :
    row.supersededBy = none := by
  unfold appendedRow at appends
  split at appends
  · cases appends
    rfl
  · cases appends

theorem isLive_apply_iff (applied : apply event before = .ok after) :
    IsLive after entry ↔
      (IsLive before entry ∧ ¬Retires before entry event.payload) ∨
        appended event.payload = some entry := by
  constructor
  · rintro ⟨row, member, rfl, live⟩
    rcases (mem_entries_apply applied).mp member with ⟨old, oldMem, rfl⟩ | appends
    · have oldLive := live_of_entryChange_live live
      rw [entryChange_entryId]
      exact .inl ⟨⟨old, oldMem, rfl, oldLive⟩, (entryChange_live_iff oldLive).mp live⟩
    · exact .inr (appendedRow_entryId appends)
  · rintro (⟨⟨row, member, rfl, live⟩, kept⟩ | appends)
    · exact ⟨_, (mem_entries_apply applied).mpr (.inl ⟨row, member, rfl⟩), entryChange_entryId row,
        (entryChange_live_iff live).mpr kept⟩
    · obtain ⟨row, inserted, rfl⟩ := @exists_appendedRow event before entry appends
      exact ⟨row, (mem_entries_apply applied).mpr (.inr inserted), rfl, appendedRow_live inserted⟩

/-! ### Reasons -/

/-- Every entry that carries the reason of a retraction is off the live surfaces. -/
def Withdrawn (graph : Graph) : Prop :=
  ∀ row ∈ graph.entries, row.retractedReason ≠ none → row.supersededBy ≠ none

theorem entryChange_withdrawn {row : EntryRow}
    (kept : row.retractedReason ≠ none → row.supersededBy ≠ none) :
    (entryChange event before row).retractedReason ≠ none →
      (entryChange event before row).supersededBy ≠ none := by
  have retired : ∀ successor : EntryId, some successor ≠ none := fun _ => Option.some_ne_none _
  -- the four events that retire an entry come first in the row function
  unfold entryChange
  split
  · split
    · exact fun _ => retired _
    · exact kept
  · split
    · exact fun _ => retired _
    · exact kept
  · split
    · exact fun _ => retired _
    · exact kept
  · split
    · exact fun _ => retired _
    · exact kept
  · split <;> exact kept
  · split <;> exact kept
  · split <;> exact kept
  · split <;> exact kept
  · exact kept

theorem Withdrawn.apply (withdrawn : Withdrawn before) (applied : Graph.apply event before = .ok after) :
    Withdrawn after := by
  intro row member
  rcases (mem_entries_apply applied).mp member with ⟨old, among, rfl⟩ | appends
  · exact entryChange_withdrawn (withdrawn old among)
  · intro reason
    unfold appendedRow at appends
    split at appends
    · cases appends
      exact absurd rfl reason
    · cases appends

end Liveness

/-- In every graph a log folds to, each live entry has an endorsement that has not been withdrawn,
and each entry retracted for a reason is not live; and whatever is folded after keeps both. -/
theorem live_endorsed (log : List Event) (graph : Graph)
    (folded : foldLog Graph.apply log Graph.fresh = .ok graph) :
    (Endorsed graph ∧ Withdrawn graph) ∧
      ∀ event after, Graph.apply event graph = .ok after → Endorsed after ∧ Withdrawn after := by
  have keeps : ∀ event before after, Graph.apply event before = .ok after →
      Endorsed before ∧ Withdrawn before → Endorsed after ∧ Withdrawn after :=
    fun event before after applied both => ⟨both.1.apply applied, both.2.apply applied⟩
  have start : Endorsed Graph.fresh ∧ Withdrawn Graph.fresh :=
    ⟨by rintro row ⟨⟩, by rintro row ⟨⟩⟩
  have holds : Endorsed graph ∧ Withdrawn graph := by
    -- by induction on the log, from any graph that has both
    generalize Graph.fresh = first at folded start
    induction log generalizing first with
    | nil =>
      cases folded
      exact start
    | cons event rest ih =>
      obtain ⟨middle, applied, remaining⟩ := foldLog_cons_ok.mp folded
      exact ih middle remaining (keeps event first middle applied start)
  exact ⟨holds, fun event after applied => keeps event graph after applied holds⟩

/-! Two tellers stand behind an entry; the first withdraws and is attested again, then both
withdraw. -/

namespace TwoTellers

def memory : EventPayload := .memoryCreated ⟨1⟩ ⟨"topic/tea"⟩
def first : EventPayload := .memoryContentAppended ⟨1⟩ ⟨2⟩ ⟨0⟩ none "green" .agent none .public
def second : EventPayload :=
  .entryAttested ⟨1⟩ ⟨2⟩ (.participant ⟨1⟩) none ⟨0⟩ .public none none none
def again : EventPayload := .entryAttested ⟨1⟩ ⟨2⟩ .agent none ⟨0⟩ .public none none none
def withdraws (teller : Teller) : EventPayload := .attestationRetracted ⟨1⟩ ⟨2⟩ teller "wrong" none

def log : List Event :=
  stamp 0 ⟨0⟩ .agent [memory, first, second, withdraws .agent, again, withdraws .agent]

def shown : Graph := ((foldLog Graph.apply log Graph.fresh).toOption).getD Graph.fresh

/-- One teller stands; once that one withdraws the entry is retired. -/
theorem stands_on_one : Endorsed shown ∧ Withdrawn shown ∧ shown.entries.rows.any
    (fun row => row.supersededBy.isNone) = true := by
  have holds := live_endorsed log shown rfl
  exact ⟨holds.1.1, holds.1.2, by decide⟩

end TwoTellers

end Graph

end Zuihitsu
