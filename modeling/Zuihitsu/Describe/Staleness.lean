/-
# Which memories owe a description

A memory is stale while its content watermark outruns its described watermark.
Synthesis reads the public live entries of the memory's whole identity class,
and the watermark moves with the content of the memory itself, so the two can
part. The main result says when they do: an event that changes what synthesis
reads leaves a memory stale exactly when the memory was stale already or the
event is content on that very memory.
-/

import Zuihitsu.Graph.Reads
import Zuihitsu.Graph.Reachable

namespace Zuihitsu.Describe

open Zuihitsu.Core Zuihitsu.Graph Zuihitsu.Library

/-- The entries description synthesis is fed for a memory. -/
def publicEntries (graph : Graph) (id : MemoryId) : List EntryView :=
  (graph.classEntries id).filter fun entry => entry.visibility = .public

/-- Whether synthesis for a memory is fed an entry. -/
def Feeds (graph : Graph) (id : MemoryId) (entry : EntryId) : Prop :=
  ∃ view ∈ publicEntries graph id, view.entryId = entry

/-- Synthesis for a memory is fed the same entries in two graphs. -/
def SameFeed (before after : Graph) (id : MemoryId) : Prop :=
  ∀ entry, Feeds before id entry ↔ Feeds after id entry

/-- A live memory whose content outruns the pass that last considered it. -/
def Stale (graph : Graph) (id : MemoryId) : Prop := id ∈ graph.staleMemories

/-- Whether an event is content on a memory: it creates, renames or appends to it. -/
def contentOn (event : Event) (id : MemoryId) : Bool :=
  (createdMemory event).any (·.id = id) || touchesContent event id

section Rows

variable {graph before middle after final : Graph} {event : Event} {id : MemoryId}

theorem feeds_iff {entry : EntryId} :
    Feeds graph id entry ↔
      ∃ row ∈ graph.entries, row.entryId = entry ∧ graph.inClass id row.memoryId = true ∧
        row.supersededBy = none ∧ row.visibility = .public := by
  simp only [Feeds, publicEntries, classEntries, List.mem_filter, List.mem_map,
    mem_entryRowsWhere, Bool.and_eq_true, Option.isNone_iff_eq_none, decide_eq_true_eq]
  constructor
  · rintro ⟨_, ⟨⟨row, ⟨member, inClass, live⟩, rfl⟩, shown⟩, rfl⟩
    exact ⟨row, member, rfl, inClass, live, shown⟩
  · rintro ⟨row, member, rfl, inClass, live, shown⟩
    exact ⟨_, ⟨⟨row, ⟨member, inClass, live⟩, rfl⟩, shown⟩, rfl⟩

theorem stale_iff :
    Stale graph id ↔
      ∃ row, graph.liveRow id = some row ∧ row.lastDescribedSeq < row.lastContentSeq := by
  simp only [Stale, staleMemories, List.mem_map, List.mem_insertionSort, List.mem_filter,
    Bool.and_eq_true, Bool.not_eq_true', MemoryRow.stale, decide_eq_true_eq, liveRow, memoryRow,
    Option.filter_eq_some_iff, Table.find_eq_some_iff, Table.mem_def]
  constructor
  · rintro ⟨row, ⟨member, live, outrun⟩, rfl⟩
    exact ⟨row, ⟨⟨member, rfl⟩, live⟩, outrun⟩
  · rintro ⟨row, ⟨⟨member, same⟩, live⟩, outrun⟩
    exact ⟨row, ⟨member, live, outrun⟩, same⟩

theorem liveRow_of_apply (applied : apply event before = .ok after) {row : MemoryRow}
    (live : after.liveRow id = some row) :
    (∃ old, before.liveRow id = some old ∧ row = memoryChange event before old) ∨
      (before.memoryRow id = none ∧ createdMemory event = some row ∧ row.id = id) := by
  obtain ⟨found, undeleted⟩ := Option.filter_eq_some_iff.mp live
  rw [memoryRow_apply applied] at found
  cases earlier : before.memoryRow id with
  | some old =>
    rw [earlier, Option.map_some, Option.some_or, Option.some.injEq] at found
    subst found
    rw [memoryChange_deleted, Bool.not_or, Bool.and_eq_true] at undeleted
    exact .inl ⟨old, Option.filter_eq_some_iff.mpr ⟨earlier, undeleted.1⟩, rfl⟩
  | none =>
    rw [earlier, Option.map_none, Option.none_or] at found
    obtain ⟨created, same⟩ := Option.filter_eq_some_iff.mp found
    exact .inr ⟨rfl, created, by simpa using same⟩

theorem sameFeed_of_completes (applied : apply event before = .ok after)
    (completes : completesPass event id = true) : SameFeed before after id := by
  have entries : after.entries = before.entries := by
    refine (apply_frame applied).entries ?_
    unfold completesPass at completes
    split at completes <;> simp_all [footprint]
  -- a completion writes the described watermark only
  have keeps : ∀ row, (memoryChange event before row).classId = row.classId ∧
      (memoryChange event before row).deleted = row.deleted := by
    intro row
    unfold completesPass at completes
    split at completes
    · rename_i payload
      simp [memoryChange, recomputes, writesSameAs, memoryColumns, payload]
    · rename_i payload
      simp only [memoryChange, recomputes, writesSameAs, memoryColumns, payload, Bool.false_eq_true,
        if_false]
      split <;> exact ⟨rfl, rfl⟩
    · cases completes
  have created : createdMemory event = none := by
    unfold completesPass at completes
    split at completes <;> simp_all [createdMemory]
  have classes : ∀ other, after.classId other = before.classId other := by
    intro other
    simp only [Graph.classId, liveRow, memoryRow_apply applied, created, Option.filter_none,
      Option.or_none]
    cases before.memoryRow other with
    | none => rfl
    | some row => simp [Option.filter, keeps row, apply_ite]
  intro entry
  rw [feeds_iff, feeds_iff, entries]
  simp only [inClass_congr classes]

theorem stale_step_iff (dated : Dated before) (folds : Folds before event after)
    {row : MemoryRow} (live : after.liveRow id = some row)
    (pending : completesPass event id = false) :
    Stale after id ↔ Stale before id ∨ contentOn event id = true := by
  have byRow : Stale after id ↔ row.lastDescribedSeq < row.lastContentSeq := by
    rw [stale_iff, live]
    simp
  rcases liveRow_of_apply folds.2 live with ⟨old, oldLive, rfl⟩ | ⟨absent, created, same⟩
  · obtain ⟨oldFound, _⟩ := Option.filter_eq_some_iff.mp oldLive
    obtain ⟨oldMem, oldId⟩ := Table.find_eq_some_iff.mp oldFound
    have described := dated.described old oldMem
    have byOld : Stale before id ↔ old.lastDescribedSeq < old.lastContentSeq := by
      rw [stale_iff, oldLive]
      simp
    -- a memory that was there is not the one created
    have notCreated : (createdMemory event).any (·.id = id) = false := by
      cases created : createdMemory event with
      | none => rfl
      | some made =>
        have fresh := (created_of_apply folds.2 created).1
        have other : made.id ≠ id := by
          rintro rfl
          rw [← oldId, Table.contains_of_mem oldMem] at fresh
          cases fresh
        simp [other]
    rw [byRow, byOld, contentOn, notCreated, Bool.false_or, memoryChange_lastContentSeq,
      memoryChange_lastDescribedSeq_of_not_completes old (by rw [oldId]; exact pending), oldId]
    have next := folds.1
    cases touched : touchesContent event id with
    | true => simp; omega
    | false => simp
  · -- its creation is content on it, past any watermark
    have content : contentOn event id = true := by
      simp [contentOn, created, same]
    rw [byRow]
    unfold createdMemory at created
    split at created
    · cases created
      simp [content, folds.1]
    · cases created

theorem not_feeds_of_absent (absent : graph.memoryRow id = none) (entry : EntryId) :
    ¬Feeds graph id entry := by
  rw [feeds_iff]
  rintro ⟨row, _, _, inClass, _⟩
  simp [Graph.inClass, Graph.classId, liveRow, absent] at inClass

theorem live_before (applied : apply event before = .ok after) {row : MemoryRow}
    (live : after.liveRow id = some row) :
    (∃ old, before.liveRow id = some old) ∨ before.memoryRow id = none := by
  rcases liveRow_of_apply applied live with ⟨old, oldLive, _⟩ | ⟨absent, _⟩
  · exact .inl ⟨old, oldLive⟩
  · exact .inr absent

theorem live_or_absent_before {events : List Event} (run : Trace Folds before events after)
    (now : (∃ row, after.liveRow id = some row) ∨ after.memoryRow id = none) :
    (∃ row, before.liveRow id = some row) ∨ before.memoryRow id = none := by
  induction run with
  | nil => exact now
  | cons folds _ ih =>
    rcases ih now with ⟨row, live⟩ | absent
    · exact live_before folds.2 live
    · rw [memoryRow_apply folds.2] at absent
      cases earlier : Graph.memoryRow _ id with
      | none => exact .inr rfl
      | some =>
        rw [earlier] at absent
        cases absent

/-- An event that completes no pass over the memory. -/
def Pending (id : MemoryId) (event : Event) : Prop := completesPass event id = false

theorem stale_run (reachable : Reachable before) {events : List Event}
    (run : Trace Folds before events after) (pending : ∀ event ∈ events, Pending id event)
    (stale : Stale before id) {row : MemoryRow} (live : after.liveRow id = some row) :
    Stale after id := by
  induction run with
  | nil => exact stale
  | cons folds rest ih =>
    refine ih (reachable.step folds)
      (fun event member => pending event (List.mem_cons_of_mem _ member)) ?_ live
    obtain ⟨old, oldLive, _⟩ := stale_iff.mp stale
    -- it is still there after the event, and live because it is at the end
    have present := memoryRow_apply folds.2 id
    rw [(Option.filter_eq_some_iff.mp oldLive).1, Option.map_some, Option.some_or] at present
    rcases live_or_absent_before rest (.inl ⟨row, live⟩) with ⟨kept, keptLive⟩ | absent
    · exact (stale_step_iff reachable.dated folds keptLive
        (pending _ List.mem_cons_self)).mpr (.inl stale)
    · rw [present] at absent
      cases absent

/-- An event that, if it changes what synthesis for the memory is fed, finds the
memory stale or is content on it. -/
def Marks (id : MemoryId) (before : Graph) (event : Event) (after : Graph) : Prop :=
  ¬SameFeed before after id → Stale before id ∨ contentOn event id = true

theorem SameFeed.trans (first : SameFeed before middle id) (second : SameFeed middle after id) :
    SameFeed before after id := fun entry => (first entry).trans (second entry)

theorem stale_of_marked (reachable : Reachable before) {events : List Event}
    (run : Trace (fun before event after => Folds before event after ∧ Marks id before event after)
      before events after)
    (pending : ∀ event ∈ events, Pending id event) {row : MemoryRow}
    (live : after.liveRow id = some row) (changed : ¬SameFeed before after id) :
    Stale after id := by
  induction run with
  | nil => exact absurd (fun _ => Iff.rfl) changed
  | @cons before middle after event events first rest ih =>
    have laterPending : ∀ event ∈ events, Pending id event :=
      fun event member => pending event (List.mem_cons_of_mem _ member)
    have folds := rest.mono fun _ _ _ step => step.1
    -- the last event that changes the feed is the one that marks
    by_cases later : SameFeed middle after id
    · have now : ¬SameFeed before middle id := fun same => changed (same.trans later)
      rcases live_or_absent_before folds (.inl ⟨row, live⟩) with ⟨kept, keptLive⟩ | absent
      · have stale := (stale_step_iff reachable.dated first.1 keptLive
          (pending _ List.mem_cons_self)).mpr (first.2 now)
        exact stale_run (reachable.step first.1) folds laterPending stale live
      · -- a memory that does not exist yet is fed nothing on either side
        have earlier : before.memoryRow id = none := by
          rcases live_or_absent_before (.single first.1) (.inr absent) with ⟨old, oldLive⟩ | none
          · have present := memoryRow_apply first.1.2 id
            rw [(Option.filter_eq_some_iff.mp oldLive).1, Option.map_some, Option.some_or,
              absent] at present
            cases present
          · exact none
        exact absurd (fun entry => iff_of_false (not_feeds_of_absent earlier entry)
          (not_feeds_of_absent absent entry)) now
    · exact ih (reachable.step first.1) laterPending live later

end Rows

/-- Descriptions track what synthesis is fed exactly as far as the watermark
does. An event that changes the feed of a live memory leaves it stale until a
later pass over it exactly when the memory was stale already or the event is
content on the memory itself; and over a whole run in which every event is of
that kind, a memory whose feed is no longer the one at the start is stale. -/
theorem stale_iff_marked (base : Graph) (reachable : Reachable base) (id : MemoryId) :
    (∀ (after : Graph) (event : Event) (row : MemoryRow),
      Folds base event after → after.liveRow id = some row → ¬SameFeed base after id →
      ((∀ (events : List Event) (final : Graph) (last : MemoryRow),
          Trace Folds after events final → (∀ event ∈ events, Pending id event) →
          final.liveRow id = some last → Stale final id) ↔
        Stale base id ∨ contentOn event id = true)) ∧
    ∀ (final : Graph) (events : List Event) (row : MemoryRow),
      Trace (fun before event after => Folds before event after ∧ Marks id before event after)
        base events final →
      (∀ event ∈ events, Pending id event) → final.liveRow id = some row →
      ¬SameFeed base final id → Stale final id := by
  constructor
  · intro after event row folds live changed
    -- an event that changes the feed completes no pass
    have pending : completesPass event id = false := by
      cases completes : completesPass event id with
      | false => rfl
      | true => exact absurd (sameFeed_of_completes folds.2 completes) changed
    rw [← stale_step_iff reachable.dated folds live pending]
    constructor
    · intro always
      exact always [] after row (.nil after) (by simp) live
    · intro stale events final last run allPending lastLive
      exact stale_run (reachable.step folds) run allPending stale lastLive
  · intro final events row run pending live changed
    exact stale_of_marked reachable run pending live changed

/-! A described memory whose only public entry is retracted. -/

/-- The described memory. -/
def garden : MemoryId := ⟨1⟩

/-- Its public entry. -/
def rose : EntryId := ⟨2⟩

/-- The graph once the memory is created. -/
def plantedGraph : Graph :=
  ((commit ⟨0⟩ .agent [.memoryCreated garden ⟨"topic/garden"⟩] Graph.fresh).toOption).getD
    Graph.fresh

/-- The event that tells the entry. -/
def telling : Event :=
  ⟨2, ⟨0⟩, .agent, .memoryContentAppended garden rose ⟨0⟩ none "the rose is red" .agent none .public⟩

/-- The graph once the entry is told. -/
def toldGraph : Graph := ((apply telling plantedGraph).toOption).getD plantedGraph

/-- The graph once a pass described the memory from the entry. -/
def describedGraph : Graph :=
  ((commit ⟨0⟩ .orchestration
    [.memoryDescriptionRegenerated garden "A garden with a red rose." none,
      .describePassCompleted [garden]] toldGraph).toOption).getD toldGraph

/-- The retraction of the entry the description was synthesized from. -/
def retraction : Event := ⟨5, ⟨1⟩, .agent, .entryRetracted garden rose "told in error" none⟩

/-- The graph once the entry is retracted. -/
def retractedGraph : Graph := ((apply retraction describedGraph).toOption).getD describedGraph

/-- The memory's row once a public entry is told of it, and the description and
watermark a pass leaves. -/
def gardenRow (description : String) (described : Nat) : MemoryRow where
  id := garden
  name := ⟨"topic/garden"⟩
  createdAt := ⟨0⟩
  classId := garden
  description := description
  lastContentSeq := 2
  lastDescribedSeq := described

theorem plantedGraph_reachable : Reachable plantedGraph := by
  have committed : commit ⟨0⟩ .agent [.memoryCreated garden ⟨"topic/garden"⟩] Graph.fresh =
    .ok plantedGraph := rfl
  exact Reachable.fresh.commit committed

theorem telling_folds : Folds plantedGraph telling toldGraph := ⟨by decide, rfl⟩

theorem describedGraph_reachable : Reachable describedGraph := by
  have committed : commit ⟨0⟩ .orchestration
      [.memoryDescriptionRegenerated garden "A garden with a red rose." none,
        .describePassCompleted [garden]] toldGraph = .ok describedGraph := rfl
  exact (plantedGraph_reachable.step telling_folds).commit committed

theorem retraction_folds : Folds describedGraph retraction retractedGraph := ⟨by decide, rfl⟩

/-- Retracting what a description was synthesized from leaves the description fresh. -/
theorem retraction_leaves_fresh :
    Reachable describedGraph ∧ Folds describedGraph retraction retractedGraph ∧
      retractedGraph.liveRow garden = some (gardenRow "A garden with a red rose." 4) ∧
      Feeds describedGraph garden rose ∧ ¬Feeds retractedGraph garden rose ∧
      ¬Stale retractedGraph garden := by
  refine ⟨describedGraph_reachable, retraction_folds, by decide, ?_, ?_, by unfold Stale; decide⟩
  · unfold Feeds
    decide
  · unfold Feeds
    decide

/-- The telling and the retraction, as the general result decides them. -/
theorem stale_iff_marked_garden :
    ((∀ (events : List Event) (final : Graph) (last : MemoryRow),
        Trace Folds retractedGraph events final → (∀ event ∈ events, Pending garden event) →
        final.liveRow garden = some last → Stale final garden) ↔
      Stale describedGraph garden ∨ contentOn retraction garden = true) ∧
    Stale toldGraph garden := by
  have forgotten : ¬SameFeed describedGraph retractedGraph garden := by
    intro same
    have kept := (same rose).mp (by unfold Feeds; decide)
    revert kept
    unfold Feeds
    decide
  have learned : ¬SameFeed plantedGraph toldGraph garden := by
    intro same
    have kept := (same rose).mpr (by unfold Feeds; decide)
    revert kept
    unfold Feeds
    decide
  constructor
  · exact (stale_iff_marked describedGraph describedGraph_reachable garden).1 retractedGraph
      retraction (gardenRow "A garden with a red rose." 4) retraction_folds (by decide) forgotten
  · exact (stale_iff_marked plantedGraph plantedGraph_reachable garden).2 toldGraph [telling]
      (gardenRow "" 0) (.single ⟨telling_folds, fun _ => .inr (by decide)⟩)
      (by simp [Pending, completesPass, telling]) (by decide) learned

end Zuihitsu.Describe
