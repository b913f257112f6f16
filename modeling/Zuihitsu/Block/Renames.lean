/-
# What an accepted rename leaves a memory named

A name passes from one memory to another only by being given: whoever holds it, deleted
or not, is the memory the log named so last, and a former name leads to the memory whose
rename recorded it last. A block looks a name up among its pending names in their order
and then in the committed graph, neither of which a later pending name overtakes, and
records as the old name the one a memory had before the block renamed it. So a rename
that is accepted need not take, and need not keep what the block named the memory since.
-/

import Zuihitsu.Block.Writes
import Zuihitsu.Graph.Applicable
import Zuihitsu.Graph.Lookup
import Zuihitsu.Library.Cursor
import Mathlib.Data.List.Induction

namespace Zuihitsu

open Zuihitsu.Core Zuihitsu.Graph Zuihitsu.Library Zuihitsu.Library.Cursor Zuihitsu.MemoryBlock

namespace Graph

/-! ### Who holds a name -/

/-- The memory a rename takes a name from. -/
def shedBy (name : MemoryName) : EventPayload → Option MemoryId
  | .memoryRenamed id oldName _ => if oldName = name then some id else none
  | _ => none

section Holders

variable {event : Event} {before after graph : Graph} {log : List Event} {row : MemoryRow}
variable {payload : EventPayload} {id : MemoryId} {name : MemoryName}

theorem namedBy_eq_some : namedBy name payload = some id ↔ givesName payload = some (id, name) := by
  cases payload <;> simp [namedBy, givesName, and_comm]

theorem namedBy_of_holder (applied : apply event before = .ok after)
    (member : row ∈ after.memories) :
    namedBy row.name event.payload = some row.id ∨
      namedBy row.name event.payload = none ∧
        ∃ old ∈ before.memories, old.id = row.id ∧ old.name = row.name := by
  rcases (mem_memories_apply applied).mp member with ⟨old, stored, rfl⟩ | created
  · rw [memoryChange_id]
    rcases @memoryChange_name event before old with kept | given
    · rw [kept]
      cases gives : namedBy old.name event.payload with
      | none => exact .inr ⟨rfl, old, stored, rfl, rfl⟩
      | some =>
        -- a name that is given is held by nobody else
        have free := nameFree_of_apply applied (namedBy_eq_some.mp gives)
        rw [free old stored rfl]
        exact .inl rfl
    · exact .inl (namedBy_eq_some.mpr given)
  · exact .inl (namedBy_eq_some.mpr (createdMemory_some created).2)

theorem foldLog_concat_ok {earlier : List Event} :
    foldLog apply (earlier ++ [event]) before = .ok after ↔
      ∃ middle, foldLog apply earlier before = .ok middle ∧ apply event middle = .ok after := by
  rw [foldLog_append_ok]
  refine exists_congr fun middle => and_congr_right fun _ => ?_
  rw [foldLog_cons_ok]
  simp

theorem lastNamed_of_holder (folded : foldLog apply log Graph.fresh = .ok graph)
    (member : row ∈ graph.memories) :
    lastWord (namedBy row.name) (log.map (·.payload)) = some row.id := by
  induction log using List.reverseRecOn generalizing graph row with
  | nil =>
    cases folded
    cases member
  | append_singleton earlier event ih =>
    obtain ⟨middle, folded, applied⟩ := foldLog_concat_ok.mp folded
    rw [List.map_append, lastWord_append, List.map_singleton, lastWord_singleton]
    rcases namedBy_of_holder applied member with given | ⟨silent, old, stored, same, named⟩
    · rw [given]
      rfl
    · rw [silent, Option.none_or, ← named, ih folded stored, same]

theorem holder_unique (folded : foldLog apply log Graph.fresh = .ok graph) {other : MemoryRow}
    (member : row ∈ graph.memories) (otherMem : other ∈ graph.memories)
    (named : other.name = row.name) : other.id = row.id := by
  have last := lastNamed_of_holder folded otherMem
  rw [named, lastNamed_of_holder folded member] at last
  exact (Option.some.inj last).symm

theorem find_aliases_apply (applied : apply event before = .ok after) :
    after.aliases.find name =
      ((shedBy name event.payload).map fun id => ⟨name, id⟩).or (before.aliases.find name) := by
  obtain ⟨projected, ran, rfl⟩ := apply_ok.mp applied
  cases payload : event.payload with
  | memoryRenamed id oldName newName =>
    simp only [project, payload, Script.run_exec_ok, Script.run_statement] at ran
    obtain ⟨renamed, first, named, second, aliased, third, last⟩ := ran
    obtain ⟨_, rfl⟩ := renameMemory_ok.mp first
    cases second
    obtain ⟨_, rfl⟩ := replaceAlias_ok.mp third
    cases last
    simp only [Table.find_insertOrReplace, shedBy]
    by_cases here : oldName = name
    · simp [here]
    · simp [here]
  | _ =>
    rw [show projected.aliases = before.aliases from
      (project_frame ran).aliases (by simp [footprint, payload])]
    simp [shedBy]

theorem find_aliases_folded (folded : foldLog apply log Graph.fresh = .ok graph) :
    graph.aliases.find name =
      (lastWord (shedBy name) (log.map (·.payload))).map fun id => ⟨name, id⟩ := by
  induction log using List.reverseRecOn generalizing graph with
  | nil =>
    cases folded
    rfl
  | append_singleton earlier event ih =>
    obtain ⟨middle, folded, applied⟩ := foldLog_concat_ok.mp folded
    rw [find_aliases_apply applied, ih folded, List.map_append, lastWord_append,
      List.map_singleton, lastWord_singleton]
    cases shedBy name event.payload <;> rfl

theorem memoryIdForFormerName_eq_some (folded : foldLog apply log Graph.fresh = .ok graph) :
    graph.memoryIdForFormerName name = some id ↔
      lastWord (shedBy name) (log.map (·.payload)) = some id ∧
        (graph.liveRow id).isSome = true := by
  simp only [memoryIdForFormerName, find_aliases_folded folded, Option.bind_eq_some_iff,
    Option.map_eq_some_iff, Option.isSome_iff_exists]
  constructor
  · rintro ⟨former, ⟨holder, last, rfl⟩, row, live, rfl⟩
    have same := (liveRow_eq_some.mp live).2.1
    exact ⟨same ▸ last, row, same ▸ live⟩
  · rintro ⟨last, row, live⟩
    exact ⟨⟨name, id⟩, ⟨id, last, rfl⟩, row, live, (liveRow_eq_some.mp live).2.1⟩

@[simp] theorem payloads_stamp (position : Nat) (recordedAt : Timestamp) (source : EventSource)
    (payloads : List EventPayload) :
    (stamp position recordedAt source payloads).map (·.payload) = payloads := by
  induction payloads generalizing position with
  | nil => rfl
  | cons payload rest ih => simp [stamp, ih]

theorem exists_log_commit {recordedAt : Timestamp} {source : EventSource}
    {payloads : List EventPayload} (folded : foldLog apply log Graph.fresh = .ok before)
    (committed : commit recordedAt source payloads before = .ok after) :
    ∃ longer, foldLog apply longer Graph.fresh = .ok after ∧
      longer.map (·.payload) = log.map (·.payload) ++ payloads :=
  ⟨log ++ stamp before.head recordedAt source payloads,
    foldLog_append_ok.mpr ⟨before, folded, committed⟩, by simp⟩

end Holders

end Graph

namespace MemoryBlock

/-- A memory is live under a name, and no other live memory holds it. -/
def Bears (graph : Graph) (id : MemoryId) (name : MemoryName) : Prop :=
  (∃ row, graph.liveRow id = some row ∧ row.name = name) ∧
    ∀ other ∈ graph.memories, other.deleted = false → other.name = name → other.id = id

/-- Every name but the present one that a memory was the last to be given leads to it as a
former name. Another memory that holds a name, or that held it and shed it since, was
given it later. -/
def KeepsNames (graph : Graph) (payloads : List EventPayload) (id : MemoryId)
    (current : MemoryName) : Prop :=
  ∀ name ≠ current, lastWord (namedBy name) payloads = some id →
    graph.memoryIdForFormerName name = some id

/-- The names a rename is to leave behind are the one it records, if it records any, and
those a rename of the memory was the last to record. -/
def NamesRecorded (engine : Engine) (block : MemoryBlock) (payloads : List EventPayload) (id : MemoryId)
    (newName : MemoryName) : Prop :=
  ∀ name ≠ newName, lastWord (namedBy name) payloads = some id →
    lastWord (shedBy name) payloads = some id ∨
      resolve engine.graph block newName = none ∧ resolveName engine.graph block id = some name

/-- The block finds the new name where its events leave it: with the memory itself, which
they leave so named, or nowhere, and they leave it to nobody else, the deleted
included. -/
def FindsRight (engine : Engine) (block : MemoryBlock) (base : Graph) (id : MemoryId)
    (newName : MemoryName) : Prop :=
  ∃ row, base.liveRow id = some row ∧
    (resolve engine.graph block newName = some id ∧ row.name = newName ∨
      resolve engine.graph block newName = none ∧ NameFree base id newName)

section Rename

variable {engine : Engine} {block after : MemoryBlock} {id : MemoryId} {newName : MemoryName}
variable {recordedAt : Timestamp} {source : EventSource} {base graph : Graph} {log : List Event}
variable {payloads : List EventPayload}

theorem live_or_created {before : Graph}
    (committed : commit recordedAt source payloads before = .ok graph)
    (live : (graph.liveRow id).isSome = true) :
    (before.liveRow id).isSome = true ∨ ∃ payload ∈ payloads, createdId payload = some id := by
  induction payloads generalizing before with
  | nil =>
    cases committed
    exact .inl live
  | cons payload rest ih =>
    obtain ⟨middle, applied, remaining⟩ := commit_cons_ok.mp committed
    rcases ih remaining with stands | ⟨other, member, creates⟩
    · rw [liveRow_apply applied, Option.isSome_or, Bool.or_eq_true, Option.isSome_map] at stands
      rcases stands with kept | made
      · obtain ⟨row, found⟩ := Option.isSome_iff_exists.mp kept
        exact .inl (Option.isSome_iff_exists.mpr ⟨row, (Option.filter_eq_some_iff.mp found).1⟩)
      · obtain ⟨row, found⟩ := Option.isSome_iff_exists.mp made
        obtain ⟨created, same⟩ := Option.filter_eq_some_iff.mp found
        rw [← of_decide_eq_true same]
        exact .inr ⟨payload, List.mem_cons_self, (createdMemory_some created).1⟩
    · exact .inr ⟨other, List.mem_cons_of_mem _ member, creates⟩

theorem resolveName_ne_none
    (applies : commit recordedAt source block.buffer engine.graph = .ok base)
    (live : (base.liveRow id).isSome = true) : resolveName engine.graph block id ≠ none := by
  intro unknown
  rw [resolveName, Option.or_eq_none_iff, List.findSome?_eq_none_iff] at unknown
  obtain ⟨uncreated, absent⟩ := unknown
  rcases live_or_created applies live with stands | ⟨payload, member, creates⟩
  · obtain ⟨row, found⟩ := Option.isSome_iff_exists.mp stands
    simp [memoryById, found] at absent
  · have silent := uncreated payload member
    cases payload with
    | memoryCreated =>
      cases creates
      simp [createdName] at silent
    | _ => cases creates

theorem rename_cases (done : rename engine block id newName = .ok after) :
    resolve engine.graph block newName = some id ∧ after = block ∨
      resolve engine.graph block newName = none ∧
        (resolveName engine.graph block id = none ∧ after = block ∨
          ∃ oldName, resolveName engine.graph block id = some oldName ∧
            after = block.push (.memoryRenamed id oldName newName)) := by
  simp only [rename, bind_eq_ok, exists_checked] at done
  obtain ⟨_, done⟩ := done
  by_cases itself : resolve engine.graph block newName = some id
  · rw [if_pos itself] at done
    cases done
    exact .inl ⟨itself, rfl⟩
  · rw [if_neg itself] at done
    simp only [bind_eq_ok, exists_const, refuseIf_ok, not_not] at done
    obtain ⟨_, free, done⟩ := done
    refine .inr ⟨free, ?_⟩
    cases known : resolveName engine.graph block id with
    | none =>
      rw [known] at done
      cases done
      exact .inl ⟨rfl, rfl⟩
    | some oldName =>
      rw [known] at done
      simp only [bind_eq_ok, exists_const, refuseIf_ok] at done
      obtain ⟨_, done⟩ := done
      cases done
      exact .inr ⟨oldName, rfl, rfl⟩

theorem bears_iff (folded : foldLog apply log Graph.fresh = .ok graph) :
    Bears graph id newName ↔ ∃ row, graph.liveRow id = some row ∧ row.name = newName := by
  refine and_iff_left_of_imp ?_
  rintro ⟨row, live, named⟩ other stored _ same
  obtain ⟨member, rfl, _⟩ := liveRow_eq_some.mp live
  exact holder_unique folded member stored (same.trans named.symm)

theorem keepsNames_iff (folded : foldLog apply log Graph.fresh = .ok graph)
    (live : (graph.liveRow id).isSome = true) :
    KeepsNames graph (log.map (·.payload)) id newName ↔
      ∀ name ≠ newName, lastWord (namedBy name) (log.map (·.payload)) = some id →
        lastWord (shedBy name) (log.map (·.payload)) = some id := by
  simp only [KeepsNames, memoryIdForFormerName_eq_some folded, live, and_true]

theorem unchanged_iff (folded : foldLog apply log Graph.fresh = .ok base)
    (found : resolve engine.graph block newName = some id) :
    (Bears base id newName ∧ KeepsNames base (log.map (·.payload)) id newName) ↔
      FindsRight engine block base id newName ∧
        NamesRecorded engine block (log.map (·.payload)) id newName := by
  rw [bears_iff folded]
  simp only [FindsRight, NamesRecorded, found, reduceCtorEq, true_and, false_and, or_false]
  refine and_congr_right fun ⟨row, live, _⟩ => ?_
  exact keepsNames_iff folded (by rw [live]; rfl)

theorem recorded_concat {oldName : MemoryName} :
    (∀ name ≠ newName, lastWord (namedBy name) (payloads ++ [.memoryRenamed id oldName newName]) =
          some id →
        lastWord (shedBy name) (payloads ++ [.memoryRenamed id oldName newName]) = some id) ↔
      ∀ name ≠ newName, lastWord (namedBy name) payloads = some id →
        lastWord (shedBy name) payloads = some id ∨ oldName = name := by
  refine forall_congr' fun name => imp_congr_right fun other => ?_
  simp only [lastWord_append, lastWord_singleton, namedBy, shedBy, if_neg (Ne.symm other),
    Option.none_or]
  by_cases here : oldName = name
  · simp [here]
  · simp [here]

theorem isSome_liveRow_renamed {event : Event} {oldName : MemoryName}
    (payload : event.payload = .memoryRenamed id oldName newName)
    (applied : apply event base = .ok graph) :
    (graph.liveRow id).isSome = (base.liveRow id).isSome := by
  rw [liveRow_apply applied]
  cases base.liveRow id <;> simp [Option.filter, createdMemory, payload]

theorem exists_renamed_iff {event : Event} {oldName : MemoryName}
    (payload : event.payload = .memoryRenamed id oldName newName)
    (folded : foldLog apply log Graph.fresh = .ok base) :
    (∃ committed, apply event base = .ok committed ∧ Bears committed id newName ∧
        KeepsNames committed (log.map (·.payload) ++ [event.payload]) id newName) ↔
      (base.liveRow id).isSome = true ∧ NameFree base id newName ∧
        ∀ name ≠ newName, lastWord (namedBy name) (log.map (·.payload)) = some id →
          lastWord (shedBy name) (log.map (·.payload)) = some id ∨ oldName = name := by
  rw [← recorded_concat, ← payload]
  constructor
  · rintro ⟨committed, applied, ⟨⟨row, live, _⟩, _⟩, keeps⟩
    have stands : (committed.liveRow id).isSome = true := by rw [live]; rfl
    have joined := foldLog_concat_ok.mpr ⟨base, folded, applied⟩
    have kept := @keepsNames_iff id newName _ _ joined stands
    rw [List.map_append] at kept
    refine ⟨isSome_liveRow_renamed payload applied ▸ stands, ?_, kept.mp keeps⟩
    exact nameFree_of_apply applied (by rw [payload]; rfl)
  · rintro ⟨live, free, recorded⟩
    obtain ⟨row, found⟩ := Option.isSome_iff_exists.mp live
    obtain ⟨committed, applied⟩ :=
      exists_apply (exists_run_memoryRenamed (known_of_liveRow found) free payload)
    have joined := foldLog_concat_ok.mpr ⟨base, folded, applied⟩
    have stands : (committed.liveRow id).isSome = true := by
      rw [isSome_liveRow_renamed payload applied, live]
    have kept := @keepsNames_iff id newName _ _ joined stands
    rw [List.map_append] at kept
    refine ⟨committed, applied, (bears_iff joined).mpr ?_, kept.mpr recorded⟩
    obtain ⟨renamed, stored⟩ := Option.isSome_iff_exists.mp stands
    obtain ⟨member, rfl, _⟩ := liveRow_eq_some.mp stored
    exact ⟨renamed, stored, name_of_given applied member (by rw [payload]; rfl)⟩

/-- An accepted rename takes effect and keeps the names the memory had exactly if the block
found the new name where its events leave it, and what it was to keep is recorded. -/
theorem rename_takes_iff (folded : foldLog apply log Graph.fresh = .ok engine.graph)
    (done : rename engine block id newName = .ok after) :
    (∃ committed, commit recordedAt source after.buffer engine.graph = .ok committed ∧
        Bears committed id newName ∧
        KeepsNames committed (log.map (·.payload) ++ after.buffer) id newName) ↔
      ∃ base, commit recordedAt source block.buffer engine.graph = .ok base ∧
        FindsRight engine block base id newName ∧
        NamesRecorded engine block (log.map (·.payload) ++ block.buffer) id newName := by
  rcases rename_cases done with ⟨found, rfl⟩ | ⟨free, ⟨unknown, rfl⟩ | ⟨oldName, known, rfl⟩⟩
  · refine exists_congr fun base => and_congr_right fun applies => ?_
    obtain ⟨longer, joined, same⟩ := exists_log_commit folded applies
    rw [← same]
    exact unchanged_iff joined found
  · -- the memory is not one the block leaves live
    refine exists_congr fun base => and_congr_right fun applies => ?_
    refine iff_of_false ?_ ?_
    · rintro ⟨⟨⟨row, live, _⟩, _⟩, _⟩
      exact resolveName_ne_none applies (by rw [live]; rfl) unknown
    · rintro ⟨⟨row, live, _⟩, _⟩
      exact resolveName_ne_none applies (by rw [live]; rfl) unknown
  · simp only [push_buffer, commit_append_ok]
    constructor
    · rintro ⟨committed, ⟨base, applies, last⟩, effect⟩
      obtain ⟨next, applied, done⟩ := commit_cons_ok.mp last
      cases done
      obtain ⟨longer, joined, same⟩ := exists_log_commit folded applies
      rw [← List.append_assoc, ← same] at effect
      obtain ⟨live, unheld, recorded⟩ := (exists_renamed_iff rfl joined).mp
        ⟨committed, applied, effect⟩
      obtain ⟨row, found⟩ := Option.isSome_iff_exists.mp live
      refine ⟨base, applies, ⟨row, found, .inr ⟨free, unheld⟩⟩, ?_⟩
      rw [← same]
      intro name other given
      exact (recorded name other given).imp (fun kept => kept)
        fun shed : oldName = name => ⟨free, shed ▸ known⟩
    · rintro ⟨base, applies, ⟨row, found, held⟩, recorded⟩
      obtain ⟨longer, joined, same⟩ := exists_log_commit folded applies
      rw [← same] at recorded
      have unheld : NameFree base id newName := by
        rcases held with ⟨taken, _⟩ | ⟨_, unheld⟩
        · rw [free] at taken
          cases taken
        · exact unheld
      have left : ∀ name ≠ newName, lastWord (namedBy name) (longer.map (·.payload)) = some id →
          lastWord (shedBy name) (longer.map (·.payload)) = some id ∨ oldName = name :=
        fun name other given => (recorded name other given).imp (fun kept => kept) fun ⟨_, same⟩ =>
          Option.some.inj (known.symm.trans same)
      obtain ⟨committed, applied, effect⟩ :=
        (@exists_renamed_iff id newName base longer ⟨base.head + 1, recordedAt, source, _⟩ oldName rfl
          joined).mpr ⟨by rw [found]; rfl, unheld, left⟩
      rw [same, List.append_assoc] at effect
      exact ⟨committed, ⟨base, applies, commit_cons_ok.mpr ⟨committed, applied, rfl⟩⟩, effect⟩

end Rename

end MemoryBlock

/-! A topic is created in one block, and renamed and renamed back in the next. -/

namespace Rechristening

open MemoryBlock

def mission : MemoryId := ⟨1⟩

def log : List Event := [⟨1, ⟨0⟩, .agent, .memoryCreated mission ⟨"topic/launch"⟩⟩]

def graph : Graph := ((foldLog apply log Graph.fresh).toOption).getD Graph.fresh

def opened : MemoryBlock := .open graph .agent .agent none none [] 4000

def renamedOnce : MemoryBlock :=
  opened.push (.memoryRenamed mission ⟨"topic/launch"⟩ ⟨"topic/liftoff"⟩)

theorem graph_folded : foldLog apply log Graph.fresh = .ok graph := rfl

/-- Renaming the topic back is accepted and does nothing: it keeps the name it was given in
between. -/
theorem renamed_back :
    foldLog apply log Graph.fresh = .ok graph ∧
      rename ⟨graph, ⟨1⟩⟩ opened mission ⟨"topic/liftoff"⟩ = .ok renamedOnce ∧
      rename ⟨graph, ⟨2⟩⟩ renamedOnce mission ⟨"topic/launch"⟩ = .ok renamedOnce ∧
      ¬∃ committed, commit ⟨3⟩ .agent renamedOnce.buffer graph = .ok committed ∧
        Bears committed mission ⟨"topic/launch"⟩ ∧
        KeepsNames committed (log.map (·.payload) ++ renamedOnce.buffer) mission
          ⟨"topic/launch"⟩ := by
  refine ⟨rfl, rfl, rfl, ?_⟩
  rintro ⟨committed, done, ⟨⟨row, live, named⟩, _⟩, _⟩
  cases done
  cases live
  revert named
  decide

theorem rename_takes_back :
    (∃ committed, commit ⟨3⟩ .agent renamedOnce.buffer graph = .ok committed ∧
        Bears committed mission ⟨"topic/launch"⟩ ∧
        KeepsNames committed (log.map (·.payload) ++ renamedOnce.buffer) mission
          ⟨"topic/launch"⟩) ↔
      ∃ base, commit ⟨3⟩ .agent renamedOnce.buffer graph = .ok base ∧
        FindsRight ⟨graph, ⟨2⟩⟩ renamedOnce base mission ⟨"topic/launch"⟩ ∧
        NamesRecorded ⟨graph, ⟨2⟩⟩ renamedOnce (log.map (·.payload) ++ renamedOnce.buffer) mission
          ⟨"topic/launch"⟩ := by
  have accepted : rename ⟨graph, ⟨2⟩⟩ renamedOnce mission ⟨"topic/launch"⟩ = .ok renamedOnce := rfl
  exact @rename_takes_iff ⟨graph, ⟨2⟩⟩ renamedOnce renamedOnce mission ⟨"topic/launch"⟩ ⟨3⟩ .agent
    log graph_folded accepted

end Rechristening

end Zuihitsu
