/-
# Looking a memory up

What a lookup by id or by name says of the stored row, and the class a lookup reads. A
memory that is not live stands for itself, so the class of a class is the class whether
its primary is live or not.
-/

import Zuihitsu.Graph.Classes
import Zuihitsu.Graph.Reads

namespace Zuihitsu.Graph

open Zuihitsu.Core Zuihitsu.Library

section Lookup

variable {graph : Graph} {id : MemoryId} {memory : MemoryView}

theorem classOf_of_live {row : MemoryRow} (live : graph.liveRow id = some row) :
    graph.classOf id = row.classId := by
  simp [classOf, classId, live]

theorem classOf_of_absent (absent : graph.liveRow id = none) :
    graph.classOf id = id := by
  simp [classOf, classId, absent]

theorem liveRow_eq_some {row : MemoryRow} :
    graph.liveRow id = some row ↔
      row ∈ graph.memories ∧ row.id = id ∧ row.deleted = false := by
  simp [liveRow, memoryRow, Option.filter_eq_some_iff, Table.find_eq_some_iff, and_assoc]

theorem liveRow_apply {event : Event} {before after : Graph} (applied : apply event before = .ok after)
    (id : MemoryId) :
    after.liveRow id =
      (((before.liveRow id).filter fun _ => event.payload ≠ .memoryDeleted id).map
        (memoryChange event before)).or
          ((createdMemory event).filter fun row => row.id = id) := by
  have created : ∀ row, createdMemory event = some row → row.deleted = false := by
    intro row made
    unfold createdMemory at made
    split at made <;> cases made
    rfl
  rw [liveRow, memoryRow_apply applied, liveRow]
  cases stored : before.memoryRow id with
  | none =>
    cases made : createdMemory event with
    | none => rfl
    | some row =>
      by_cases same : row.id = id
      · simp [Option.filter, same, created row made]
      · simp [Option.filter, same]
  | some row =>
    have named : row.id = id := (Table.find_eq_some_iff.mp stored).2
    have nothing : ((createdMemory event).filter fun row => row.id = id) = none := by
      rw [Option.filter_eq_none_iff]
      intro other made
      have fresh := (created_of_apply applied made).1
      intro same
      rw [of_decide_eq_true same] at fresh
      have there : before.memories.contains id = true := by
        rw [← named]
        exact Table.contains_of_mem (Table.find_eq_some_iff.mp stored).1
      rw [there] at fresh
      cases fresh
    rw [nothing, Option.map_some, Option.some_or, Option.or_none]
    cases deleted : row.deleted <;> by_cases dies : event.payload = .memoryDeleted id <;>
      simp [Option.filter, memoryChange_deleted, deleted, named, dies]

theorem memoryById_id (found : graph.memoryById id = some memory) : memory.id = id := by
  obtain ⟨row, live, rfl⟩ := Option.map_eq_some_iff.mp found
  exact (liveRow_eq_some.mp live).2.1

theorem row_of_memoryById (found : graph.memoryById id = some memory) :
    ∃ row, graph.liveRow id = some row ∧ row.name = memory.name := by
  obtain ⟨row, live, rfl⟩ := Option.map_eq_some_iff.mp found
  exact ⟨row, live, rfl⟩

theorem known_of_liveRow {row : MemoryRow} (found : graph.liveRow id = some row) :
    graph.memories.contains id = true := by
  have stored := (Option.filter_eq_some_iff.mp found).1
  exact Table.contains_iff.mpr ⟨row, Table.find_eq_some_iff.mp stored⟩

theorem known_of_memoryById (found : graph.memoryById id = some memory) :
    graph.memories.contains id = true := by
  obtain ⟨row, live, _⟩ := Option.map_eq_some_iff.mp found
  exact known_of_liveRow live

theorem known_of_memoryByName {name : MemoryName}
    (found : graph.memoryByName name = some memory) :
    graph.memories.contains memory.id = true := by
  obtain ⟨row, read, rfl⟩ := Option.map_eq_some_iff.mp found
  exact Table.contains_of_mem (List.mem_of_find?_eq_some read)

theorem classId_of_live (live : (graph.memoryById id).isSome = true) :
    graph.classId id = some (graph.classOf id) := by
  obtain ⟨memory, found⟩ := Option.isSome_iff_exists.mp live
  obtain ⟨row, stands, _⟩ := row_of_memoryById found
  simp [classOf, classId, stands]

theorem classOf_of_inClass {member : MemoryId} (within : graph.inClass id member = true) :
    graph.classOf member = graph.classOf id := by
  obtain ⟨primary, one, other⟩ := inClass_iff.mp within
  rw [classOf, classOf, one, other, Option.getD_some, Option.getD_some]

theorem classOf_idem (reachable : Reachable graph) (id : MemoryId) :
    graph.classOf (graph.classOf id) = graph.classOf id := by
  cases live : graph.liveRow id with
  | none => rw [classOf_of_absent live, classOf_of_absent live]
  | some =>
    obtain ⟨member, _, _⟩ := liveRow_eq_some.mp live
    obtain ⟨best, bestMem, named, connected, _⟩ := reachable.classed.best member
    rw [classOf_of_live live, ← named]
    cases primary : graph.liveRow best.id with
    | none => exact classOf_of_absent primary
    | some =>
      obtain ⟨otherMem, same, _⟩ := liveRow_eq_some.mp primary
      obtain rfl := Table.eq_of_key_eq otherMem bestMem same
      rw [classOf_of_live primary, (reachable.classed.classId_eq_iff otherMem member).mpr connected,
        named]

end Lookup

end Zuihitsu.Graph
