/-
# Graphs that differ in hidden entries

Two graphs may have the same memories, links and vocabulary and differ only in entries that
may not surface to an audience. Then the entries that do surface are found alike in both,
by their class as by their id.
-/

import Zuihitsu.Brief.Alike

namespace Zuihitsu

open Zuihitsu.Core Zuihitsu.Graph Zuihitsu.Library

/-- Two graphs that differ only in entries that may not surface to an audience. -/
structure DifferHidden (presentSet : List MemoryId) (first second : Graph) : Prop extends
    SameWorld first second where
  links : first.links = second.links
  entries : shownEntries first presentSet = shownEntries second presentSet

section Differing

variable {graph first second : Graph} {presentSet : List MemoryId}

theorem DifferHidden.symm (differ : DifferHidden presentSet first second) :
    DifferHidden presentSet second first where
  memory id := (differ.memory id).symm
  named name := (differ.named name).symm
  identity id := (differ.identity id).symm
  vocabulary label := (differ.vocabulary label).symm
  room conversation := (differ.room conversation).symm
  links := differ.links.symm
  entries := differ.entries.symm

theorem DifferHidden.shown_eq (differ : DifferHidden presentSet first second) {memory : MemoryView}
    (found : first.memoryById memory.id = some memory) :
    (first.classEntries memory.id).filter (entryShown first presentSet memory) =
      (second.classEntries memory.id).filter (entryShown second presentSet memory) := by
  rw [shown_classEntries found, shown_classEntries (differ.memory memory.id ▸ found),
    differ.entries, differ.inClass_eq, differ.entryShown_eq]

end Differing

end Zuihitsu
