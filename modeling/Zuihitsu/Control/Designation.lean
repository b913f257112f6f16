/-
# Designating a primary

An identity class is named after its earliest designated member, deleted ones included. The
control surface designates a memory and leaves the other designations as they are; the command
releases the other live members in the same batch. Either way the class is named after the
memory exactly where no earlier member stays designated; and a release names it after the
earliest member that does, or after the earliest of all.
-/

import Zuihitsu.Block.State
import Zuihitsu.Graph.Applicable
import Zuihitsu.Graph.Classes

namespace Zuihitsu.Control

open Zuihitsu.Core Zuihitsu.Graph Zuihitsu.Library

/-! ### The two ways -/

/-- What came of a designation. -/
inductive DesignateOutcome where
  | designated
  | unknownMemory (memory : MemoryId)
  deriving DecidableEq, Repr

/-- Designate a primary, or release it, from the control surface. -/
def designatePrimary (graph : Graph) (now : Timestamp) (memory : MemoryId) (designated : Bool) :
    Except Violation (DesignateOutcome × Graph) :=
  if (graph.memoryById memory).isNone then .ok (.unknownMemory memory, graph)
  else
    (Graph.commit now .operator [.classPrimaryDesignated memory designated] graph).map
      fun after => (.designated, after)

namespace Command

/-- Whether a live memory is designated. -/
def isPrimaryDesignated (graph : Graph) (id : MemoryId) : Bool :=
  (graph.liveRow id).any (·.designatedPrimary)

/-- The other designated members of a memory's class. -/
def incumbents (graph : Graph) (memory : MemoryId) : List MemoryId :=
  (graph.classMembers memory).filter fun member =>
    member ≠ memory && isPrimaryDesignated graph member

/-- What the command appends. -/
def payloads (graph : Graph) (memory : MemoryId) (release : Bool) : List EventPayload :=
  if release then
    if isPrimaryDesignated graph memory then [.classPrimaryDesignated memory false] else []
  else
    let released := (incumbents graph memory).map (EventPayload.classPrimaryDesignated · false)
    -- the sole designated member is left as it is
    if isPrimaryDesignated graph memory && released.isEmpty then []
    else released ++ [.classPrimaryDesignated memory true]

/-- Designate a primary, or release it, from the command line. -/
def designatePrimary (graph : Graph) (now : Timestamp) (memory : MemoryId) (release : Bool) :
    Except Violation Graph :=
  Graph.commit now .operator (payloads graph memory release) graph

end Command

/-! ### What a designation changes -/

/-- The memories that are designated, deleted ones included. -/
def pinned (graph : Graph) : Set MemoryId :=
  {id | ∃ row ∈ graph.memories, row.id = id ∧ row.designatedPrimary = true}

section Designations

variable {graph before after : Graph} {event : Event} {memory other id : MemoryId}
variable {designated : Bool} {now : Timestamp}

theorem mem_designatedIn :
    other ∈ designatedIn graph id ↔ other ∈ component graph id ∧ other ∈ pinned graph := Iff.rfl

theorem mem_pinned_apply (applied : Graph.apply event before = .ok after)
    (payload : event.payload = .classPrimaryDesignated memory designated) :
    other ∈ pinned after ↔
      (other ∈ pinned before ∧ other ≠ memory) ∨
        (other = memory ∧ designated = true ∧ before.memories.contains memory = true) := by
  have uncreated : createdMemory event = none := by simp [createdMemory, payload]
  have flag : ∀ row : MemoryRow, (memoryChange event before row).designatedPrimary =
      if row.id = memory then designated else row.designatedPrimary := by
    intro row
    rw [memoryChange_eq]
    simp only [memoryColumns, payload]
    split <;> rfl
  constructor
  · rintro ⟨row, member, rfl, chosen⟩
    rcases (mem_memories_apply applied).mp member with ⟨old, oldMem, rfl⟩ | created
    · rw [memoryChange_id]
      rw [flag] at chosen
      by_cases here : old.id = memory
      · rw [if_pos here] at chosen
        exact .inr ⟨here, chosen, here ▸ Table.contains_of_mem oldMem⟩
      · rw [if_neg here] at chosen
        exact .inl ⟨⟨old, oldMem, rfl, chosen⟩, here⟩
    · cases uncreated.symm.trans created
  · rintro (⟨⟨old, oldMem, rfl, chosen⟩, elsewhere⟩ | ⟨rfl, rfl, known⟩)
    · refine ⟨_, (mem_memories_apply applied).mpr (.inl ⟨old, oldMem, rfl⟩), memoryChange_id _ _ _, ?_⟩
      rw [flag, if_neg elsewhere]
      exact chosen
    · obtain ⟨old, oldMem, rfl⟩ := Table.contains_iff.mp known
      refine ⟨_, (mem_memories_apply applied).mpr (.inl ⟨old, oldMem, rfl⟩), memoryChange_id _ _ _, ?_⟩
      rw [flag, if_pos rfl]

theorem component_apply (applied : Graph.apply event before = .ok after)
    (payload : event.payload = .classPrimaryDesignated memory designated) (id : MemoryId) :
    component after id = component before id := by
  have edges : sameAsEdges after = sameAsEdges before := by
    rw [sameAsEdges_eq, sameAsEdges_eq, apply_links applied]
    simp [linksAfter, payload]
  have known : ∀ other, after.memories.contains other = before.memories.contains other := by
    intro other
    have uncreated : createdMemory event = none := by simp [createdMemory, payload]
    rw [Bool.eq_iff_iff, Table.contains_iff, Table.contains_iff]
    constructor
    · rintro ⟨row, member, rfl⟩
      rcases (mem_memories_apply applied).mp member with ⟨old, oldMem, rfl⟩ | created
      · exact ⟨old, oldMem, (memoryChange_id _ _ _).symm⟩
      · cases uncreated.symm.trans created
    · rintro ⟨old, oldMem, rfl⟩
      exact ⟨_, (mem_memories_apply applied).mpr (.inl ⟨old, oldMem, rfl⟩), memoryChange_id _ _ _⟩
  simp only [component, edges, known]

theorem releases_commit {released : List MemoryId}
    (committed : Graph.commit now .operator (released.map (EventPayload.classPrimaryDesignated · false))
      before = .ok after) :
    (∀ other, other ∈ pinned after ↔ other ∈ pinned before ∧ other ∉ released) ∧
      ∀ id, component after id = component before id := by
  induction released generalizing before with
  | nil =>
    cases committed
    simp
  | cons first rest ih =>
    obtain ⟨middle, applied, remaining⟩ := commit_cons_ok.mp committed
    obtain ⟨pins, components⟩ := ih remaining
    refine ⟨fun other => ?_, fun id => (components id).trans (component_apply applied rfl id)⟩
    rw [pins, mem_pinned_apply applied rfl]
    simp [and_assoc]

theorem designation_commit (known : before.memories.contains memory = true)
    (committed : Graph.commit now .operator [.classPrimaryDesignated memory designated] before = .ok after) :
    (∀ other, other ∈ pinned after ↔
      (other ∈ pinned before ∧ other ≠ memory) ∨ (other = memory ∧ designated = true)) ∧
      ∀ id, component after id = component before id := by
  obtain ⟨middle, applied, nothing⟩ := commit_cons_ok.mp committed
  cases nothing
  refine ⟨fun other => ?_, component_apply applied rfl⟩
  rw [mem_pinned_apply applied rfl, known]
  simp

theorem exists_commit_designations {events : List EventPayload} (reachable : Reachable before)
    (each : ∀ payload ∈ events, designatesPrimary payload = true) :
    ∃ after, Graph.commit now .operator events before = .ok after := by
  induction events generalizing before with
  | nil => exact ⟨before, rfl⟩
  | cons payload rest ih =>
    have applicable : Applicable before payload := by
      cases payload with
      | classPrimaryDesignated => trivial
      | _ => cases each _ List.mem_cons_self
    obtain ⟨middle, applied⟩ := @apply_of_applicable
      ⟨before.head + 1, now, .operator, payload⟩ before reachable.attested applicable
    obtain ⟨after, remaining⟩ := ih (reachable.apply rfl applied)
      fun other member => each other (List.mem_cons_of_mem _ member)
    exact ⟨after, commit_cons_ok.mpr ⟨middle, applied, remaining⟩⟩

/-! ### What the classes are named after -/

/-- Every member of a memory's class has the class of a name. -/
def Named (graph : Graph) (memory name : MemoryId) : Prop :=
  ∀ row ∈ graph.memories, row.id ∈ component graph memory → row.classId = name

theorem component_of_mem (member : other ∈ component graph id) :
    component graph other = component graph id := by
  obtain ⟨_, connected⟩ := member
  ext one
  exact and_congr_right fun _ => ⟨fun here => here.trans _ _ _ connected,
    fun here => here.trans _ _ _ (connected.symm)⟩

theorem designatedIn_of_mem (member : other ∈ component graph id) :
    designatedIn graph other = designatedIn graph id := by
  ext one
  rw [mem_designatedIn, mem_designatedIn, component_of_mem member]

theorem self_mem_component (known : graph.memories.contains memory = true) :
    memory ∈ component graph memory := ⟨known, Relation.EqvGen.refl _⟩

theorem named_iff (reachable : Reachable graph) (known : graph.memories.contains memory = true)
    (chosen : memory ∈ designatedIn graph memory) :
    Named graph memory memory ↔ ∀ other ∈ designatedIn graph memory, memory ≤ other := by
  have classes := classes_are_components reachable
  constructor
  · intro named other designates
    obtain ⟨row, member, rfl⟩ := Table.contains_iff.mp known
    have least := classes.designated row member ⟨_, chosen⟩
    rw [named row member (self_mem_component known)] at least
    exact least.2 designates
  · intro least row member inside
    have named := classes.designated row member ⟨memory, by rwa [designatedIn_of_mem inside]⟩
    rw [designatedIn_of_mem inside] at named
    have before := MemoryId.le_def.mp (named.2 chosen)
    have after := MemoryId.le_def.mp (least _ named.1)
    exact congrArg MemoryId.mk (le_antisymm before after)

/-- Every member of a memory's class has the class named after the earliest of some members, or of
all where there are none. -/
def NamedAfter (graph : Graph) (memory : MemoryId) (members : Set MemoryId) : Prop :=
  ∀ row ∈ graph.memories, row.id ∈ component graph memory →
    (members.Nonempty → IsLeast members row.classId) ∧
      (¬members.Nonempty → IsLeast (component graph memory) row.classId)

theorem namedAfter_designatedIn (reachable : Reachable graph) :
    NamedAfter graph memory (designatedIn graph memory) := by
  intro row member inside
  have classes := classes_are_components reachable
  constructor
  · intro chosen
    have least := classes.designated row member
    rw [designatedIn_of_mem inside] at least
    exact least chosen
  · intro unchosen
    have least := classes.earliest row member
    rw [designatedIn_of_mem inside, component_of_mem inside] at least
    exact least unchosen

theorem mem_classMembers_iff (reachable : Reachable graph)
    (live : (graph.liveRow memory).isSome = true) :
    other ∈ graph.classMembers memory ↔
      (graph.liveRow other).isSome = true ∧ other ∈ component graph memory := by
  have stored : ∀ {id : MemoryId} {row : MemoryRow}, graph.liveRow id = some row →
      row ∈ graph.memories ∧ row.id = id := fun found =>
    Table.find_eq_some_iff.mp (Option.filter_eq_some_iff.mp found).1
  obtain ⟨row, found⟩ := Option.isSome_iff_exists.mp live
  obtain ⟨member, rfl⟩ := stored found
  rw [mem_classMembers, inClass_iff]
  constructor
  · rintro ⟨primary, mine, theirs⟩
    obtain ⟨own, here, named⟩ := Option.map_eq_some_iff.mp theirs
    obtain ⟨ownMem, rfl⟩ := stored here
    cases Option.some.inj (found.symm.trans found)
    have same : own.classId = row.classId := by
      rw [named]
      simpa [classId, found, eq_comm] using mine
    exact ⟨by rw [here]; rfl, Table.contains_of_mem ownMem,
      (reachable.classed.classId_eq_iff ownMem member).mp same⟩
  · rintro ⟨alive, _, connected⟩
    obtain ⟨own, here⟩ := Option.isSome_iff_exists.mp alive
    obtain ⟨ownMem, rfl⟩ := stored here
    have same := (reachable.classed.classId_eq_iff ownMem member).mpr connected
    exact ⟨row.classId, by simp [classId, found], by simp [classId, here, same]⟩

/-! ### What the two ways leave -/

theorem isPrimaryDesignated_iff :
    Command.isPrimaryDesignated graph id = true ↔
      (graph.liveRow id).isSome = true ∧ id ∈ pinned graph := by
  unfold Command.isPrimaryDesignated
  cases found : graph.liveRow id with
  | none => simp
  | some row =>
    obtain ⟨member, rfl⟩ := Table.find_eq_some_iff.mp (Option.filter_eq_some_iff.mp found).1
    simp only [Option.any_some, Option.isSome_some, true_and]
    constructor
    · exact fun chosen => ⟨row, member, rfl, chosen⟩
    · rintro ⟨other, otherMem, same, chosen⟩
      rwa [Table.eq_of_key_eq otherMem member same] at chosen

theorem known_of_live (live : (graph.liveRow memory).isSome = true) :
    graph.memories.contains memory = true := by
  obtain ⟨row, found⟩ := Option.isSome_iff_exists.mp live
  obtain ⟨member, rfl⟩ := Table.find_eq_some_iff.mp (Option.filter_eq_some_iff.mp found).1
  exact Table.contains_of_mem member

theorem designatePrimary_iff (live : (graph.liveRow memory).isSome = true) :
    designatePrimary graph now memory designated = .ok (.designated, after) ↔
      Graph.commit now .operator [.classPrimaryDesignated memory designated] graph = .ok after := by
  have found : (graph.memoryById memory).isNone = false := by
    rw [Graph.memoryById, Option.isNone_map]
    simpa using live
  unfold designatePrimary
  rw [found]
  cases Graph.commit now .operator [.classPrimaryDesignated memory designated] graph <;>
    simp [Except.map]

theorem designatedIn_designatePrimary (live : (graph.liveRow memory).isSome = true)
    (done : designatePrimary graph now memory true = .ok (.designated, after)) :
    component after memory = component graph memory ∧
      designatedIn after memory = insert memory (designatedIn graph memory) := by
  have known := known_of_live live
  obtain ⟨pins, components⟩ := designation_commit known ((designatePrimary_iff live).mp done)
  refine ⟨components memory, ?_⟩
  ext other
  rw [Set.mem_insert_iff, mem_designatedIn, mem_designatedIn, components, pins]
  have own := self_mem_component known
  by_cases same : other = memory
  · simp [same, own]
  · simp [same]

theorem designatedIn_release (live : (graph.liveRow memory).isSome = true)
    (done : designatePrimary graph now memory false = .ok (.designated, after) ∨
      Command.designatePrimary graph now memory true = .ok after) :
    component after memory = component graph memory ∧
      designatedIn after memory = designatedIn graph memory \ {memory} := by
  have known := known_of_live live
  have once : Graph.commit now .operator [.classPrimaryDesignated memory false] graph = .ok after →
      component after memory = component graph memory ∧
        designatedIn after memory = designatedIn graph memory \ {memory} := by
    intro committed
    obtain ⟨pins, components⟩ := designation_commit known committed
    refine ⟨components memory, ?_⟩
    ext other
    rw [Set.mem_sdiff, Set.mem_singleton_iff, mem_designatedIn, mem_designatedIn, components, pins]
    simp [and_assoc]
  rcases done with surface | command
  · exact once ((designatePrimary_iff live).mp surface)
  · unfold Command.designatePrimary Command.payloads at command
    rw [if_pos rfl] at command
    split at command
    · exact once command
    · rename_i undesignated
      cases command
      refine ⟨rfl, ?_⟩
      have absent : memory ∉ designatedIn graph memory := fun inside =>
        undesignated (isPrimaryDesignated_iff.mpr ⟨live, (mem_designatedIn.mp inside).2⟩)
      exact (Set.sdiff_singleton_eq_self absent).symm

theorem mem_incumbents (reachable : Reachable graph) (live : (graph.liveRow memory).isSome = true) :
    other ∈ Command.incumbents graph memory ↔
      other ≠ memory ∧ (graph.liveRow other).isSome = true ∧ other ∈ designatedIn graph memory := by
  rw [Command.incumbents, List.mem_filter, Bool.and_eq_true, decide_eq_true_eq,
    mem_classMembers_iff reachable live, isPrimaryDesignated_iff, mem_designatedIn]
  tauto

theorem designatedIn_command (reachable : Reachable graph)
    (live : (graph.liveRow memory).isSome = true)
    (done : Command.designatePrimary graph now memory false = .ok after) :
    component after memory = component graph memory ∧
      designatedIn after memory =
        insert memory {other | other ∈ designatedIn graph memory ∧ graph.liveRow other = none} := by
  have known := known_of_live live
  have own := self_mem_component known
  have released : ∀ other, other ≠ memory → (other ∈ Command.incumbents graph memory ↔
      (graph.liveRow other).isSome = true ∧ other ∈ designatedIn graph memory) := by
    intro other different
    rw [mem_incumbents reachable live]
    simp [different]
  unfold Command.designatePrimary Command.payloads at done
  rw [if_neg (by decide)] at done
  dsimp only at done
  split at done
  · rename_i sole
    rw [Bool.and_eq_true, List.isEmpty_iff, List.map_eq_nil_iff] at sole
    obtain ⟨chosen, others⟩ := sole
    cases done
    refine ⟨rfl, ?_⟩
    ext other
    rw [Set.mem_insert_iff, Set.mem_ofPred_eq]
    by_cases same : other = memory
    · rw [same]
      exact iff_of_true ⟨own, (isPrimaryDesignated_iff.mp chosen).2⟩ (.inl rfl)
    · have none_released := released other same
      rw [others] at none_released
      simp only [List.not_mem_nil, false_iff, not_and] at none_released
      simp only [same, false_or]
      refine ⟨fun inside => ⟨inside, ?_⟩, fun inside => inside.1⟩
      by_contra alive
      exact none_released (Option.isSome_iff_ne_none.mpr alive) inside
  · obtain ⟨middle, first, last⟩ := commit_append_ok.mp done
    obtain ⟨unpins, components⟩ := releases_commit first
    have known' : middle.memories.contains memory = true := by
      have inside : memory ∈ component middle memory := by rwa [components]
      exact inside.1
    obtain ⟨pins, components'⟩ := designation_commit known' last
    refine ⟨(components' memory).trans (components memory), ?_⟩
    ext other
    rw [Set.mem_insert_iff, Set.mem_ofPred_eq, mem_designatedIn, components', components, pins, unpins]
    by_cases same : other = memory
    · simp [same, own]
    · rw [released other same]
      simp only [same, mem_designatedIn, Option.isSome_iff_ne_none, ne_eq, not_false_eq_true,
        and_true, or_false, false_or]
      tauto

end Designations

theorem classWriteTarget_eq_primary_iff {graph : Graph} {block : MemoryBlock} {id primary : MemoryId}
    (found : graph.classId id = some primary) :
    MemoryBlock.classWriteTarget graph block id = primary ↔
      id = primary ∨ (block.connectorAuthored = false ∧ (graph.memoryById primary).isSome = true ∧
        some primary ≠ block.operatorId ∧ some primary ≠ block.selfId) := by
  unfold MemoryBlock.classWriteTarget
  cases connector : block.connectorAuthored with
  | true => simp
  | false =>
    rw [if_neg (by decide), found]
    dsimp only
    split
    · rename_i kept
      simp only [Bool.or_eq_true, decide_eq_true_eq, Option.isNone_iff_eq_none] at kept
      refine ⟨.inl, ?_⟩
      rintro (own | ⟨_, alive, notAnchor, notSelf⟩)
      · exact own
      · rcases kept with ((own | anchor) | own) | gone
        · exact own.symm
        · exact absurd anchor notAnchor
        · exact absurd own notSelf
        · rw [gone] at alive
          cases alive
    · rename_i redirected
      simp only [Bool.or_eq_true, decide_eq_true_eq, not_or, Option.isNone_iff_eq_none] at redirected
      exact iff_of_true rfl (.inr ⟨rfl, Option.isSome_iff_ne_none.mpr redirected.2,
        redirected.1.1.2, redirected.1.2⟩)

/-- Designated from the control surface, a live memory names its class exactly where no earlier
member is designated, and from the command line exactly where no earlier deleted one is; a release
either way names the class after the earliest member still designated, or after the earliest; and
what is written to the class lands on its primary wherever the primary can be written to. -/
theorem designation_named_iff (graph : Graph) (reachable : Reachable graph) (memory : MemoryId)
    (live : (graph.liveRow memory).isSome = true) (now : Timestamp) :
    (∃ after, designatePrimary graph now memory true = .ok (.designated, after) ∧
      (Named after memory memory ↔ ∀ other ∈ designatedIn graph memory, memory ≤ other)) ∧
    (∃ after, Command.designatePrimary graph now memory false = .ok after ∧
      (Named after memory memory ↔
        ∀ other ∈ designatedIn graph memory, graph.liveRow other = none → memory ≤ other)) ∧
    (∀ after, designatePrimary graph now memory false = .ok (.designated, after) ∨
        Command.designatePrimary graph now memory true = .ok after →
      NamedAfter after memory (designatedIn graph memory \ {memory})) ∧
    ∀ (after : Graph) (block : MemoryBlock) (id primary : MemoryId), after.classId id = some primary →
      (MemoryBlock.classWriteTarget after block id = primary ↔
        id = primary ∨ (block.connectorAuthored = false ∧ (after.memoryById primary).isSome = true ∧
          some primary ≠ block.operatorId ∧ some primary ≠ block.selfId)) := by
  have known := known_of_live live
  refine ⟨?_, ?_, ?_, fun after block id primary found => classWriteTarget_eq_primary_iff found⟩
  · have folds : ∃ after,
        Graph.commit now .operator [.classPrimaryDesignated memory true] graph = .ok after :=
      exists_commit_designations reachable (by simp [designatesPrimary])
    obtain ⟨after, committed⟩ := folds
    have done := (designatePrimary_iff live).mpr committed
    obtain ⟨components, designates⟩ := designatedIn_designatePrimary live done
    have own : after.memories.contains memory = true := by
      have inside : memory ∈ component after memory := components ▸ self_mem_component known
      exact inside.1
    refine ⟨after, done, ?_⟩
    rw [named_iff (reachable.commit committed) own (designates ▸ Set.mem_insert _ _), designates]
    simp [MemoryId.le_def]
  · have choices : ∀ payload ∈ Command.payloads graph memory false,
        designatesPrimary payload = true := by
      intro payload member
      simp only [Command.payloads, Bool.false_eq_true, ↓reduceIte] at member
      split at member
      · cases member
      · rcases List.mem_append.mp member with among | last
        · obtain ⟨_, _, rfl⟩ := List.mem_map.mp among
          rfl
        · cases List.mem_singleton.mp last
          rfl
    have folds : ∃ after, Command.designatePrimary graph now memory false = .ok after :=
      exists_commit_designations reachable choices
    obtain ⟨after, committed⟩ := folds
    obtain ⟨components, designates⟩ := designatedIn_command reachable live committed
    have own : after.memories.contains memory = true := by
      have inside : memory ∈ component after memory := components ▸ self_mem_component known
      exact inside.1
    refine ⟨after, committed, ?_⟩
    rw [named_iff (reachable.commit committed) own (designates ▸ Set.mem_insert _ _), designates]
    simp [MemoryId.le_def]
  · intro after done
    obtain ⟨components, designates⟩ := designatedIn_release live done
    have reached : Reachable after := by
      rcases done with surface | command
      · exact reachable.commit ((designatePrimary_iff live).mp surface)
      · exact reachable.commit command
    rw [← designates]
    exact namedAfter_designatedIn reached

/-! Two accounts of one person, the earlier one designated. -/

namespace TwoAccounts

def pinnedEarly : Graph :=
  ((Graph.commit ⟨0⟩ .operator [.classPrimaryDesignated ⟨1⟩ true] accountsMerged).toOption).getD
    accountsMerged
def deletedEarly : Graph :=
  ((Graph.commit ⟨0⟩ .operator [.memoryDeleted ⟨1⟩] pinnedEarly).toOption).getD pinnedEarly

/-- The class of the later account, once it is designated. -/
def surfaceClass (graph : Graph) : Option MemoryId :=
  (designatePrimary graph ⟨0⟩ ⟨2⟩ true).toOption.bind fun done => done.2.classId ⟨2⟩
def commandClass (graph : Graph) : Option MemoryId :=
  (Command.designatePrimary graph ⟨0⟩ ⟨2⟩ false).toOption.bind fun after => after.classId ⟨2⟩

/-- From the control surface the later account does not become the primary of the two, as it does
from the command line; and where the earlier one is deleted it becomes that from neither. -/
theorem incumbent_stays :
    Reachable pinnedEarly ∧ Reachable deletedEarly ∧
      (designatePrimary pinnedEarly ⟨0⟩ ⟨2⟩ true).toOption.map (·.1) = some .designated ∧
      surfaceClass pinnedEarly = some ⟨1⟩ ∧ commandClass pinnedEarly = some ⟨2⟩ ∧
      surfaceClass deletedEarly = some ⟨1⟩ ∧ commandClass deletedEarly = some ⟨1⟩ :=
  ⟨accountsMerged_reachable.folded, accountsMerged_reachable.folded.folded, by decide +kernel⟩

/-- With no other account designated, the later one becomes the primary. -/
theorem later_named : ∃ after,
    designatePrimary accountsMerged ⟨0⟩ ⟨2⟩ true = .ok (.designated, after) ∧ Named after ⟨2⟩ ⟨2⟩ := by
  obtain ⟨⟨after, done, named⟩, _⟩ :=
    designation_named_iff accountsMerged accountsMerged_reachable ⟨2⟩ (by decide) ⟨0⟩
  refine ⟨after, done, named.mpr ?_⟩
  rintro other ⟨_, row, member, rfl, chosen⟩
  have undesignated : ∀ row ∈ accountsMerged.memories.rows, row.designatedPrimary = false := by decide
  cases (undesignated row member).symm.trans chosen

end TwoAccounts

end Zuihitsu.Control
