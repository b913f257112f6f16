/-
# Events the materializer takes

What the schema asks of the events that blocks, passes and the console write, on
the tables as an event meets them: keys that are free, names that no memory holds,
deleted ones included, and parents that are there. An event that meets it folds.
The rest of the module says what such events leave of the keys.
-/

import Zuihitsu.Graph.Registry
import Zuihitsu.Graph.Resume

namespace Zuihitsu.Graph

open Zuihitsu.Core Zuihitsu.Library

/-- A name is free for a memory: no other row, deleted or not, holds it. -/
def NameFree (graph : Graph) (id : MemoryId) (name : MemoryName) : Prop :=
  ∀ row ∈ graph.memories, row.name = name → row.id = id

/-- The constraints on an event are met. The events that open rooms and sessions and place
people in them are left out. -/
def Applicable (graph : Graph) : EventPayload → Prop
  | .memoryCreated id name => graph.memories.contains id = false ∧ NameFree graph id name
  | .memoryRenamed id _ name => graph.memories.contains id = true ∧ NameFree graph id name
  | .memoryContentAppended id entry _ _ _ _ _ _ =>
    graph.memories.contains id = true ∧ graph.entries.contains entry = false
  | .memorySuperseded _ _ successor => graph.entries.contains successor = true
  | .entriesConsolidated _ _ replacement _ => graph.entries.contains replacement = true
  | .entryAttested _ entry _ _ _ _ _ source _ =>
    graph.entries.contains entry = true ∧ source.all graph.entries.contains = true
  | .tagCreated name _ => graph.tags.contains name = false
  | .tagAppliedToMemory id name => graph.memories.contains id = true ∧ graph.tags.contains name = true
  | .linkCreated fromId toId label _ _ _ _ =>
    graph.memories.contains fromId = true ∧ graph.memories.contains toId = true ∧
      resolvesLabel graph.relations label = true
  | .beliefArbitrated memory entries _ _ =>
    graph.memories.contains memory = true ∧ ∀ entry ∈ entries, graph.entries.contains entry = true
  | .conversationStarted .. | .sessionStarted .. | .participantJoined .. | .participantIdentified .. =>
    False
  | _ => True

section Applying

variable {event : Event} {graph before after : Graph} {id : MemoryId} {name : MemoryName}

theorem exists_apply (runs : ∃ projected, (project event).run graph = .ok projected) :
    ∃ after, apply event graph = .ok after := by
  obtain ⟨projected, ran⟩ := runs
  exact ⟨_, apply_ok.mpr ⟨projected, ran, rfl⟩⟩

theorem exists_insert {ρ κ : Type} [DecidableEq κ] {key : ρ → κ} {table : Table key} {row : ρ}
    (fresh : table.contains (key row) = false) : ∃ made, table.insert row = some made :=
  Option.isSome_iff_exists.mp (Table.insert_isSome_iff.mpr fresh)

theorem exists_run_supersedeEntries {sources : List EntryId} {replacement : EntryId}
    (there : graph.entries.contains replacement = true) :
    ∃ after, (Script.forEach sources fun source => supersedeEntry source replacement).run graph =
      .ok after := by
  induction sources generalizing graph with
  | nil => exact ⟨graph, Script.run_forEach_nil _ _⟩
  | cons source rest ih =>
    obtain ⟨middle, first⟩ : ∃ middle, supersedeEntry source replacement graph = .ok middle :=
      ⟨_, supersedeEntry_ok.mpr ⟨fun _ => there, rfl⟩⟩
    have still : middle.entries.contains replacement = true := by
      obtain ⟨_, rfl⟩ := supersedeEntry_ok.mp first
      simpa only [Table.contains_update] using there
    obtain ⟨after, ran⟩ := ih still
    exact ⟨after, Script.run_forEach_cons_ok.mpr ⟨middle, first, ran⟩⟩

theorem exists_run_updates {α : Type} {items : List α} {act : α → Statement}
    (total : ∀ item graph, ∃ after, act item graph = .ok after) :
    ∃ after, (Script.forEach items act).run graph = .ok after := by
  induction items generalizing graph with
  | nil => exact ⟨graph, Script.run_forEach_nil _ _⟩
  | cons item rest ih =>
    obtain ⟨middle, first⟩ := total item graph
    obtain ⟨after, ran⟩ := @ih middle
    exact ⟨after, Script.run_forEach_cons_ok.mpr ⟨middle, first, ran⟩⟩

theorem exists_run_memoryCreated (fresh : graph.memories.contains id = false)
    (free : NameFree graph id name)
    (payload : event.payload = .memoryCreated id name) :
    ∃ projected, (project event).run graph = .ok projected := by
  let row : MemoryRow :=
    { id, name, createdAt := event.recordedAt, classId := id, lastContentSeq := event.seq }
  obtain ⟨memories, made⟩ := @exists_insert _ _ _ _ graph.memories row fresh
  have unheld : ∀ other ∈ graph.memories, other.name ≠ row.name := by
    intro other member same
    rw [← free other member same, Table.contains_of_mem member] at fresh
    cases fresh
  have itself : memories.contains row.classId = true :=
    Table.contains_of_mem ((Table.mem_insert made).mpr (.inr rfl))
  have first := insertMemory_ok.mpr ⟨memories, made, unheld, itself, rfl⟩
  simp only [project, payload]
  exact Script.exists_run_exec first ⟨_, rfl⟩

theorem exists_run_memoryRenamed {oldName : MemoryName} (there : graph.memories.contains id = true)
    (free : NameFree graph id name) (payload : event.payload = .memoryRenamed id oldName name) :
    ∃ projected, (project event).run graph = .ok projected := by
  have unheld : graph.memories.contains id = true →
      ∀ other ∈ graph.memories, other.id ≠ id → other.name ≠ name :=
    fun _ other member different same => different (free other member same)
  simp only [project, payload]
  refine Script.exists_run_exec (renameMemory_ok.mpr ⟨unheld, rfl⟩) ?_
  refine Script.exists_run_exec rfl (Script.exists_run_exec (replaceAlias_ok.mpr ⟨?_, rfl⟩) ⟨_, rfl⟩)
  simpa only [Table.contains_update] using there

theorem exists_run_memoryContentAppended {entry : EntryId} {assertedAt : Timestamp}
    {occurredAt : Option TemporalRef} {text : String} {toldBy : Teller}
    {toldIn : Option ConversationRef} {visibility : Visibility}
    (attested : ∀ row ∈ graph.attestations, graph.entries.contains row.entryId = true)
    (there : graph.memories.contains id = true) (fresh : graph.entries.contains entry = false)
    (payload : event.payload =
      .memoryContentAppended id entry assertedAt occurredAt text toldBy toldIn visibility) :
    ∃ projected, (project event).run graph = .ok projected := by
  let row := appendedEntry event graph id entry assertedAt occurredAt text toldBy toldIn visibility
  let endorsed : AttestationRow :=
    { entryId := entry, teller := toldBy, toldIn, assertedAt, posture := visibility, seq := event.seq }
  obtain ⟨entries, made⟩ := @exists_insert _ _ _ _ graph.entries row fresh
  have unattested : graph.attestations.contains endorsed.key = false := by
    rw [Table.contains_eq_false_iff]
    intro other member same
    have known := attested other member
    rw [show other.entryId = entry from congrArg Prod.fst same, fresh] at known
    cases known
  obtain ⟨attestations, endorses⟩ := @exists_insert _ _ _ _ graph.attestations endorsed unattested
  have parents : attestationParents { graph with entries := entries } endorsed = true := by
    have stored : entries.contains entry = true :=
      Table.contains_of_mem ((Table.mem_insert made).mpr (.inr rfl))
    simp [attestationParents, endorsed, stored]
  have first : insertEntry row graph = .ok { graph with entries := entries } :=
    insertEntry_ok.mpr ⟨entries, made, there, rfl⟩
  have second : insertAttestation endorsed { graph with entries := entries } =
      .ok { graph with entries := entries, attestations := attestations } :=
    insertAttestation_ok.mpr ⟨attestations, endorses, parents, rfl⟩
  simp only [project, payload, Script.run_read]
  refine Script.exists_run_exec first (Script.exists_run_exec second (Script.exists_run_exec rfl ?_))
  split
  · exact ⟨_, rfl⟩
  · exact ⟨_, rfl⟩

theorem exists_run_linkCreated {fromId toId : MemoryId} {label : RelationName} {source : LinkSource}
    {toldBy : Option Teller} {toldIn : Option ConversationRef} {visibility : Visibility}
    (fromThere : graph.memories.contains fromId = true)
    (toThere : graph.memories.contains toId = true)
    (resolves : resolvesLabel graph.relations label = true)
    (payload : event.payload = .linkCreated fromId toId label source toldBy toldIn visibility) :
    ∃ projected, (project event).run graph = .ok projected := by
  have ends : graph.memories.contains (canonicalEdge graph fromId toId label).1 = true ∧
      graph.memories.contains (canonicalEdge graph fromId toId label).2.1 = true := by
    rcases canonicalEdge_ends graph fromId toId label with ⟨first, second⟩ | ⟨first, second⟩
    · rw [first, second]
      exact ⟨fromThere, toThere⟩
    · rw [first, second]
      exact ⟨toThere, fromThere⟩
  have registered : graph.relations.contains (canonicalEdge graph fromId toId label).2.2 = true := by
    rw [canonicalEdge_label]
    exact contains_canonicalLabel resolves
  simp only [project, payload, Script.run_read]
  exact Script.exists_run_exec (upsertLink_ok.mpr ⟨.inr ⟨ends, registered⟩, rfl⟩)
    ⟨_, run_recomputeIfSameAs _ _⟩

theorem apply_of_applicable
    (attested : ∀ row ∈ graph.attestations, graph.entries.contains row.entryId = true)
    (applicable : Applicable graph event.payload) : ∃ after, apply event graph = .ok after := by
  apply exists_apply
  cases payload : event.payload with
  | memoryCreated =>
    rw [payload] at applicable
    exact exists_run_memoryCreated applicable.1 applicable.2 payload
  | memoryRenamed =>
    rw [payload] at applicable
    exact exists_run_memoryRenamed applicable.1 applicable.2 payload
  | memoryContentAppended =>
    rw [payload] at applicable
    exact exists_run_memoryContentAppended attested applicable.1 applicable.2 payload
  | memorySuperseded =>
    rw [payload] at applicable
    simp only [project, payload, Script.run_statement]
    exact ⟨_, supersedeEntry_ok.mpr ⟨fun _ => applicable, rfl⟩⟩
  | entriesConsolidated =>
    rw [payload] at applicable
    simp only [project, payload]
    exact exists_run_supersedeEntries applicable
  | entryAttested =>
    rw [payload] at applicable
    simp only [project, payload, Script.run_statement]
    exact ⟨_, upsertAttestation_ok.mpr ⟨by simp [attestationParents, applicable.1, applicable.2], rfl⟩⟩
  | attestationRetracted =>
    simp only [project, payload]
    refine Script.exists_run_exec rfl ?_
    rw [Script.run_read]
    split
    · exact ⟨_, rfl⟩
    · exact ⟨_, rfl⟩
  | tagCreated name description =>
    rw [payload] at applicable
    obtain ⟨tags, made⟩ := @exists_insert _ _ _ _ graph.tags ⟨name, description⟩ applicable
    simp only [project, payload, Script.run_statement]
    exact ⟨_, insertTag_ok.mpr ⟨tags, made, rfl⟩⟩
  | tagAppliedToMemory =>
    rw [payload] at applicable
    simp only [project, payload, Script.run_statement]
    exact ⟨_, insertMemoryTag_ok.mpr ⟨.inr applicable, rfl⟩⟩
  | linkCreated =>
    rw [payload] at applicable
    exact exists_run_linkCreated applicable.1 applicable.2.1 applicable.2.2 payload
  | linkRemoved =>
    simp only [project, payload, Script.run_read]
    exact Script.exists_run_exec rfl ⟨_, run_recomputeIfSameAs _ _⟩
  | classPrimaryDesignated =>
    simp only [project, payload]
    exact Script.exists_run_exec rfl ⟨_, run_recomputeClasses _⟩
  | entryRetracted | memoryDescriptionRegenerated =>
    simp only [project, payload]
    exact Script.exists_run_exec rfl ⟨_, rfl⟩
  | beliefArbitrated =>
    rw [payload] at applicable
    simp only [project, payload]
    refine Script.exists_run_exec rfl ?_
    split
    · exact ⟨_, run_replaceDisputes.mpr ⟨fun entry member => ⟨applicable.1, applicable.2 entry member⟩, rfl⟩⟩
    · exact ⟨_, rfl⟩
  | memoryDeleted =>
    simp only [project, payload]
    exact Script.exists_run_exec rfl (Script.exists_run_exec rfl (Script.exists_run_exec rfl ⟨_, rfl⟩))
  | entryTemporalResolved =>
    simp only [project, payload, Script.run_read]
    refine Script.exists_run_exec rfl ?_
    split
    · exact ⟨_, rfl⟩
    · exact ⟨_, rfl⟩
  | describePassCompleted =>
    simp only [project, payload]
    exact exists_run_updates fun _ _ => ⟨_, rfl⟩
  | conversationStarted | sessionStarted | participantJoined | participantIdentified =>
    rw [payload] at applicable
    cases applicable
  | _ =>
    simp only [project, payload]
    exact ⟨_, rfl⟩

end Applying

/-! ### What a commit leaves of the keys and names -/

/-- The memory an event creates. -/
def createdId : EventPayload → Option MemoryId
  | .memoryCreated id _ => some id
  | _ => none

/-- The tag an event creates. -/
def createdTag : EventPayload → Option TagName
  | .tagCreated name _ => some name
  | _ => none

/-- The name an event gives, and to which memory. -/
def givesName : EventPayload → Option (MemoryId × MemoryName)
  | .memoryCreated id name => some (id, name)
  | .memoryRenamed id _ newName => some (id, newName)
  | _ => none

section Keys

variable {event : Event} {before after : Graph} {recordedAt : Timestamp} {source : EventSource}
variable {payloads : List EventPayload} {id : MemoryId} {name : TagName} {row : MemoryRow}

theorem createdMemory_some (created : createdMemory event = some row) :
    createdId event.payload = some row.id ∧ givesName event.payload = some (row.id, row.name) := by
  cases payload : event.payload with
  | memoryCreated =>
    simp only [createdMemory, payload, Option.some.injEq] at created
    subst created
    exact ⟨rfl, rfl⟩
  | _ => simp [createdMemory, payload] at created

theorem exists_createdMemory (creates : createdId event.payload = some id) :
    ∃ row, createdMemory event = some row ∧ row.id = id := by
  cases payload : event.payload with
  | memoryCreated =>
    rw [payload] at creates
    cases creates
    simp only [createdMemory, payload]
    exact ⟨_, rfl, rfl⟩
  | _ => simp [createdId, payload] at creates

theorem contains_memory_apply_iff (applied : apply event before = .ok after) :
    after.memories.contains id = true ↔
      before.memories.contains id = true ∨ createdId event.payload = some id := by
  constructor
  · intro there
    obtain ⟨row, member, rfl⟩ := Table.contains_iff.mp there
    rcases (mem_memories_apply applied).mp member with ⟨old, oldMem, rfl⟩ | created
    · rw [memoryChange_id]
      exact .inl (Table.contains_of_mem oldMem)
    · exact .inr (createdMemory_some created).1
  · rintro (there | creates)
    · obtain ⟨row, member, rfl⟩ := Table.contains_iff.mp there
      exact Table.contains_iff.mpr
        ⟨_, (mem_memories_apply applied).mpr (.inl ⟨row, member, rfl⟩), memoryChange_id event before row⟩
    · obtain ⟨row, created, rfl⟩ := exists_createdMemory creates
      exact Table.contains_of_mem ((mem_memories_apply applied).mpr (.inr created))

theorem contains_memory_commit_iff
    (committed : commit recordedAt source payloads before = .ok after) :
    after.memories.contains id = true ↔
      before.memories.contains id = true ∨ ∃ payload ∈ payloads, createdId payload = some id := by
  induction payloads generalizing before with
  | nil =>
    cases committed
    simp
  | cons payload rest ih =>
    obtain ⟨middle, applied, remaining⟩ := commit_cons_ok.mp committed
    rw [ih remaining, contains_memory_apply_iff applied, List.exists_mem_cons_iff, or_assoc]

theorem contains_tag_apply_iff (applied : apply event before = .ok after) :
    after.tags.contains name = true ↔
      before.tags.contains name = true ∨ createdTag event.payload = some name := by
  obtain ⟨projected, ran, rfl⟩ := apply_ok.mp applied
  cases payload : event.payload with
  | tagCreated =>
    simp only [project, payload, Script.run_statement, insertTag_ok] at ran
    obtain ⟨tags, made, rfl⟩ := ran
    simp only [createdTag, Option.some.injEq, Table.contains_iff, Table.mem_insert made]
    constructor
    · rintro ⟨row, earlier | rfl, rfl⟩
      · exact .inl ⟨row, earlier, rfl⟩
      · exact .inr rfl
    · rintro (⟨row, earlier, rfl⟩ | rfl)
      · exact ⟨row, .inl earlier, rfl⟩
      · exact ⟨_, .inr rfl, rfl⟩
  | tagDescriptionChanged =>
    simp only [project, payload, Script.run_statement] at ran
    cases ran
    simp only [createdTag, Table.contains_update, reduceCtorEq, or_false]
  | _ =>
    rw [show projected.tags = before.tags from
      (project_frame ran).tags (by simp [footprint, payload])]
    simp [createdTag]

theorem contains_tag_commit_iff (committed : commit recordedAt source payloads before = .ok after) :
    after.tags.contains name = true ↔
      before.tags.contains name = true ∨ ∃ payload ∈ payloads, createdTag payload = some name := by
  induction payloads generalizing before with
  | nil =>
    cases committed
    simp
  | cons payload rest ih =>
    obtain ⟨middle, applied, remaining⟩ := commit_cons_ok.mp committed
    rw [ih remaining, contains_tag_apply_iff applied, List.exists_mem_cons_iff, or_assoc]

theorem memoryChange_name :
    (memoryChange event before row).name = row.name ∨
      givesName event.payload = some (row.id, (memoryChange event before row).name) := by
  rw [memoryChange_eq]
  cases payload : event.payload with
  | memoryRenamed id oldName newName =>
    simp only [memoryColumns, payload]
    by_cases here : row.id = id
    · simp [here, givesName]
    · simp [here]
  | _ =>
    refine .inl ?_
    simp only [memoryColumns, payload] <;> (try split) <;> rfl

theorem name_of_given {given : MemoryName} (applied : apply event before = .ok after)
    (member : row ∈ after.memories) (gives : givesName event.payload = some (row.id, given)) :
    row.name = given := by
  rcases (mem_memories_apply applied).mp member with ⟨old, oldMem, rfl⟩ | created
  · rw [memoryChange_id] at gives
    cases payload : event.payload with
    | memoryCreated =>
      -- the memory is there already, so nothing creates it
      rw [payload] at gives
      cases gives
      have creates : createdId event.payload = some old.id := congrArg createdId payload
      obtain ⟨row, created, same⟩ := exists_createdMemory creates
      have fresh := (created_of_apply applied created).1
      rw [same, Table.contains_of_mem oldMem] at fresh
      cases fresh
    | memoryRenamed =>
      rw [payload] at gives
      cases gives
      rw [memoryChange_eq]
      simp only [memoryColumns, payload, if_true]
    | _ =>
      rw [payload] at gives
      cases gives
  · have named := (createdMemory_some created).2
    rw [gives] at named
    cases named
    rfl

theorem name_commit (committed : commit recordedAt source payloads before = .ok after)
    (member : row ∈ after.memories) :
    (∃ old ∈ before.memories, old.id = row.id ∧ old.name = row.name ∧
        ∀ payload ∈ payloads, ∀ given, givesName payload ≠ some (row.id, given)) ∨
      ∃ payload ∈ payloads, givesName payload = some (row.id, row.name) := by
  induction payloads generalizing before with
  | nil =>
    cases committed
    exact .inl ⟨row, member, rfl, rfl, by simp⟩
  | cons payload rest ih =>
    obtain ⟨middle, applied, remaining⟩ := commit_cons_ok.mp committed
    rcases ih remaining with ⟨mid, midMem, same, named, unnamed⟩ | ⟨later, laterMem, gives⟩
    · by_cases here : ∃ given, givesName payload = some (row.id, given)
      · obtain ⟨given, gives⟩ := here
        refine .inr ⟨payload, List.mem_cons_self, ?_⟩
        rw [gives, ← named, name_of_given applied midMem (same ▸ gives)]
      · rw [not_exists] at here
        rcases (mem_memories_apply applied).mp midMem with ⟨old, oldMem, rfl⟩ | created
        · rw [memoryChange_id] at same
          refine .inl ⟨old, oldMem, same, ?_, List.forall_mem_cons.mpr ⟨here, unnamed⟩⟩
          rcases memoryChange_name with kept | gives
          · exact kept.symm.trans named
          · rw [same] at gives
            exact absurd gives (here _)
        · have gives := (createdMemory_some created).2
          rw [same] at gives
          exact absurd gives (here _)
    · exact .inr ⟨later, List.mem_cons_of_mem _ laterMem, gives⟩

theorem exists_name_commit (committed : commit recordedAt source payloads before = .ok after)
    (member : row ∈ before.memories)
    (unnamed : ∀ payload ∈ payloads, ∀ given, givesName payload ≠ some (row.id, given)) :
    ∃ kept ∈ after.memories, kept.id = row.id ∧ kept.name = row.name := by
  induction payloads generalizing before row with
  | nil =>
    cases committed
    exact ⟨row, member, rfl, rfl⟩
  | cons payload rest ih =>
    obtain ⟨middle, applied, remaining⟩ := commit_cons_ok.mp committed
    obtain ⟨here, later⟩ := List.forall_mem_cons.mp unnamed
    obtain ⟨kept, keptMem, same, named⟩ := ih remaining
      ((mem_memories_apply applied).mpr (.inl ⟨row, member, rfl⟩)) (by simpa using later)
    refine ⟨kept, keptMem, by simpa using same, named.trans ?_⟩
    exact memoryChange_name.resolve_right (here _)

theorem nameFree_of_apply {given : MemoryName} (applied : apply event before = .ok after)
    (gives : givesName event.payload = some (id, given)) : NameFree before id given := by
  cases payload : event.payload with
  | memoryCreated =>
    rw [payload] at gives
    cases gives
    obtain ⟨row, creates, _⟩ := @exists_createdMemory event id (by rw [payload]; rfl)
    obtain ⟨_, free⟩ := created_of_apply applied creates
    have named := (createdMemory_some creates).2
    rw [payload] at named
    cases named
    exact fun other member same => absurd same (free other member)
  | memoryRenamed =>
    rw [payload] at gives
    cases gives
    obtain ⟨projected, ran, _⟩ := apply_ok.mp applied
    have there := (run_memoryRenamed payload ran).1
    simp only [project, payload, Script.run_exec_ok, renameMemory_ok] at ran
    obtain ⟨_, ⟨free, _⟩, _⟩ := ran
    intro other member same
    by_contra different
    exact free there other member different same
  | _ =>
    rw [payload] at gives
    cases gives

theorem untagged_of_apply (applied : apply event before = .ok after)
    (creates : createdTag event.payload = some name) : before.tags.contains name = false := by
  cases payload : event.payload with
  | tagCreated =>
    rw [payload] at creates
    cases creates
    obtain ⟨projected, ran, _⟩ := apply_ok.mp applied
    simp only [project, payload, Script.run_statement, insertTag_ok] at ran
    obtain ⟨_, made, _⟩ := ran
    exact Table.fresh_of_insert made
  | _ =>
    rw [payload] at creates
    cases creates

theorem contains_relation_apply {label : RelationName}
    (there : before.relations.contains label = true)
    (applied : apply event before = .ok after) : after.relations.contains label = true := by
  rw [relations_apply applied]
  unfold registryAfter
  split
  · exact Table.contains_upsert_of_contains there
  · exact there

theorem Reachable.registered {graph : Graph} (reachable : Reachable graph) :
    ∀ link ∈ graph.links, graph.relations.contains link.relation = true := by
  induction reachable with
  | fresh =>
    intro link member
    cases member
  | @apply before after event _ _ applied ih =>
    intro link member
    rw [apply_links applied] at member
    cases payload : event.payload with
    | linkCreated =>
      simp only [linksAfter, payload] at member
      rcases Table.mem_upsert.mp member with ⟨old, _⟩ | ⟨old, oldMem, _, rfl⟩ | ⟨fresh, rfl⟩
      · exact contains_relation_apply (ih link old) applied
      · exact contains_relation_apply (ih old oldMem) applied
      · -- a new link's foreign key was checked when it was stored
        obtain ⟨projected, ran, _⟩ := apply_ok.mp applied
        simp only [project, payload, Script.run_read, Script.run_exec_ok, upsertLink_ok] at ran
        obtain ⟨_, ⟨taken | ⟨_, registered⟩, _⟩, _⟩ := ran
        · rw [fresh] at taken
          cases taken
        · exact contains_relation_apply registered applied
    | linkRemoved =>
      simp only [linksAfter, payload] at member
      exact contains_relation_apply (ih link (Table.mem_delete.mp member).1) applied
    | _ =>
      simp only [linksAfter, payload] at member
      exact contains_relation_apply (ih link member) applied

theorem resolvesLabel_of_apply (reachable : Reachable before)
    (applied : apply event before = .ok after)
    {fromId toId : MemoryId} {label : RelationName} {author : LinkSource} {toldBy : Option Teller}
    {toldIn : Option ConversationRef} {visibility : Visibility}
    (payload : event.payload = .linkCreated fromId toId label author toldBy toldIn visibility) :
    resolvesLabel before.relations label = true := by
  obtain ⟨projected, ran, _⟩ := apply_ok.mp applied
  simp only [project, payload, Script.run_read, Script.run_exec_ok, upsertLink_ok] at ran
  obtain ⟨_, ⟨stored, _⟩, _⟩ := ran
  have registered : before.relations.contains (canonicalLabel before.relations label) = true := by
    rw [← canonicalEdge_label before fromId toId label]
    rcases stored with taken | ⟨_, registered⟩
    · obtain ⟨link, member, key⟩ := Table.contains_iff.mp taken
      have linked := reachable.registered link member
      rwa [show link.relation = _ from congrArg (·.2.2) key] at linked
    · exact registered
  rw [← Bool.not_eq_false]
  intro unknown
  -- a label nothing carries is its own canonical one, and not registered
  have uncarried : before.relations.rows.find? (RelationRow.carries label) = none :=
    List.find?_eq_none.mpr fun row member => List.any_eq_false.mp unknown row member
  have itself : canonicalLabel before.relations label = label := by
    unfold canonicalLabel
    rw [uncarried]
    rfl
  rw [itself] at registered
  obtain ⟨row, member, named⟩ := Table.contains_iff.mp registered
  refine List.any_eq_false.mp unknown row member ?_
  simp [RelationRow.carries, named]

end Keys

end Zuihitsu.Graph
