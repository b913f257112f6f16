/-
# What each event does to the rows

One function for each table says what folding an event makes of a row that was
already there, and one says which row the event adds. `apply_memories`,
`apply_entries` and `apply_attestations` are the only places where the arms are
opened for these tables: every invariant over runs is derived from the row
functions.
-/

import Zuihitsu.Graph.Frame

namespace Zuihitsu.Graph

open Zuihitsu.Core Zuihitsu.Library

/-! ### Recomputing the identity classes -/

section Classes

variable {members : List (MemoryId × Bool)} {root : MemoryId → MemoryId} {id : MemoryId}

theorem foldl_outranks_mem (first : MemoryId × Bool) (rest : List (MemoryId × Bool)) :
    rest.foldl (fun best candidate => if outranks candidate best then candidate else best) first ∈
      first :: rest := by
  induction rest generalizing first with
  | nil => exact List.mem_cons_self
  | cons candidate rest ih =>
    rw [List.foldl_cons]
    split
    · exact List.mem_cons_of_mem _ (ih candidate)
    · rcases List.mem_cons.mp (ih first) with same | later
      · rw [same]
        exact List.mem_cons_self
      · exact List.mem_cons_of_mem _ (List.mem_cons_of_mem _ later)

theorem primaryOf_mem (root : MemoryId → MemoryId) (member : id ∈ members.map Prod.fst) :
    ∃ best ∈ members, best.1 = primaryOf members root id ∧ root best.1 = root id := by
  obtain ⟨entry, inMembers, rfl⟩ := List.mem_map.mp member
  have inComponent : entry ∈ members.filter fun member => root member.1 = root entry.1 :=
    List.mem_filter.mpr ⟨inMembers, by simp⟩
  unfold primaryOf
  split
  · rename_i none
    rw [none] at inComponent
    cases inComponent
  · rename_i first rest listed
    have best := foldl_outranks_mem first rest
    rw [← listed] at best
    obtain ⟨bestMember, sameRoot⟩ := List.mem_filter.mp best
    exact ⟨_, bestMember, rfl, by simpa using sameRoot⟩

theorem primaryOf_congr {other : MemoryId} (member : id ∈ members.map Prod.fst)
    (same : root id = root other) : primaryOf members root id = primaryOf members root other := by
  obtain ⟨entry, inMembers, rfl⟩ := List.mem_map.mp member
  have inComponent : entry ∈ members.filter fun member => root member.1 = root other :=
    List.mem_filter.mpr ⟨inMembers, by simp [same]⟩
  unfold primaryOf
  rw [same]
  split
  · rename_i none
    rw [none] at inComponent
    cases inComponent
  · rfl

end Classes

/-- A row under the class the identity links of a graph give it. -/
def reclassed (graph : Graph) (row : MemoryRow) : MemoryRow :=
  { row with
    classId := primaryOf (recomputeMembers graph) (classRoot (sameAsEdges graph)) row.id }

@[simp] theorem reclassed_id (graph : Graph) (row : MemoryRow) :
    (reclassed graph row).id = row.id := rfl

theorem reclassed_congr {graph other : Graph} (memories : graph.memories = other.memories)
    (links : graph.links = other.links) : reclassed graph = reclassed other := by
  funext row
  simp only [reclassed, recomputeMembers, sameAsEdges, memories, links]

theorem recomputeMembers_ids (graph : Graph) :
    (recomputeMembers graph).map Prod.fst = graph.memories.rows.map (·.id) := by
  simp [recomputeMembers]

private theorem run_setClassIds {items : List (MemoryId × Bool)} {target : MemoryId → MemoryId}
    {graph : Graph} (known : ∀ item ∈ items, graph.memories.contains (target item.1) = true) :
    (Script.forEach items fun item => setClassId item.1 (target item.1)).run graph =
      .ok { graph with
        memories := graph.memories.update (fun row => decide (row.id ∈ items.map Prod.fst))
          fun row => { row with classId := target row.id } } := by
  induction items generalizing graph with
  | nil =>
    rw [Script.run_forEach_nil, Table.update_eq_self (by simp)]
  | cons item rest ih =>
    rw [Script.run_forEach_cons_ok]
    refine ⟨_, setClassId_ok.mpr ⟨fun _ => known item List.mem_cons_self, rfl⟩, ?_⟩
    rw [ih (by
      intro other member
      rw [Table.contains_update]
      exact known other (List.mem_cons_of_mem _ member))]
    congr 2
    apply Table.ext
    simp only [Table.rows_update, List.map_map]
    apply List.map_congr_left
    intro row _
    by_cases here : row.id = item.1
    · by_cases later : row.id ∈ rest.map Prod.fst <;> simp_all [Function.comp]
    · by_cases later : row.id ∈ rest.map Prod.fst <;> simp_all [Function.comp]

theorem run_recomputeClasses (graph : Graph) :
    recomputeClasses.run graph =
      .ok { graph with
        memories :=
          graph.memories.update (fun _ => true) (reclassed graph) (reclassed_id graph) } := by
  rw [recomputeClasses, Script.run_read, run_setClassIds]
  · congr 2
    apply Table.ext
    simp only [Table.rows_update]
    apply List.map_congr_left
    intro row member
    have present : row.id ∈ (recomputeMembers graph).map Prod.fst := by
      rw [recomputeMembers_ids]
      exact List.mem_map_of_mem member
    simp [present, reclassed]
  · intro item member
    have known : item.1 ∈ (recomputeMembers graph).map Prod.fst := List.mem_map_of_mem member
    obtain ⟨best, bestMember, same, _⟩ := primaryOf_mem (classRoot (sameAsEdges graph)) known
    obtain ⟨row, rowMember, rfl⟩ := List.mem_map.mp bestMember
    rw [← same]
    exact Table.contains_of_mem rowMember

/-- The graph after the recomputation that follows a write to a canonical edge. -/
def reclassedIfSameAs (relation : RelationName) (graph : Graph) : Graph :=
  if relation = .sameAs then
    { graph with
      memories := graph.memories.update (fun _ => true) (reclassed graph) (reclassed_id graph) }
  else graph

theorem run_recomputeIfSameAs (relation : RelationName) (graph : Graph) :
    (recomputeIfSameAs relation).run graph = .ok (reclassedIfSameAs relation graph) := by
  unfold recomputeIfSameAs reclassedIfSameAs
  split
  · exact run_recomputeClasses graph
  · rfl

/-! ### Links and relations -/

/-- The links after an event: a link is upserted or deleted on its canonical edge. -/
def linksAfter (event : Event) (before : Graph) : Table LinkRow.key :=
  match event.payload with
  | .linkCreated fromId toId relation source toldBy toldIn visibility =>
    let edge := canonicalEdge before fromId toId relation
    before.links.upsert
      { fromId := edge.1, toId := edge.2.1, relation := edge.2.2, source, toldBy, toldIn,
        visibility, assertedAt := event.recordedAt }
      fun old => { old with source, toldBy, toldIn, visibility }
  | .linkRemoved fromId toId relation =>
    before.links.delete (·.key = canonicalEdge before fromId toId relation)
  | _ => before.links

/-- The registered relations after an event. -/
def relationsAfter (event : Event) (before : Graph) : Table RelationRow.name :=
  match event.payload with
  | .linkTypeRegistered name inverse fromCard toCard symmetric reflexive description =>
    before.relations.upsert { name, inverse, fromCard, toCard, symmetric, reflexive, description }
      fun old => { name := old.name, inverse, fromCard, toCard, symmetric, reflexive, description }
  | _ => before.relations

/-- Whether an event writes an identity link, under whatever label it names. -/
def writesSameAs (event : Event) (before : Graph) : Bool :=
  match event.payload with
  | .linkCreated fromId toId relation .. => (canonicalEdge before fromId toId relation).2.2 = .sameAs
  | .linkRemoved fromId toId relation => (canonicalEdge before fromId toId relation).2.2 = .sameAs
  | _ => false

/-! ### Memories -/

/-- What an event makes of a memory's row, its class apart. -/
def memoryColumns (event : Event) (row : MemoryRow) : MemoryRow :=
  match event.payload with
  | .genesisCompleted => { row with lastDescribedSeq := row.lastContentSeq }
  | .describePassCompleted memories =>
    if row.id ∈ memories then { row with lastDescribedSeq := event.seq } else row
  | .memoryRenamed id _ newName =>
    if row.id = id then { row with name := newName, lastContentSeq := event.seq } else row
  | .memoryDeleted id => if row.id = id then { row with deleted := true } else row
  | .memoryContentAppended id .. =>
    if row.id = id then { row with lastContentSeq := event.seq } else row
  | .memoryDescriptionRegenerated id newText _ =>
    if row.id = id then { row with description := newText } else row
  | .memoryVolatilitySet id volatility =>
    if row.id = id then { row with volatility := volatility } else row
  | .classPrimaryDesignated memory designated =>
    if row.id = memory then { row with designatedPrimary := designated } else row
  | _ => row

@[simp] theorem memoryColumns_id (event : Event) (row : MemoryRow) :
    (memoryColumns event row).id = row.id := by
  unfold memoryColumns
  split <;> (try split) <;> rfl

theorem memoryColumns_classId (event : Event) (row : MemoryRow) :
    (memoryColumns event row).classId = row.classId := by
  unfold memoryColumns
  split <;> (try split) <;> rfl

/-- Whether an event recomputes the identity classes. -/
def recomputes (event : Event) (before : Graph) : Bool :=
  match event.payload with
  | .classPrimaryDesignated .. => true
  | _ => writesSameAs event before

/-- The graph an event recomputes the classes from: its links and designations
written, the classes not yet. -/
def classBasis (event : Event) (before : Graph) : Graph :=
  { before with
    memories :=
      before.memories.update (fun _ => true) (memoryColumns event) (memoryColumns_id event)
    links := linksAfter event before }

/-- What an event makes of a memory's row. -/
def memoryChange (event : Event) (before : Graph) (row : MemoryRow) : MemoryRow :=
  if recomputes event before then reclassed (classBasis event before) (memoryColumns event row)
  else memoryColumns event row

@[simp] theorem memoryChange_id (event : Event) (before : Graph) (row : MemoryRow) :
    (memoryChange event before row).id = row.id := by
  unfold memoryChange
  split <;> simp

theorem memoryChange_eq (event : Event) (before : Graph) (row : MemoryRow) :
    memoryChange event before row =
      { memoryColumns event row with classId := (memoryChange event before row).classId } := by
  unfold memoryChange
  split <;> rfl

/-- The row an event creates a memory with. -/
def createdMemory (event : Event) : Option MemoryRow :=
  match event.payload with
  | .memoryCreated id name =>
    some { id, name, createdAt := event.recordedAt, classId := id, lastContentSeq := event.seq }
  | _ => none

/-! ### Entries and attestations -/

/-- Whether withdrawing a teller's endorsement leaves an entry without any. -/
def withdrawsLast (before : Graph) (entry : EntryId) (teller : Teller) : Bool :=
  !before.attestations.rows.any fun row => liveAttestationOf entry row && row.teller ≠ teller

/-- An entry's row as a tombstone: its own successor. -/
def EntryRow.tombstone (row : EntryRow) (reason : String) : EntryRow :=
  { row with supersededBy := some row.entryId, retractedReason := some reason }

/-- What an event makes of an entry's row. -/
def entryChange (event : Event) (before : Graph) (row : EntryRow) : EntryRow :=
  match event.payload with
  | .memorySuperseded _ entry successor =>
    if row.entryId = entry then { row with supersededBy := some successor } else row
  | .entriesConsolidated _ sources replacement _ =>
    if row.entryId ∈ sources then { row with supersededBy := some replacement } else row
  | .entryRetracted _ entry reason _ => if row.entryId = entry then row.tombstone reason else row
  | .attestationRetracted _ entry teller reason _ =>
    if row.entryId = entry ∧ withdrawsLast before entry teller then row.tombstone reason else row
  | .entryDescriptionMirrored _ entry =>
    if row.entryId = entry then { row with descriptionMirror := true } else row
  | .entryTemporalResolved _ entry occurredAt _ =>
    if row.entryId = entry then
      { row with
        occurrence := occurrenceColumns before occurredAt
        occurredAuthored := false
        firedAt := if occurredAt.isNone then none else row.firedAt
        surfacedAt := if occurredAt.isNone then none else row.surfacedAt }
    else row
  | .scheduledJobFired entry _ firedAt =>
    if row.entryId = entry then { row with firedAt := some firedAt, surfacedAt := none } else row
  | .scheduledItemSurfaced entry _ _ surfacedAt =>
    if row.entryId = entry then { row with surfacedAt := some surfacedAt } else row
  | _ => row

/-- The row an event appends an entry with. -/
def appendedRow (event : Event) (before : Graph) : Option EntryRow :=
  match event.payload with
  | .memoryContentAppended id entryId assertedAt occurredAt text toldBy toldIn visibility =>
    some (appendedEntry event before id entryId assertedAt occurredAt text toldBy toldIn visibility)
  | _ => none

/-- The endorsement an event brings, founding or added. -/
def broughtAttestation (event : Event) : Option AttestationRow :=
  match event.payload with
  | .memoryContentAppended _ entryId assertedAt _ _ toldBy toldIn visibility =>
    some { entryId, teller := toldBy, toldIn, assertedAt, posture := visibility, seq := event.seq }
  | .entryAttested _ entry teller toldIn assertedAt posture phrasing sourceEntry _ =>
    some { entryId := entry, teller, toldIn, assertedAt, posture, phrasing, sourceEntry,
           seq := event.seq }
  | _ => none

/-- What an event makes of an endorsement's row. -/
def attestationChange (event : Event) (row : AttestationRow) : AttestationRow :=
  match event.payload with
  | .entryRetracted _ entry reason _ =>
    if liveAttestationOf entry row then { row with retractedReason := some reason } else row
  | .attestationRetracted _ entry teller reason _ =>
    if row.key = (entry, teller) then { row with retractedReason := some reason } else row
  | _ =>
    match broughtAttestation event with
    | some brought => if row.key = brought.key then brought.mergeFrom row else row
    | none => row

/-- The row an event adds to the endorsements: the one it brings, when its teller
had none of the entry. -/
def addedAttestation (event : Event) (before : Graph) : Option AttestationRow :=
  (broughtAttestation event).filter fun brought => !before.attestations.contains brought.key

/-! ### The arms compute these effects -/

section Arms

variable {event : Event} {before projected after : Graph}

private theorem project_links (ran : (project event).run before = .ok projected) :
    projected.links = linksAfter event before := by
  cases payload : event.payload with
  | linkCreated =>
    simp only [project, payload, Script.run_read, Script.run_exec_ok, upsertLink_ok,
      run_recomputeIfSameAs] at ran
    obtain ⟨_, ⟨_, rfl⟩, recomputed⟩ := ran
    cases recomputed
    simp only [reclassedIfSameAs, linksAfter, payload]
    split <;> rfl
  | linkRemoved =>
    simp only [project, payload, Script.run_read, Script.run_exec_ok, run_recomputeIfSameAs] at ran
    obtain ⟨_, wrote, recomputed⟩ := ran
    cases wrote
    cases recomputed
    simp only [reclassedIfSameAs, linksAfter, payload]
    split <;> rfl
  | _ =>
    have same := (project_frame ran).links (by simp [footprint, payload])
    simpa [linksAfter, payload] using same

private theorem project_relations (ran : (project event).run before = .ok projected) :
    projected.relations = relationsAfter event before := by
  cases payload : event.payload with
  | linkTypeRegistered =>
    simp only [project, payload, Script.run_statement] at ran
    cases ran
    simp only [relationsAfter, payload]
  | _ =>
    have same := (project_frame ran).relations (by simp [footprint, payload])
    simpa [relationsAfter, payload] using same

private theorem run_describePasses {memories : List MemoryId} {seq : Nat} :
    (Script.forEach memories fun memory =>
        updateMemories (·.id = memory) fun row => { row with lastDescribedSeq := seq }).run before =
      .ok { before with
        memories := before.memories.update (fun row => decide (row.id ∈ memories))
          fun row => { row with lastDescribedSeq := seq } } := by
  induction memories generalizing before with
  | nil => rw [Script.run_forEach_nil, Table.update_eq_self (by simp)]
  | cons memory rest ih =>
    rw [Script.run_forEach_cons_ok]
    refine ⟨_, rfl, ?_⟩
    rw [ih]
    congr 2
    apply Table.ext
    simp only [Table.rows_update, List.map_map]
    apply List.map_congr_left
    intro row _
    by_cases here : row.id = memory
    · simp [here]
    · simp [here]

private theorem run_supersedeEntries {sources : List EntryId} {replacement : EntryId}
    (ran : (Script.forEach sources fun source => supersedeEntry source replacement).run before =
      .ok projected) :
    projected.entries = before.entries.update (fun row => decide (row.entryId ∈ sources))
      fun row => { row with supersededBy := some replacement } := by
  induction sources generalizing before with
  | nil =>
    cases ran
    exact (Table.update_eq_self (by simp)).symm
  | cons source rest ih =>
    obtain ⟨middle, first, remaining⟩ := Script.run_forEach_cons_ok.mp ran
    obtain ⟨_, rfl⟩ := supersedeEntry_ok.mp first
    rw [ih remaining]
    apply Table.ext
    simp only [Table.rows_update, List.map_map]
    apply List.map_congr_left
    intro row _
    by_cases here : row.entryId = source
    · simp [here]
    · simp [here]

private theorem rows_reclassedIfSameAs {relation : RelationName} {linked : Graph}
    (columns : ∀ row, memoryColumns event row = row)
    (decides : recomputes event before = decide (relation = .sameAs))
    (memories : linked.memories = before.memories)
    (links : linked.links = linksAfter event before) :
    (reclassedIfSameAs relation linked).memories.rows =
      before.memories.rows.map (memoryChange event before) := by
  -- the classes are recomputed over the columns as the event leaves them
  have basis : linked.memories = (classBasis event before).memories := by
    rw [memories, classBasis, Table.update_eq_self fun row _ _ => columns row]
  unfold reclassedIfSameAs
  split
  · rename_i same
    simp only [Table.rows_update, if_true, memories]
    apply List.map_congr_left
    intro row _
    simp only [memoryChange, decides, same, decide_true, if_true, columns]
    exact congrFun (reclassed_congr basis links) row
  · rename_i other
    rw [memories]
    conv_lhs => rw [← List.map_id before.memories.rows]
    apply List.map_congr_left
    intro row _
    simp [memoryChange, decides, other, columns]

private theorem project_memories (ran : (project event).run before = .ok projected) :
    projected.memories.rows =
      before.memories.rows.map (memoryChange event before) ++ (createdMemory event).toList := by
  cases payload : event.payload with
  | genesisCompleted | memoryVolatilitySet =>
    simp only [project, payload, Script.run_statement] at ran
    cases ran
    simp [memoryChange, memoryColumns, recomputes, writesSameAs, createdMemory, payload]
  | describePassCompleted =>
    simp only [project, payload, run_describePasses] at ran
    cases ran
    simp [memoryChange, memoryColumns, recomputes, writesSameAs, createdMemory, payload]
  | memoryCreated =>
    simp only [project, payload, Script.run_exec_ok, insertMemory_ok, Script.run_statement] at ran
    obtain ⟨_, ⟨memories, inserted, _, _, rfl⟩, indexed⟩ := ran
    cases indexed
    have change : memoryChange event before = fun row => row := by
      funext row
      simp [memoryChange, memoryColumns, recomputes, writesSameAs, payload]
    simp [change, createdMemory, payload, Table.rows_insert inserted]
  | memoryRenamed =>
    simp only [project, payload, Script.run_exec_ok, renameMemory_ok, replaceAlias_ok,
      Script.run_statement] at ran
    obtain ⟨_, ⟨_, rfl⟩, _, indexed, _, ⟨_, rfl⟩, aliased⟩ := ran
    cases indexed
    cases aliased
    simp [memoryChange, memoryColumns, recomputes, writesSameAs, createdMemory, payload]
  | memoryDeleted =>
    simp only [project, payload, Script.run_exec_ok, Script.run_statement] at ran
    obtain ⟨_, deleted, _, participants, _, sessions, conversations⟩ := ran
    cases deleted
    cases participants
    cases sessions
    cases conversations
    simp [memoryChange, memoryColumns, recomputes, writesSameAs, createdMemory, payload]
  | memoryContentAppended =>
    simp only [project, payload, Script.run_read, Script.run_exec_ok, insertEntry_ok,
      insertAttestation_ok] at ran
    obtain ⟨_, ⟨_, _, _, rfl⟩, _, ⟨_, _, _, rfl⟩, _, touched, indexed⟩ := ran
    cases touched
    split at indexed <;> cases indexed <;> simp [memoryChange, memoryColumns, recomputes, writesSameAs, createdMemory, payload]
  | memoryDescriptionRegenerated =>
    simp only [project, payload, Script.run_exec_ok, Script.run_statement] at ran
    obtain ⟨_, described, indexed⟩ := ran
    cases described
    cases indexed
    simp [memoryChange, memoryColumns, recomputes, writesSameAs, createdMemory, payload]
  -- a designation writes its flag and recomputes every class
  | classPrimaryDesignated memory designated =>
    simp only [project, payload, Script.run_exec_ok, run_recomputeClasses] at ran
    obtain ⟨_, marked, recomputed⟩ := ran
    cases marked
    cases recomputed
    have columns : memoryColumns event = fun row =>
        if row.id = memory then { row with designatedPrimary := designated } else row := by
      funext row
      simp only [memoryColumns, payload]
    simp only [createdMemory, payload, Option.toList_none, List.append_nil, Table.rows_update,
      List.map_map, if_true]
    apply List.map_congr_left
    intro row _
    simp only [memoryChange, recomputes, payload, if_true, columns, Function.comp,
      decide_eq_true_eq]
    refine congrFun (reclassed_congr (Table.ext ?_) ?_) _
    · simp [classBasis, columns]
    · simp [classBasis, linksAfter, payload]
  | linkCreated =>
    simp only [project, payload, Script.run_read, Script.run_exec_ok, upsertLink_ok,
      run_recomputeIfSameAs] at ran
    obtain ⟨_, ⟨_, rfl⟩, recomputed⟩ := ran
    cases recomputed
    simp only [createdMemory, payload, Option.toList_none, List.append_nil]
    -- a link recomputes them when its canonical edge is an identity
    apply rows_reclassedIfSameAs
    · intro row
      simp only [memoryColumns, payload]
    · simp only [recomputes, writesSameAs, payload]
    · rfl
    · simp only [linksAfter, payload]
  | linkRemoved =>
    simp only [project, payload, Script.run_read, Script.run_exec_ok, run_recomputeIfSameAs] at ran
    obtain ⟨_, wrote, recomputed⟩ := ran
    cases wrote
    cases recomputed
    simp only [createdMemory, payload, Option.toList_none, List.append_nil]
    apply rows_reclassedIfSameAs
    · intro row
      simp only [memoryColumns, payload]
    · simp only [recomputes, writesSameAs, payload]
    · rfl
    · simp only [linksAfter, payload]
  | _ =>
    have change : memoryChange event before = fun row => row := by
      funext row
      simp [memoryChange, memoryColumns, recomputes, writesSameAs, payload]
    -- the other arms do not write the memories
    rw [show projected.memories = before.memories from
      (project_frame ran).memories (by simp [footprint, payload])]
    simp [change, createdMemory, payload]

private theorem project_entries (ran : (project event).run before = .ok projected) :
    projected.entries.rows =
      before.entries.rows.map (entryChange event before) ++ (appendedRow event before).toList := by
  cases payload : event.payload with
  | memoryContentAppended =>
    simp only [project, payload, Script.run_read, Script.run_exec_ok, insertEntry_ok,
      insertAttestation_ok] at ran
    obtain ⟨_, ⟨_, inserted, _, rfl⟩, _, ⟨_, _, _, rfl⟩, _, touched, indexed⟩ := ran
    cases touched
    have change : entryChange event before = fun row => row := by
      funext row
      simp [entryChange, payload]
    have rows := Table.rows_insert inserted
    split at indexed <;> cases indexed <;> simp [change, appendedRow, payload, rows]
  | memorySuperseded =>
    simp only [project, payload, Script.run_statement, supersedeEntry_ok] at ran
    obtain ⟨_, rfl⟩ := ran
    simp [entryChange, appendedRow, payload]
  | entriesConsolidated =>
    simp only [project, payload] at ran
    rw [run_supersedeEntries ran]
    simp [entryChange, appendedRow, payload]
  | entryRetracted memory entry reason producedBy =>
    simp only [project, payload, Script.run_exec_ok, Script.run_statement] at ran
    obtain ⟨_, tombstoned, withdrawn⟩ := ran
    cases tombstoned
    cases withdrawn
    simp only [appendedRow, payload, Option.toList_none, List.append_nil, Table.rows_update]
    apply List.map_congr_left
    intro row _
    by_cases here : row.entryId = entry
    · simp [entryChange, payload, here, EntryRow.tombstone]
    · simp [entryChange, payload, here]
  | attestationRetracted memory entry teller reason producedBy =>
    simp only [project, payload, Script.run_exec_ok, Script.run_read] at ran
    obtain ⟨withdrawn, updated, tombstoned⟩ := ran
    cases updated
    -- what the arm reads back says whether another teller still stands behind the entry
    have remaining : (before.attestations.update (fun row => decide (row.key = (entry, teller)))
          fun row => { row with retractedReason := some reason }).rows.any
          (liveAttestationOf entry) = !withdrawsLast before entry teller := by
      rw [withdrawsLast, Bool.not_not, Table.rows_update, List.any_map]
      apply congrArg (fun test => before.attestations.rows.any test)
      funext row
      by_cases owner : row.entryId = entry
      · by_cases same : row.teller = teller
        · simp [owner, same, liveAttestationOf]
        · simp [owner, same, liveAttestationOf]
      · simp [owner, liveAttestationOf]
    simp only [remaining] at tombstoned
    simp only [appendedRow, payload, Option.toList_none, List.append_nil]
    cases last : withdrawsLast before entry teller with
    | false =>
      simp only [last, Bool.not_false, if_true] at tombstoned
      cases tombstoned
      have change : entryChange event before = fun row => row := by
        funext row
        simp [entryChange, payload, last]
      simp [change]
    | true =>
      simp only [last, Bool.not_true, Bool.false_eq_true, if_false] at tombstoned
      rw [Script.run_statement] at tombstoned
      cases tombstoned
      simp only [Table.rows_update]
      apply List.map_congr_left
      intro row _
      by_cases here : row.entryId = entry
      · simp [here, entryChange, payload, last, EntryRow.tombstone]
      · simp [here, entryChange, payload]
  | entryDescriptionMirrored | scheduledJobFired | scheduledItemSurfaced =>
    simp only [project, payload, Script.run_statement] at ran
    cases ran
    simp [entryChange, appendedRow, payload]
  | entryTemporalResolved id entry occurredAt producedBy =>
    simp only [project, payload, Script.run_exec_ok, Script.run_read] at ran
    obtain ⟨_, resolved, disarmed⟩ := ran
    cases resolved
    simp only [appendedRow, payload, Option.toList_none, List.append_nil]
    cases occurredAt with
    | none =>
      simp only [Option.isNone_none, if_true, Script.run_statement] at disarmed
      cases disarmed
      simp only [Table.rows_update, List.map_map]
      apply List.map_congr_left
      intro row _
      by_cases here : row.entryId = entry
      · simp [here, entryChange, payload]
      · simp [here, entryChange, payload]
    | some =>
      simp only [Option.isNone_some, Bool.false_eq_true, if_false] at disarmed
      cases disarmed
      simp only [Table.rows_update]
      apply List.map_congr_left
      intro row _
      by_cases here : row.entryId = entry
      · simp [here, entryChange, payload]
      · simp [here, entryChange, payload]
  | _ =>
    have change : entryChange event before = fun row => row := by
      funext row
      simp [entryChange, payload]
    -- the other arms do not write the entries
    rw [show projected.entries = before.entries from
      (project_frame ran).entries (by simp [footprint, payload])]
    simp [change, appendedRow, payload]

private theorem project_attestations (ran : (project event).run before = .ok projected) :
    projected.attestations.rows =
      before.attestations.rows.map (attestationChange event) ++
        (addedAttestation event before).toList := by
  cases payload : event.payload with
  | memoryContentAppended id entryId assertedAt occurredAt text toldBy toldIn visibility =>
    simp only [project, payload, Script.run_read, Script.run_exec_ok, insertEntry_ok,
      insertAttestation_ok] at ran
    obtain ⟨_, ⟨_, _, _, rfl⟩, _, ⟨_, inserted, _, rfl⟩, _, touched, indexed⟩ := ran
    cases touched
    have fresh : before.attestations.contains (entryId, toldBy) = false :=
      Table.fresh_of_insert inserted
    have rows := Table.rows_insert inserted
    have change : attestationChange event = fun row =>
        if row.key = (entryId, toldBy) then
          AttestationRow.mergeFrom
            { entryId, teller := toldBy, toldIn, assertedAt, posture := visibility,
              seq := event.seq } row
        else row := by
      funext row
      simp only [attestationChange, broughtAttestation, payload]
    rw [change, Table.map_of_fresh fresh]
    simp only [addedAttestation, broughtAttestation, payload, Option.filter_some, fresh,
      Bool.not_false, if_true, Option.toList_some]
    split at indexed <;> cases indexed <;> exact rows
  | entryRetracted =>
    simp only [project, payload, Script.run_exec_ok, Script.run_statement] at ran
    obtain ⟨_, tombstoned, withdrawn⟩ := ran
    cases tombstoned
    cases withdrawn
    simp [attestationChange, addedAttestation, broughtAttestation, payload]
  | attestationRetracted =>
    simp only [project, payload, Script.run_exec_ok, Script.run_read] at ran
    obtain ⟨withdrawn, updated, tombstoned⟩ := ran
    cases updated
    split at tombstoned <;> cases tombstoned <;>
      simp [attestationChange, addedAttestation, broughtAttestation, payload]
  | entryAttested memory entry teller toldIn assertedAt posture phrasing sourceEntry producedBy =>
    simp only [project, payload, Script.run_statement, upsertAttestation_ok] at ran
    obtain ⟨_, rfl⟩ := ran
    have change : attestationChange event = fun row =>
        if row.key = (entry, teller) then
          AttestationRow.mergeFrom
            { entryId := entry, teller, toldIn, assertedAt, posture, phrasing, sourceEntry,
              seq := event.seq } row
        else row := by
      funext row
      simp only [attestationChange, broughtAttestation, payload]
    rw [change, Table.rows_upsert]
    simp only [addedAttestation, broughtAttestation, payload, Option.filter_some]
    cases before.attestations.contains (entry, teller) <;> rfl
  | _ =>
    have change : attestationChange event = fun row => row := by
      funext row
      simp [attestationChange, broughtAttestation, payload]
    rw [show projected.attestations = before.attestations from
      (project_frame ran).attestations (by simp [footprint, payload])]
    simp [change, addedAttestation, broughtAttestation, payload]

theorem apply_frame (applied : apply event before = .ok after) :
    Frame (footprint event.payload) before { after with head := before.head } := by
  obtain ⟨projected, ran, rfl⟩ := apply_ok.mp applied
  have frame := project_frame ran
  exact { frame with head := rfl }

theorem head_of_apply (applied : apply event before = .ok after) : after.head = event.seq := by
  obtain ⟨projected, _, rfl⟩ := apply_ok.mp applied
  rfl

theorem apply_links (applied : apply event before = .ok after) :
    after.links = linksAfter event before := by
  obtain ⟨projected, ran, rfl⟩ := apply_ok.mp applied
  have written := project_links ran
  exact written

theorem apply_relations (applied : apply event before = .ok after) :
    after.relations = relationsAfter event before := by
  obtain ⟨projected, ran, rfl⟩ := apply_ok.mp applied
  have written := project_relations ran
  exact written

theorem apply_memories (applied : apply event before = .ok after) :
    after.memories.rows =
      before.memories.rows.map (memoryChange event before) ++ (createdMemory event).toList := by
  obtain ⟨projected, ran, rfl⟩ := apply_ok.mp applied
  have written := project_memories ran
  exact written

theorem apply_entries (applied : apply event before = .ok after) :
    after.entries.rows =
      before.entries.rows.map (entryChange event before) ++ (appendedRow event before).toList := by
  obtain ⟨projected, ran, rfl⟩ := apply_ok.mp applied
  have written := project_entries ran
  exact written

theorem apply_attestations (applied : apply event before = .ok after) :
    after.attestations.rows =
      before.attestations.rows.map (attestationChange event) ++
        (addedAttestation event before).toList := by
  obtain ⟨projected, ran, rfl⟩ := apply_ok.mp applied
  have written := project_attestations ran
  exact written

theorem mem_memories_apply (applied : apply event before = .ok after) {row : MemoryRow} :
    row ∈ after.memories ↔
      (∃ old ∈ before.memories, row = memoryChange event before old) ∨
        createdMemory event = some row := by
  simp [Table.mem_def, apply_memories applied, eq_comm (a := row)]

theorem mem_entries_apply (applied : apply event before = .ok after) {row : EntryRow} :
    row ∈ after.entries ↔
      (∃ old ∈ before.entries, row = entryChange event before old) ∨
        appendedRow event before = some row := by
  simp [Table.mem_def, apply_entries applied, eq_comm (a := row)]

theorem mem_attestations_apply (applied : apply event before = .ok after) {row : AttestationRow} :
    row ∈ after.attestations ↔
      (∃ old ∈ before.attestations, row = attestationChange event old) ∨
        addedAttestation event before = some row := by
  simp [Table.mem_def, apply_attestations applied, eq_comm (a := row)]

theorem memoryRow_apply (applied : apply event before = .ok after) (id : MemoryId) :
    after.memoryRow id =
      ((before.memoryRow id).map (memoryChange event before)).or
        ((createdMemory event).filter fun row => row.id = id) :=
  Table.find_of_rows (apply_memories applied) (memoryChange_id event before) id

theorem created_of_apply (applied : apply event before = .ok after) {row : MemoryRow}
    (created : createdMemory event = some row) :
    before.memories.contains row.id = false ∧ ∀ other ∈ before.memories, other.name ≠ row.name := by
  obtain ⟨projected, ran, rfl⟩ := apply_ok.mp applied
  cases payload : event.payload with
  | memoryCreated =>
    simp only [project, payload, Script.run_exec_ok, insertMemory_ok] at ran
    obtain ⟨_, ⟨_, inserted, free, _, rfl⟩, _⟩ := ran
    simp only [createdMemory, payload, Option.some.injEq] at created
    subst created
    exact ⟨Table.fresh_of_insert inserted, free⟩
  | _ => simp [createdMemory, payload] at created

theorem appended_of_apply (applied : apply event before = .ok after) {row : EntryRow}
    (appended : appendedRow event before = some row) :
    before.memories.contains row.memoryId = true ∧
      before.entries.contains row.entryId = false ∧
      before.attestations.contains (row.entryId, row.toldBy) = false := by
  obtain ⟨projected, ran, rfl⟩ := apply_ok.mp applied
  cases payload : event.payload with
  | memoryContentAppended =>
    simp only [project, payload, Script.run_read, Script.run_exec_ok, insertEntry_ok,
      insertAttestation_ok] at ran
    obtain ⟨_, ⟨_, inserted, parent, rfl⟩, _, ⟨_, endorsed, _, rfl⟩, _⟩ := ran
    simp only [appendedRow, payload, Option.some.injEq] at appended
    subst appended
    exact ⟨parent, Table.fresh_of_insert inserted, Table.fresh_of_insert endorsed⟩
  | _ => simp [appendedRow, payload] at appended

end Arms

end Zuihitsu.Graph
