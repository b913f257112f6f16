/-
# What link inference does to the registry and to the identity classes

A reply proposes relation types, and its sentences may use them at once. Whether a label
is free is asked of the snapshot and by names alone, whether a proposal is registered is
asked of its cardinalities as well, and the fold goes by the first relation that carries a
label, as its name or as its inverse. What a label meant before the pass it means after it.
The main result says when a sentence can be read back as it was given.
-/

import Zuihitsu.Block.FreeMerge
import Zuihitsu.Inference.Rows
import Mathlib.Data.List.TakeWhile

namespace Zuihitsu.Inference

open Zuihitsu.Core Zuihitsu.Graph Zuihitsu.Library

/-! ### The registry over a pass -/

/-- A registry with the registrations of the replies. -/
def registryWith (relations : Table RelationRow.name) (readings : List Reading) :
    Table RelationRow.name :=
  readings.foldl (fun relations reading => reading.registers relations) relations

/-- A registry has the relations of another one first, as they are. -/
def Extends (base relations : Table RelationRow.name) : Prop :=
  ∃ extra, relations.rows = base.rows ++ extra

section Growing

variable {base relations : Table RelationRow.name} {label : RelationName}
variable {payload : EventPayload} {payloads : List EventPayload} {graph : Graph}
variable {reading : Reading} {readings : List Reading} {replies : List (MemoryId × Reply)}

theorem Extends.refl (base : Table RelationRow.name) : Extends base base := ⟨[], by simp⟩

theorem Extends.find_eq (extends' : Extends base relations)
    (known : resolvesLabel base label = true) :
    relations.rows.find? (RelationRow.carries label) =
      base.rows.find? (RelationRow.carries label) := by
  obtain ⟨extra, grown⟩ := extends'
  obtain ⟨row, found⟩ := Option.isSome_iff_exists.mp (List.find?_isSome.mpr
    (List.any_eq_true.mp known))
  rw [grown, List.find?_append, found, Option.some_or]

theorem Extends.registryAfter (extends' : Extends base relations)
    (fresh : ∀ name inverse fromCard toCard symmetric reflexive description,
      payload = .linkTypeRegistered name inverse fromCard toCard symmetric reflexive description →
        base.contains name = false) :
    Extends base (registryAfter relations payload) := by
  obtain ⟨extra, grown⟩ := extends'
  cases payload with
  | linkTypeRegistered name inverse fromCard toCard symmetric reflexive description =>
    have free : base.contains name = false := fresh _ _ _ _ _ _ _ rfl
    let merge : RelationRow → RelationRow := fun old =>
      { name := old.name, inverse, fromCard, toCard, symmetric, reflexive, description }
    refine ⟨(extra.map fun row => if row.name = name then merge row else row) ++
      if relations.contains name then [] else
        [⟨name, inverse, fromCard, toCard, symmetric, reflexive, description⟩], ?_⟩
    rw [Graph.registryAfter, Table.rows_upsert, grown, List.map_append, List.append_assoc]
    exact congrArg (· ++ _) (Table.map_of_fresh free merge)
  | _ => exact ⟨extra, grown⟩

theorem fresh_of_registration {id : MemoryId} {context : InferenceContext} {spec : NewRelationSpec}
    (seen : contextOf graph id = some context) (registers : registration context spec = some payload)
    {name inverse : RelationName} {fromCard toCard : Cardinality} {symmetric reflexive : Bool}
    {description : String}
    (same : payload =
      .linkTypeRegistered name inverse fromCard toCard symmetric reflexive description) :
    graph.relations.contains name = false := by
  subst same
  have listed : context.relations = allRelations graph := by
    obtain ⟨memory, _, made⟩ := Option.bind_eq_some_iff.mp seen
    dsimp only at made
    split at made
    · cases made
    · cases made
      rfl
  unfold registration at registers
  dsimp only at registers
  split at registers
  · cases registers
  split at registers
  · cases registers
  rename_i unlisted
  obtain ⟨_, _, mapped⟩ := Option.bind_eq_some_iff.mp registers
  obtain ⟨_, _, made⟩ := Option.map_eq_some_iff.mp mapped
  cases made
  refine Table.contains_eq_false_iff.mpr fun row member same => unlisted ?_
  rw [listed]
  refine List.any_eq_true.mpr ⟨row, (List.mem_insertionSort _).mpr member, ?_⟩
  rw [decide_eq_true_eq, same]

theorem extends_registers (extends' : Extends graph.relations relations)
    (still : reading.seen = graph) : Extends graph.relations (reading.registers relations) := by
  have fresh : ∀ payload ∈ reading.registrations,
      ∀ name inverse fromCard toCard symmetric reflexive description,
        payload = .linkTypeRegistered name inverse fromCard toCard symmetric reflexive description →
          graph.relations.contains name = false := by
    intro payload member name inverse fromCard toCard symmetric reflexive description same
    obtain ⟨context, _, seen, _, _, _, registers⟩ := mem_registrations member
    rw [still] at seen
    exact fresh_of_registration seen registers same
  unfold Reading.registers
  generalize reading.registrations = registrations at fresh ⊢
  induction registrations generalizing relations with
  | nil => exact extends'
  | cons payload rest ih =>
    obtain ⟨here, later⟩ := List.forall_mem_cons.mp fresh
    exact ih (extends'.registryAfter here) later

theorem extends_registryWith (extends' : Extends graph.relations relations) :
    Extends graph.relations (registryWith relations (still graph replies)) := by
  induction replies generalizing relations with
  | nil => exact extends'
  | cons reply rest ih => exact ih (extends_registers extends' rfl)

theorem registers_contains {name : RelationName} (there : relations.contains name = true) :
    (reading.registers relations).contains name = true := by
  unfold Reading.registers
  induction reading.registrations generalizing relations with
  | nil => exact there
  | cons payload rest ih =>
    refine ih ?_
    unfold Graph.registryAfter
    split
    · exact Table.contains_upsert_of_contains there
    · exact there

theorem registryWith_contains {name : RelationName} (there : relations.contains name = true) :
    (registryWith relations readings).contains name = true := by
  induction readings generalizing relations with
  | nil => exact there
  | cons reading rest ih => exact ih (registers_contains there)

theorem filed_contains {filed : Filed} {name : RelationName}
    (member : filed ∈ filedUnder relations readings)
    (there : filed.relations.contains name = true) :
    (registryWith relations readings).contains name = true := by
  induction readings generalizing relations with
  | nil => cases member
  | cons reading rest ih =>
    rcases List.mem_append.mp member with here | later
    · obtain ⟨draft, _, rfl⟩ := List.mem_map.mp here
      have kept : (registryWith (reading.registers relations) rest).contains name = true :=
        registryWith_contains there
      exact kept
    · exact ih later

theorem registry_inferLinks :
    (inferLinks readings).foldl registryAfter relations = registryWith relations readings := by
  induction readings generalizing relations with
  | nil => rfl
  | cons reading rest ih =>
    have drafted : ∀ (drafts : List LinkDraft) (relations : Table RelationRow.name),
        (drafts.map LinkDraft.event).foldl registryAfter relations = relations := by
      intro drafts
      induction drafts with
      | nil => exact fun _ => rfl
      | cons draft drafts ih => exact ih
    have one : reading.events.foldl registryAfter relations = reading.registers relations := by
      rcases reading.events_cases with ⟨none', unregistered, _⟩ | whole
      · rw [none', Reading.registers, unregistered]
      · rw [whole, List.foldl_cons, List.foldl_append, drafted]
        rfl
    rw [inferLinks, List.flatMap_cons, ← inferLinks, List.foldl_append, one]
    exact ih

end Growing

/-! ### Passes that fold whole -/

/-- Every link among some events is under a label that a relation carries by then. -/
def Carried : Table RelationRow.name → List EventPayload → Prop
  | _, [] => True
  | relations, payload :: rest =>
    (∀ label, linkLabel payload = some label → resolvesLabel relations label = true) ∧
      Carried (registryAfter relations payload) rest

section Whole

variable {graph after : Graph} {payloads more : List EventPayload} {recordedAt : Timestamp}
variable {relations : Table RelationRow.name} {readings : List Reading}
variable {edge : MemoryId × MemoryId × RelationName}

theorem commit_iff_carried (reachable : Reachable graph) {source : EventSource}
    (ofPass : ∀ payload ∈ payloads, OfPass graph payload) :
    (∃ after, commit recordedAt source payloads graph = .ok after) ↔
      Carried graph.relations payloads := by
  induction payloads generalizing graph with
  | nil => simp [Carried]
  | cons payload rest ih =>
    obtain ⟨here, later⟩ := List.forall_mem_cons.mp ofPass
    have folds := @applies_of_pass graph ⟨graph.head + 1, recordedAt, source, payload⟩ reachable here
    have further : ∀ middle, apply ⟨graph.head + 1, recordedAt, source, payload⟩ graph = .ok middle →
        ((∃ after, commit recordedAt source rest middle = .ok after) ↔
          Carried (registryAfter graph.relations payload) rest) := by
      intro middle applied
      have grown : ∀ other ∈ rest, OfPass middle other := fun other member =>
        (later other member).grows fun id known => contains_memory_apply known applied
      rw [ih (reachable.apply rfl applied) grown, relations_apply applied]
    simp only [commit_cons_ok, Carried]
    constructor
    · rintro ⟨after, middle, applied, committed⟩
      exact ⟨folds.mp ⟨middle, applied⟩, (further middle applied).mp ⟨after, committed⟩⟩
    · rintro ⟨carried, remaining⟩
      obtain ⟨middle, applied⟩ := folds.mpr carried
      obtain ⟨after, committed⟩ := (further middle applied).mpr remaining
      exact ⟨after, middle, applied, committed⟩

theorem carried_unlinked (unlinked : ∀ payload ∈ payloads, linkLabel payload = none) :
    Carried relations (payloads ++ more) ↔ Carried (payloads.foldl registryAfter relations) more := by
  induction payloads generalizing relations with
  | nil => rfl
  | cons payload rest ih =>
    obtain ⟨here, later⟩ := List.forall_mem_cons.mp unlinked
    rw [List.cons_append, List.foldl_cons, Carried, ih later]
    refine and_iff_right fun label links => ?_
    rw [here] at links
    cases links

theorem carried_drafts {drafts : List LinkDraft} :
    Carried relations (drafts.map LinkDraft.event ++ more) ↔
      (∀ filed ∈ drafts.map (Filed.mk relations), filed.known = true) ∧ Carried relations more := by
  induction drafts with
  | nil => simp
  | cons draft drafts ih =>
    rw [List.map_cons, List.cons_append, Carried, List.map_cons, List.forall_mem_cons, and_assoc]
    refine and_congr ?_ ih
    simp [LinkDraft.event, linkLabel, Filed.known]

theorem carried_inferLinks : Carried relations (inferLinks readings) ↔
    ∀ filed ∈ filedUnder relations readings, filed.known = true := by
  induction readings generalizing relations with
  | nil => simp [inferLinks, Carried, filedUnder]
  | cons reading rest ih =>
    have following := @ih (reading.registers relations)
    rw [inferLinks, List.flatMap_cons, ← inferLinks, filedUnder, List.forall_mem_append]
    rcases reading.events_cases with ⟨none', unregistered, undrafted⟩ | whole
    · simpa [none', undrafted, Reading.registers, unregistered] using following
    · rw [whole, List.cons_append, List.append_assoc, Carried, and_iff_right (by rintro _ ⟨⟩)]
      exact (carried_unlinked reading.unlinked_registrations).trans
        (carried_drafts.trans (and_congr_right' following))

theorem stored_iff (reachable : Reachable graph)
    (ofPass : ∀ payload ∈ inferLinks readings, OfPass graph payload)
    (committed : commit recordedAt .orchestration (inferLinks readings) graph = .ok after) :
    (∃ row ∈ after.links, row.key = edge) ↔
      (∃ filed ∈ filedUnder graph.relations readings, filed.edge = edge) ∨
        ∃ row ∈ graph.links, row.key = edge := by
  have at_iff : ∀ graph : Graph,
      (postureAt graph edge).isSome = true ↔ ∃ row ∈ graph.links, row.key = edge := by
    intro graph
    rw [postureAt, Option.isSome_map, Table.find_isSome_iff]
  have known := carried_inferLinks.mp ((commit_iff_carried reachable ofPass).mp ⟨after, committed⟩)
  have whole : storedEdges graph.relations (inferLinks readings) =
      (filedUnder graph.relations readings).map Filed.edge := by
    rw [storedEdges_inferLinks, List.takeWhile_eq_self_iff.mpr known]
  obtain ⟨stores, leaves⟩ := @postureAt_foldUntil graph (inferLinks readings) recordedAt
    .orchestration edge reachable ofPass
  rw [foldUntil_of_commit committed, whole, List.mem_map] at stores leaves
  rw [← at_iff after, ← at_iff graph]
  by_cases lands : ∃ filed ∈ filedUnder graph.relations readings, filed.edge = edge
  · rw [stores lands]
    exact iff_of_true rfl (.inl lands)
  · rw [leaves lands]
    exact (or_iff_right lands).symm

end Whole

/-! ### What a pass leaves undisturbed -/

/-- The edge a sentence is stored on is the one its own ends and label lead to. -/
structure ReadsBack (after : Graph) (filed : Filed) : Prop where
  stored : ∃ row ∈ after.links, row.key = filed.edge
  read : canonicalEdge after filed.draft.subject filed.draft.object filed.draft.label = filed.edge

/-- The classes are the same, every label that was registered means the same relation, and the
sentences read back as they were given. -/
structure Undisturbed (before after : Graph) (sentences : List Filed) : Prop where
  classes : SamePartition before after
  labels : ∀ label, resolvesLabel before.relations label = true →
    after.relation label = before.relation label
  sentences : ∀ filed ∈ sentences, ReadsBack after filed

/-- The relation a sentence is linked under when it folds, and the one its label means under a
registry, are of one name and read its ends alike. -/
def Filed.ReadAlike (filed : Filed) (relations : Table RelationRow.name) : Prop :=
  ∃ stored meant : RelationRow,
    filed.relations.rows.find? (RelationRow.carries filed.draft.relation) = some stored ∧
    relations.rows.find? (RelationRow.carries filed.draft.label) = some meant ∧
    stored.name = meant.name ∧
    stored.KeepsEnds meant filed.draft.relation filed.draft.fromId filed.draft.toId
      filed.draft.label filed.draft.subject filed.draft.object

/-- A sentence that is stored as an identity link is about memories of one class. -/
def Filed.WithinClass (filed : Filed) (graph : Graph) : Prop :=
  canonicalLabel filed.relations filed.draft.relation = .sameAs →
    graph.classColumn filed.draft.subject = graph.classColumn filed.draft.object

section Sentences

variable {graph after : Graph} {filed : Filed} {readings : List Reading}
variable {relations : Table RelationRow.name} {recordedAt : Timestamp}

theorem Filed.known_of_found {stored : RelationRow}
    (found : filed.relations.rows.find? (RelationRow.carries filed.draft.relation) = some stored) :
    filed.known = true :=
  List.any_eq_true.mpr ⟨stored, List.mem_of_find?_eq_some found, List.find?_some found⟩

theorem Filed.found_of_known (known : filed.known = true) :
    ∃ stored, filed.relations.rows.find? (RelationRow.carries filed.draft.relation) = some stored :=
  Option.isSome_iff_exists.mp (List.find?_isSome.mpr (List.any_eq_true.mp known))

theorem LinkDraft.ends (draft : LinkDraft) :
    (draft.subject = draft.fromId ∧ draft.object = draft.toId) ∨
      (draft.subject = draft.toId ∧ draft.object = draft.fromId) := by
  unfold LinkDraft.fromId LinkDraft.toId
  cases draft.viaInverse with
  | true => exact .inr ⟨rfl, rfl⟩
  | false => exact .inl ⟨rfl, rfl⟩

theorem reads_iff (known : filed.known = true)
    (persists : ∀ name, filed.relations.contains name = true → after.relations.contains name = true) :
    canonicalEdge after filed.draft.subject filed.draft.object filed.draft.label = filed.edge ↔
      filed.ReadAlike after.relations := by
  obtain ⟨stored, found⟩ := Filed.found_of_known known
  have edge : filed.edge =
      ((stored.ends filed.draft.relation filed.draft.fromId filed.draft.toId).1,
        (stored.ends filed.draft.relation filed.draft.fromId filed.draft.toId).2, stored.name) :=
    canonicalEdge_of_relation found
  have alike : ∀ meant, stored.ends filed.draft.relation filed.draft.fromId filed.draft.toId =
      meant.ends filed.draft.label filed.draft.subject filed.draft.object ↔
        stored.KeepsEnds meant filed.draft.relation filed.draft.fromId filed.draft.toId
          filed.draft.label filed.draft.subject filed.draft.object :=
    fun meant => ends_eq_iff filed.draft.ends
  rw [edge]
  cases read : after.relation filed.draft.label with
  | none =>
    -- a label that nothing carries leads to no relation that is registered
    have uncarried : after.relations.rows.find? (RelationRow.carries filed.draft.label) = none := read
    refine iff_of_false (fun same => ?_) ?_
    · have unresolved : canonicalEdge after filed.draft.subject filed.draft.object
          filed.draft.label = (filed.draft.subject, filed.draft.object, filed.draft.label) := by
        unfold canonicalEdge
        unfold relation at read
        rw [read]
      rw [unresolved] at same
      have name : filed.draft.label = stored.name := congrArg (·.2.2) same
      obtain ⟨row, member, named⟩ := Table.contains_iff.mp
        (persists stored.name (Table.contains_of_mem (List.mem_of_find?_eq_some found)))
      refine List.find?_eq_none.mp uncarried row member ?_
      simp [RelationRow.carries, named, name]
    · rintro ⟨_, meant, _, here, _⟩
      rw [uncarried] at here
      cases here
  | some meant =>
    rw [canonicalEdge_of_relation read]
    constructor
    · intro same
      obtain ⟨first, second, name⟩ : _ ∧ _ ∧ _ := by simpa only [Prod.mk.injEq] using same
      exact ⟨stored, meant, found, read, name.symm, (alike meant).mp (Prod.ext first.symm second.symm)⟩
    · rintro ⟨other, given, here, there, name, ends⟩
      obtain rfl : stored = other := Option.some_inj.mp (found.symm.trans here)
      obtain rfl : meant = given := Option.some_inj.mp (read.symm.trans there)
      rw [(alike meant).mpr ends, name]

theorem mem_filedUnder (member : filed ∈ filedUnder relations readings) :
    ∃ reading ∈ readings, filed.draft ∈ reading.drafts := by
  induction readings generalizing relations with
  | nil => cases member
  | cons reading rest ih =>
    rcases List.mem_append.mp member with here | later
    · obtain ⟨draft, drafted, rfl⟩ := List.mem_map.mp here
      exact ⟨reading, List.mem_cons_self, drafted⟩
    · obtain ⟨other, otherMem, drafted⟩ := ih later
      exact ⟨other, List.mem_cons_of_mem _ otherMem, drafted⟩

theorem event_mem_inferLinks (member : filed ∈ filedUnder relations readings) :
    filed.draft.event ∈ inferLinks readings := by
  obtain ⟨reading, listed, drafted⟩ := mem_filedUnder member
  refine List.mem_flatMap.mpr ⟨reading, listed, ?_⟩
  rcases reading.events_cases with ⟨_, _, undrafted⟩ | whole
  · rw [undrafted] at drafted
    cases drafted
  · rw [whole]
    exact List.mem_cons_of_mem _ (List.mem_append_right _ (List.mem_map_of_mem drafted))

theorem filed_known (ofPass : ∀ payload ∈ inferLinks readings, OfPass graph payload)
    (member : filed ∈ filedUnder relations readings) :
    graph.memories.contains filed.draft.subject = true ∧
      graph.memories.contains filed.draft.object = true := by
  obtain ⟨fromThere, toThere, _⟩ := ofPass _ (event_mem_inferLinks member)
  rcases filed.draft.ends with ⟨subject, object⟩ | ⟨subject, object⟩
  · rw [subject, object]
    exact ⟨fromThere, toThere⟩
  · rw [subject, object]
    exact ⟨toThere, fromThere⟩

theorem Filed.edge_ends (filed : Filed) :
    (filed.edge.1 = filed.draft.subject ∧ filed.edge.2.1 = filed.draft.object) ∨
      (filed.edge.1 = filed.draft.object ∧ filed.edge.2.1 = filed.draft.subject) := by
  have stored := canonicalEdge_ends { relations := filed.relations } filed.draft.fromId
    filed.draft.toId filed.draft.relation
  rcases filed.draft.ends with ⟨subject, object⟩ | ⟨subject, object⟩
  · rw [subject, object]
    exact stored
  · rw [subject, object]
    exact stored.symm

theorem Filed.edge_label (filed : Filed) :
    filed.edge.2.2 = canonicalLabel filed.relations filed.draft.relation :=
  canonicalEdge_label _ _ _ _

theorem mem_sameAsEdges_key {edge : MemoryId × MemoryId} :
    edge ∈ sameAsEdges graph ↔ ∃ row ∈ graph.links, row.key = (edge.1, edge.2, .sameAs) := by
  rw [mem_sameAsEdges]
  refine exists_congr fun link => and_congr_right fun _ => ?_
  simp only [LinkRow.key, Prod.ext_iff]
  rw [and_comm, and_assoc]

theorem samePartition_iff (reachable : Reachable graph)
    (ofPass : ∀ payload ∈ inferLinks readings, OfPass graph payload)
    (committed : commit recordedAt .orchestration (inferLinks readings) graph = .ok after) :
    SamePartition graph after ↔
      ∀ filed ∈ filedUnder graph.relations readings, filed.WithinClass graph := by
  have later := reachable.commit committed
  have kept : ∀ id, graph.memories.contains id = true → after.memories.contains id = true :=
    fun id known => contains_memory_commit known committed
  constructor
  · intro same filed member identity
    obtain ⟨subject, object⟩ := filed_known ofPass member
    refine (same _ _ subject object).mp ((classColumn_eq_iff later (kept _ subject)
      (kept _ object)).mpr ?_)
    have linked : (filed.edge.1, filed.edge.2.1) ∈ sameAsEdges after := by
      obtain ⟨row, stored, key⟩ := (@stored_iff graph after recordedAt readings filed.edge reachable
        ofPass committed).mpr (.inl ⟨filed, member, rfl⟩)
      refine mem_sameAsEdges_key.mpr ⟨row, stored, ?_⟩
      rw [key, ← identity, ← filed.edge_label]
    have joined : UnionFind.Connected (sameAsEdges after) filed.edge.1 filed.edge.2.1 :=
      .rel _ _ linked
    rcases filed.edge_ends with ⟨first, second⟩ | ⟨first, second⟩
    · rwa [first, second] at joined
    · rw [first, second] at joined
      exact joined.symm
  · intro within first second firstKnown secondKnown
    rw [classColumn_eq_iff later (kept _ firstKnown) (kept _ secondKnown),
      classColumn_eq_iff reachable firstKnown secondKnown]
    constructor
    · refine UnionFind.Connected.of_edges fun edge member => ?_
      obtain ⟨row, stored, key⟩ := mem_sameAsEdges_key.mp member
      rcases (@stored_iff graph after recordedAt readings _ reachable ofPass committed).mp
        ⟨row, stored, key⟩ with ⟨filed, filedMem, lands⟩ | earlier
      · -- the new identity links stay within the classes there were
        have identity : canonicalLabel filed.relations filed.draft.relation = .sameAs := by
          rw [← filed.edge_label, lands]
        obtain ⟨subject, object⟩ := filed_known ofPass filedMem
        have joined := (classColumn_eq_iff reachable subject object).mp
          (within filed filedMem identity)
        have ends := filed.edge_ends
        rw [lands] at ends
        rcases ends with ⟨one, two⟩ | ⟨one, two⟩
        · rwa [← one, ← two] at joined
        · rw [← one, ← two] at joined
          exact joined.symm
      · exact .rel _ _ (mem_sameAsEdges_key.mpr earlier)
    · refine UnionFind.Connected.of_edges fun edge member => .rel _ _ ?_
      exact mem_sameAsEdges_key.mpr ((@stored_iff graph after recordedAt readings _ reachable ofPass
        committed).mpr (.inr (mem_sameAsEdges_key.mp member)))

end Sentences

/-- Over a graph that nobody else writes to, the events of the pass fold, keep the classes and
what every label means, and store each sentence the pass takes so that it reads back, exactly
when for each of these sentences the first relation that carries the label it is linked under
when it folds and the first that carries its own label after the pass are one relation and turn
its ends alike, and those that are stored as identity links are about memories of one class. -/
theorem inference_undisturbed_iff {graph : Graph} {replies : List (MemoryId × Reply)}
    (reachable : Reachable graph) (recordedAt : Timestamp) :
    (∃ after, commit recordedAt .orchestration (inferLinks (still graph replies)) graph = .ok after ∧
      Undisturbed graph after (filedUnder graph.relations (still graph replies))) ↔
      ∀ filed ∈ filedUnder graph.relations (still graph replies),
        filed.ReadAlike (registryWith graph.relations (still graph replies)) ∧
          filed.WithinClass graph := by
  have ofPass := ofPass_inferLinks (@still_observes graph replies)
  have registry : ∀ after, commit recordedAt .orchestration (inferLinks (still graph replies)) graph =
      .ok after → after.relations = registryWith graph.relations (still graph replies) := by
    intro after committed
    rw [relations_commit committed, registry_inferLinks]
  have persists : ∀ filed ∈ filedUnder graph.relations (still graph replies), ∀ name,
      filed.relations.contains name = true →
        (registryWith graph.relations (still graph replies)).contains name = true :=
    fun filed member name there => filed_contains member there
  constructor
  · rintro ⟨after, committed, undisturbed⟩ filed member
    have known := carried_inferLinks.mp ((commit_iff_carried reachable ofPass).mp
      ⟨after, committed⟩) filed member
    have reads := (undisturbed.sentences filed member).read
    have last := registry after committed
    rw [reads_iff known (last ▸ persists filed member), last] at reads
    exact ⟨reads, (samePartition_iff reachable ofPass committed).mp undisturbed.classes filed member⟩
  · intro meets
    have known : ∀ filed ∈ filedUnder graph.relations (still graph replies), filed.known = true := by
      intro filed member
      obtain ⟨_, _, found, _⟩ := (meets filed member).1
      exact Filed.known_of_found found
    obtain ⟨after, committed⟩ := (@commit_iff_carried graph _ recordedAt reachable .orchestration
      ofPass).mpr (carried_inferLinks.mpr known)
    have last := registry after committed
    refine ⟨after, committed, ?_, ?_, ?_⟩
    · exact (samePartition_iff reachable ofPass committed).mpr fun filed member =>
        (meets filed member).2
    · intro label resolves
      unfold relation
      rw [last]
      exact (extends_registryWith (.refl _)).find_eq resolves
    · intro filed member
      refine ⟨?_, ?_⟩
      · exact (stored_iff reachable ofPass committed).mpr (.inl ⟨filed, member, rfl⟩)
      · rw [reads_iff (known filed member) (last ▸ persists filed member), last]
        exact (meets filed member).1

/-! Of Dave it is told that Erin mentors him, and the model coins a relation for it. -/

namespace Mentors

def erin : MemoryId := ⟨1⟩
def dave : MemoryId := ⟨2⟩

def toldLog : List EventPayload :=
  [.linkTypeRegistered .sameAs .sameAs .many .many true false "",
    .memoryCreated erin ⟨"person/erin"⟩, .memoryCreated dave ⟨"person/dave"⟩,
    .memoryContentAppended dave ⟨11⟩ ⟨0⟩ none "is mentored by Erin" .agent none .public]

def told : Graph := ((commit ⟨0⟩ .agent toldLog Graph.fresh).toOption).getD Graph.fresh

theorem told_reachable : Reachable told := by
  have folds : commit ⟨0⟩ .agent toldLog Graph.fresh = .ok told := rfl
  exact Reachable.fresh.commit folds

/-- A reply that coins the relation with a cardinality, and the sentence it is for. -/
def coining (cardinality : String) : List (MemoryId × Reply) :=
  [(dave, .args
    { newRelations := [⟨"Mentor_Of", "mentored_by", cardinality, "many", false, false, ""⟩]
      links := [⟨1, "person/dave", "mentored_by", "person/erin"⟩] })]

/-- With a cardinality that does not parse the relation is dropped and the sentence is not, so
the graph refuses the pass's link. -/
theorem coined_refused : Reachable told ∧
    ¬∃ after, commit ⟨1⟩ .orchestration (inferLinks (still told (coining "several"))) told = .ok after ∧
      Undisturbed told after (filedUnder told.relations (still told (coining "several"))) := by
  refine ⟨told_reachable, ?_⟩
  rintro ⟨after, committed, _⟩
  have refused : (commit ⟨1⟩ .orchestration (inferLinks (still told (coining "several")))
      told).toOption = none := rfl
  rw [committed] at refused
  cases refused

/-- With one that does, the sentence reads back. -/
theorem coined_stored :
    ∃ after, commit ⟨1⟩ .orchestration (inferLinks (still told (coining "Many"))) told = .ok after ∧
      Undisturbed told after (filedUnder told.relations (still told (coining "Many"))) := by
  refine (inference_undisturbed_iff told_reachable ⟨1⟩).mpr fun filed member => ?_
  cases List.mem_singleton.mp member
  refine ⟨⟨_, _, rfl, rfl, rfl, rfl⟩, fun identity => ?_⟩
  exact absurd identity (by decide)

end Mentors

end Zuihitsu.Inference
