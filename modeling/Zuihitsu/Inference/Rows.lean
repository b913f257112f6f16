/-
# What link inference does to the links that are there

The pass compares a sentence with the links of its snapshot, by the ends the sentence
gives. The fold sorts the ends of a symmetric relation, goes by the registry it meets,
and overwrites the row that is there by then. The main result says which rows it
overwrites: those that a sentence it takes comes to be stored as. So it leaves every
link as it was exactly when these were all inferred links before.
-/

import Zuihitsu.Block.Interleaving
import Zuihitsu.Block.Pending
import Zuihitsu.Graph.Lookup
import Zuihitsu.Inference.Pass

namespace Zuihitsu.Inference

open Zuihitsu.Core Zuihitsu.Graph Zuihitsu.Library

/-! ### Edges and postures -/

/-- The posture of an inferred link. -/
def inferredPosture : LinkPosture := ⟨.inferred, none, none, .public⟩

/-- The posture of the link stored on an edge. -/
def postureAt (graph : Graph) (edge : MemoryId × MemoryId × RelationName) : Option LinkPosture :=
  (graph.links.find edge).map postureFromRow

/-- The edge a link is stored on under a registry. -/
def edgeUnder (relations : Table RelationRow.name) (fromId toId : MemoryId) (label : RelationName) :
    MemoryId × MemoryId × RelationName :=
  canonicalEdge { relations } fromId toId label

/-- The edges that the links among some events come to be stored on, up to the first one whose
label no relation carries: the graph refuses it. -/
def storedEdges : Table RelationRow.name → List EventPayload →
    List (MemoryId × MemoryId × RelationName)
  | _, [] => []
  | relations, payload :: rest =>
    match payload with
    | .linkCreated fromId toId label .. =>
      if resolvesLabel relations label then
        edgeUnder relations fromId toId label :: storedEdges relations rest
      else []
    | _ => storedEdges (registryAfter relations payload) rest

/-- The events of the pass: records, registrations, and inferred links between memories. -/
def OfPass (graph : Graph) : EventPayload → Prop
  | .linksInferred _ | .linkTypeRegistered .. => True
  | .linkCreated fromId toId _ source toldBy toldIn visibility =>
    graph.memories.contains fromId = true ∧ graph.memories.contains toId = true ∧
      (⟨source, toldBy, toldIn, visibility⟩ : LinkPosture) = inferredPosture
  | _ => False

section Folding

variable {graph before after : Graph} {payload : EventPayload} {payloads more : List EventPayload}
variable {recordedAt : Timestamp} {source : EventSource} {event : Event}
variable {edge : MemoryId × MemoryId × RelationName} {relations : Table RelationRow.name}
variable {fromId toId : MemoryId} {label : RelationName}

theorem edgeUnder_relations (graph : Graph) (fromId toId : MemoryId) (label : RelationName) :
    edgeUnder graph.relations fromId toId label = canonicalEdge graph fromId toId label := by
  have same : ({ relations := graph.relations } : Graph).relations = graph.relations := rfl
  rw [edgeUnder, canonicalEdge_congr same]

theorem OfPass.grows (ofPass : OfPass before payload)
    (kept : ∀ id, before.memories.contains id = true → after.memories.contains id = true) :
    OfPass after payload := by
  cases payload with
  | linkCreated =>
    obtain ⟨fromThere, toThere, posture⟩ := ofPass
    exact ⟨kept _ fromThere, kept _ toThere, posture⟩
  | linksInferred | linkTypeRegistered => trivial
  | _ => exact ofPass.elim

theorem postureAt_of_unlinked (applied : apply event before = .ok after)
    (ofPass : OfPass graph event.payload) (unlinked : linkLabel event.payload = none) :
    postureAt after edge = postureAt before edge := by
  have same : after.links = before.links := by
    rw [apply_links applied]
    cases payload : event.payload <;> simp_all [linksAfter, OfPass, linkLabel]
  rw [postureAt, postureAt, same]

theorem postureAt_of_linked (applied : apply event before = .ok after)
    {author : LinkSource} {toldBy : Option Teller} {toldIn : Option ConversationRef}
    {visibility : Visibility}
    (payload : event.payload = .linkCreated fromId toId label author toldBy toldIn visibility) :
    postureAt after edge =
      if edge = edgeUnder before.relations fromId toId label then
        some ⟨author, toldBy, toldIn, visibility⟩
      else postureAt before edge := by
  rw [postureAt, postureAt, apply_links applied, edgeUnder_relations]
  simp only [linksAfter, payload]
  rw [Table.find_upsert]
  by_cases here : edge = canonicalEdge before fromId toId label
  · rw [if_pos here, if_pos here.symm]
    cases before.links.find edge <;> rfl
  · rw [if_neg here, if_neg fun same => here same.symm]

theorem applies_of_pass (reachable : Reachable before) (ofPass : OfPass before event.payload) :
    (∃ after, apply event before = .ok after) ↔
      ∀ label, linkLabel event.payload = some label → resolvesLabel before.relations label = true := by
  constructor
  · rintro ⟨after, applied⟩ label links
    cases payload : event.payload with
    | linkCreated =>
      rw [payload] at links
      cases links
      exact resolvesLabel_of_apply reachable applied payload
    | linkRemoved =>
      rw [payload] at ofPass
      exact ofPass.elim
    | _ =>
      rw [payload] at links
      cases links
  · intro resolves
    refine apply_of_applicable reachable.attested ?_
    cases payload : event.payload with
    | linkCreated fromId toId given author toldBy toldIn visibility =>
      rw [payload] at ofPass resolves
      exact ⟨ofPass.1, ofPass.2.1, resolves given rfl⟩
    | linksInferred | linkTypeRegistered => trivial
    | _ =>
      rw [payload] at ofPass
      exact ofPass.elim

theorem postureAt_foldUntil (reachable : Reachable graph)
    (ofPass : ∀ payload ∈ payloads, OfPass graph payload) :
    (edge ∈ storedEdges graph.relations payloads →
      postureAt (foldUntil recordedAt source payloads graph).1 edge = some inferredPosture) ∧
    (edge ∉ storedEdges graph.relations payloads →
      postureAt (foldUntil recordedAt source payloads graph).1 edge = postureAt graph edge) := by
  induction payloads generalizing graph with
  | nil => simp [foldUntil, storedEdges]
  | cons payload rest ih =>
    obtain ⟨here, later⟩ := List.forall_mem_cons.mp ofPass
    have folds := @applies_of_pass graph ⟨graph.head + 1, recordedAt, source, payload⟩ reachable here
    -- once the first event folds, the rest is folded over what it leaves
    have further : ∀ middle, apply ⟨graph.head + 1, recordedAt, source, payload⟩ graph = .ok middle →
        (edge ∈ storedEdges (registryAfter graph.relations payload) rest →
          postureAt (foldUntil recordedAt source (payload :: rest) graph).1 edge =
            some inferredPosture) ∧
        (edge ∉ storedEdges (registryAfter graph.relations payload) rest →
          postureAt (foldUntil recordedAt source (payload :: rest) graph).1 edge =
            postureAt middle edge) := by
      intro middle applied
      have grown : ∀ other ∈ rest, OfPass middle other := fun other member =>
        (later other member).grows fun id known => contains_memory_apply known applied
      have rest := ih (reachable.apply rfl applied) grown
      rw [relations_apply applied] at rest
      simpa only [foldUntil, applied] using rest
    cases payload with
    | linkCreated fromId toId label author toldBy toldIn visibility =>
      by_cases resolves : resolvesLabel graph.relations label = true
      · obtain ⟨middle, applied⟩ := folds.mpr fun given links => by
          cases links
          exact resolves
        obtain ⟨stores, leaves⟩ := further middle applied
        rw [postureAt_of_linked applied rfl, here.2.2] at leaves
        simp only [storedEdges, if_pos resolves, List.mem_cons, not_or]
        constructor
        · intro stored
          by_cases after : edge ∈ storedEdges graph.relations rest
          · exact stores after
          · rw [leaves after, if_pos (stored.resolve_right after)]
        · rintro ⟨other, spared⟩
          rw [leaves spared, if_neg other]
      · -- nothing folds from here on
        cases applied : apply ⟨graph.head + 1, recordedAt, source,
            .linkCreated fromId toId label author toldBy toldIn visibility⟩ graph with
        | ok middle => exact absurd (folds.mp ⟨middle, applied⟩ label rfl) resolves
        | error violation => simp [foldUntil, applied, storedEdges, if_neg resolves]
    | linksInferred | linkTypeRegistered =>
      obtain ⟨middle, applied⟩ := folds.mpr (by intro label links; cases links)
      rw [← postureAt_of_unlinked applied here rfl]
      exact further middle applied
    | _ => exact here.elim

end Folding

/-! ### The sentences that are taken -/

/-- A taken sentence, and the registry its link meets. -/
structure Filed where
  relations : Table RelationRow.name
  draft : LinkDraft

/-- Whether a relation carries the label the sentence is linked under. -/
def Filed.known (filed : Filed) : Bool := resolvesLabel filed.relations filed.draft.relation

/-- The edge the sentence comes to be stored on. -/
def Filed.edge (filed : Filed) : MemoryId × MemoryId × RelationName :=
  edgeUnder filed.relations filed.draft.fromId filed.draft.toId filed.draft.relation

/-- A registry with the registrations of a reply. -/
def Reading.registers (reading : Reading) (relations : Table RelationRow.name) :
    Table RelationRow.name :=
  reading.registrations.foldl registryAfter relations

/-- The sentences the pass takes, each under the registry with the registrations up to and
with its own reply's. -/
def filedUnder : Table RelationRow.name → List Reading → List Filed
  | _, [] => []
  | relations, reading :: rest =>
    reading.drafts.map (Filed.mk (reading.registers relations)) ++
      filedUnder (reading.registers relations) rest

section Filing

variable {reading : Reading} {readings : List Reading} {relations : Table RelationRow.name}
variable {payload : EventPayload} {payloads more : List EventPayload} {start graph : Graph}
variable {id : MemoryId} {context : InferenceContext} {link : InferredLink} {draft : LinkDraft}
variable {usable : List (String × String)}

theorem registration_isSome {spec : NewRelationSpec}
    (registers : registration context spec = some payload) :
    ∃ name inverse fromCard toCard symmetric reflexive description,
      payload = .linkTypeRegistered name inverse fromCard toCard symmetric reflexive description := by
  unfold registration at registers
  dsimp only at registers
  split at registers
  · cases registers
  split at registers
  · cases registers
  obtain ⟨fromCard, _, mapped⟩ := Option.bind_eq_some_iff.mp registers
  obtain ⟨toCard, _, rfl⟩ := Option.map_eq_some_iff.mp mapped
  exact ⟨_, _, _, _, _, _, _, rfl⟩

theorem mem_registrations (member : payload ∈ reading.registrations) :
    ∃ context args, contextOf reading.seen reading.id = some context ∧ reading.reply = .args args ∧
      ∃ spec ∈ args.newRelations, registration context spec = some payload := by
  unfold Reading.registrations at member
  split at member
  · rename_i context args seen reply
    exact ⟨context, args, seen, reply, List.mem_filterMap.mp member⟩
  · cases member

theorem mem_drafts (member : draft ∈ reading.drafts) :
    ∃ context args, contextOf reading.seen reading.id = some context ∧ reading.reply = .args args ∧
      ∃ link ∈ args.links, draftLink reading.id context (usableRelations context args.newRelations)
        reading.resolving link = some draft := by
  unfold Reading.drafts at member
  split at member
  · rename_i context args seen reply
    exact ⟨context, args, seen, reply, List.mem_filterMap.mp member⟩
  · cases member

theorem Reading.events_cases (reading : Reading) :
    (reading.events = [] ∧ reading.registrations = [] ∧ reading.drafts = []) ∨
      reading.events = .linksInferred reading.id ::
        (reading.registrations ++ reading.drafts.map LinkDraft.event) := by
  unfold Reading.events
  split
  · rename_i unseen
    exact .inl ⟨rfl, by simp [Reading.registrations, unseen], by simp [Reading.drafts, unseen]⟩
  · rename_i failed _
    refine .inl ⟨rfl, ?_, ?_⟩
    · cases contextOf reading.seen reading.id <;> simp [Reading.registrations, failed]
    · cases contextOf reading.seen reading.id <;> simp [Reading.drafts, failed]
  · exact .inr rfl

theorem Reading.unlinked_registrations (reading : Reading) :
    ∀ payload ∈ reading.registrations, linkLabel payload = none := by
  intro payload member
  obtain ⟨_, _, _, _, _, _, registers⟩ := mem_registrations member
  obtain ⟨_, _, _, _, _, _, _, rfl⟩ := registration_isSome registers
  rfl

theorem storedEdges_registrations (registered : ∀ payload ∈ payloads, linkLabel payload = none) :
    storedEdges relations (payloads ++ more) =
      storedEdges (payloads.foldl registryAfter relations) more := by
  induction payloads generalizing relations with
  | nil => rfl
  | cons payload rest ih =>
    obtain ⟨here, later⟩ := List.forall_mem_cons.mp registered
    rw [List.cons_append, List.foldl_cons, ← ih later]
    cases payload <;> first | rfl | cases here

theorem storedEdges_drafts {drafts : List LinkDraft} {rest : List Filed}
    (following : storedEdges relations more = (rest.takeWhile Filed.known).map Filed.edge) :
    storedEdges relations (drafts.map LinkDraft.event ++ more) =
      ((drafts.map (Filed.mk relations) ++ rest).takeWhile Filed.known).map Filed.edge := by
  induction drafts with
  | nil => exact following
  | cons draft drafts ih =>
    simp only [List.map_cons, List.cons_append, LinkDraft.event, storedEdges, List.takeWhile_cons]
    by_cases known : resolvesLabel relations draft.relation = true
    · rw [if_pos known, if_pos (show Filed.known ⟨relations, draft⟩ = true from known), List.map_cons,
        ← ih]
      rfl
    · rw [if_neg known, if_neg (show ¬Filed.known ⟨relations, draft⟩ = true from known)]
      rfl

theorem storedEdges_inferLinks : storedEdges relations (inferLinks readings) =
    ((filedUnder relations readings).takeWhile Filed.known).map Filed.edge := by
  induction readings generalizing relations with
  | nil => rfl
  | cons reading rest ih =>
    have following := @ih (reading.registers relations)
    rw [inferLinks, List.flatMap_cons, ← inferLinks, filedUnder]
    rcases reading.events_cases with ⟨none', unregistered, undrafted⟩ | whole
    · simpa [none', undrafted, Reading.registers, unregistered] using following
    · have recorded : ∀ more, storedEdges relations (.linksInferred reading.id :: more) =
          storedEdges relations more := fun _ => rfl
      rw [whole, List.cons_append, List.append_assoc, recorded,
        storedEdges_registrations reading.unlinked_registrations]
      exact storedEdges_drafts following

/-! ### What the sentences name -/

theorem memory_of_context (taken : contextOf graph id = some context) :
    graph.memoryById id = some context.memory := by
  obtain ⟨memory, found, made⟩ := Option.bind_eq_some_iff.mp taken
  dsimp only at made
  split at made
  · cases made
  · cases made
    exact found

theorem public_of_context (taken : contextOf graph id = some context) :
    ∀ entry ∈ context.entries, entry.visibility = .public := by
  obtain ⟨memory, found, made⟩ := Option.bind_eq_some_iff.mp taken
  dsimp only at made
  split at made
  · cases made
  · cases made
    intro entry member
    simpa using (List.mem_filter.mp member).2

theorem sourceVisibility_eq (taken : contextOf graph id = some context) :
    sourceVisibility context link = .public := by
  unfold sourceVisibility
  split
  · rfl
  · cases found : context.entries[link.entry - 1]? with
    | none => rfl
    | some entry => exact public_of_context taken entry (List.mem_of_getElem? found)

theorem draftLink_eq_some (taken : draftLink id context usable graph link = some draft) :
    asciiLowercase link.relation ≠ RelationName.sameAs.text ∧
      ∃ canonical viaInverse target memory,
        usableLabel usable (asciiLowercase link.relation) = some (canonical, viaInverse) ∧
        targetLabel context.memory.name link = some target ∧
        graph.memoryByName ⟨target⟩ = some memory ∧
        draft = sentenceDraft id context link memory.id canonical viaInverse := by
  unfold draftLink at taken
  dsimp only at taken
  split at taken
  · cases taken
  rename_i proposable
  obtain ⟨⟨canonical, viaInverse⟩, usable, taken⟩ := Option.bind_eq_some_iff.mp taken
  obtain ⟨target, targets, taken⟩ := Option.bind_eq_some_iff.mp taken
  obtain ⟨memory, found, taken⟩ := Option.bind_eq_some_iff.mp taken
  dsimp only at taken
  split at taken
  · cases taken
  · cases taken
    exact ⟨proposable, canonical, viaInverse, target, memory, usable, targets, found, rfl⟩

theorem known_of_draft (taken : draftLink id context usable graph link = some draft)
    (known : graph.memories.contains id = true) :
    graph.memories.contains draft.subject = true ∧ graph.memories.contains draft.object = true := by
  obtain ⟨_, _, _, _, memory, _, _, found, rfl⟩ := draftLink_eq_some taken
  have target := known_of_memoryByName found
  dsimp only [sentenceDraft]
  split
  · exact ⟨known, target⟩
  · exact ⟨target, known⟩

theorem Evolves.known {before after : Graph} (evolves : Evolves before after) {id : MemoryId}
    (known : before.memories.contains id = true) : after.memories.contains id = true := by
  obtain ⟨events, folds⟩ := evolves
  exact folds.invariant (fun graph => graph.memories.contains id = true)
    (fun _ _ _ step there => contains_memory_apply there step.2) known

theorem Evolves.reachable {before after : Graph} (evolves : Evolves before after)
    (reachable : Reachable before) : Reachable after := by
  obtain ⟨events, folds⟩ := evolves
  exact folds.invariant Reachable (fun _ _ _ step earlier => earlier.step step) reachable

theorem Observes.known (observes : Observes start readings graph)
    (known : start.memories.contains id = true) : graph.memories.contains id = true := by
  induction observes with
  | done last => exact last.known known
  | reads first asked _ ih => exact ih (asked.known (first.known known))

theorem Observes.reachable (observes : Observes start readings graph)
    (reachable : Reachable start) : Reachable graph := by
  induction observes with
  | done last => exact last.reachable reachable
  | reads first asked _ ih => exact ih (asked.reachable (first.reachable reachable))

theorem mem_events (member : payload ∈ reading.events) :
    payload = .linksInferred reading.id ∨ payload ∈ reading.registrations ∨
      ∃ draft ∈ reading.drafts, draft.event = payload := by
  rcases reading.events_cases with ⟨none', _, _⟩ | whole
  · rw [none'] at member
    cases member
  · rw [whole] at member
    simpa only [List.mem_cons, List.mem_append, List.mem_map] using member

theorem ofPass_inferLinks (observes : Observes start readings graph) :
    ∀ payload ∈ inferLinks readings, OfPass graph payload := by
  induction observes with
  | done => exact fun payload member => nomatch member
  | @reads before graph reading readings first asked rest ih =>
    intro payload member
    rw [inferLinks, List.flatMap_cons, List.mem_append] at member
    rcases member with here | later
    · rcases mem_events here with rfl | registered | ⟨draft, drafted, rfl⟩
      · trivial
      · obtain ⟨_, _, _, _, _, _, registers⟩ := mem_registrations registered
        obtain ⟨_, _, _, _, _, _, _, rfl⟩ := registration_isSome registers
        trivial
      · obtain ⟨context, args, seen, _, link, _, taken⟩ := mem_drafts drafted
        have itself := asked.known (known_of_memoryById (memory_of_context seen))
        obtain ⟨subject, object⟩ := known_of_draft taken itself
        have visible : draft.visibility = .public := by
          obtain ⟨_, _, _, _, _, _, _, _, rfl⟩ := draftLink_eq_some taken
          exact sourceVisibility_eq seen
        have subjectThere := rest.known subject
        have objectThere := rest.known object
        rw [LinkDraft.event, OfPass, LinkDraft.fromId, LinkDraft.toId, visible]
        cases draft.viaInverse with
        | true => exact ⟨objectThere, subjectThere, rfl⟩
        | false => exact ⟨subjectThere, objectThere, rfl⟩
    · exact ih payload later

end Filing

/-! ### The links that are there -/

/-- Every link keeps its source, its teller, its conversation and its visibility. -/
def KeepsLinks (before after : Graph) : Prop :=
  ∀ row ∈ before.links, ∃ kept ∈ after.links, kept.key = row.key ∧
    postureFromRow kept = postureFromRow row

theorem keepsLinks_iff {before after : Graph} :
    KeepsLinks before after ↔
      ∀ row ∈ before.links, postureAt after row.key = some (postureFromRow row) := by
  refine forall₂_congr fun row member => ?_
  constructor
  · rintro ⟨kept, stored, key, posture⟩
    rw [postureAt, Table.find_eq_some_iff.mpr ⟨stored, key⟩, Option.map_some, posture]
  · intro same
    obtain ⟨kept, found, posture⟩ := Option.map_eq_some_iff.mp same
    obtain ⟨stored, key⟩ := Table.find_eq_some_iff.mp found
    exact ⟨kept, stored, key, posture⟩

/-- Link inference leaves every link as it was exactly when each sentence it takes, up to the
first under a label that no relation carries, comes to be stored on an edge that is free or an
inferred link's: in the order of the ends and under the relation that the registry, with the
registrations so far, gives it, and among the links there are when the events fold. -/
theorem inference_keeps_links_iff {start graph : Graph} {readings : List Reading}
    (reachable : Reachable start) (observes : Observes start readings graph)
    (recordedAt : Timestamp) :
    KeepsLinks graph (foldUntil recordedAt .orchestration (inferLinks readings) graph).1 ↔
      ∀ filed ∈ (filedUnder graph.relations readings).takeWhile Filed.known,
        ∀ row ∈ graph.links, row.key = filed.edge → postureFromRow row = inferredPosture := by
  have postures := fun edge => @postureAt_foldUntil graph (inferLinks readings) recordedAt
    .orchestration edge (observes.reachable reachable) (ofPass_inferLinks observes)
  rw [keepsLinks_iff]
  constructor
  · intro kept filed member row stored key
    have lands : row.key ∈ storedEdges graph.relations (inferLinks readings) := by
      rw [storedEdges_inferLinks, key]
      exact List.mem_map_of_mem member
    have inferred := (postures row.key).1 lands
    rw [kept row stored] at inferred
    exact Option.some_inj.mp inferred
  · intro spares row stored
    have own : postureAt graph row.key = some (postureFromRow row) := by
      rw [postureAt, Table.find_eq_some_iff.mpr ⟨stored, rfl⟩, Option.map_some]
    by_cases lands : row.key ∈ storedEdges graph.relations (inferLinks readings)
    · rw [(postures row.key).1 lands]
      rw [storedEdges_inferLinks] at lands
      obtain ⟨filed, member, key⟩ := List.mem_map.mp lands
      rw [spares filed member row stored key.symm]
    · rw [(postures row.key).2 lands, own]

/-! Dave has told for himself that Erin is his sister. The relation is symmetric, so the link is
stored from Erin to him. -/

namespace Siblings

def erin : MemoryId := ⟨1⟩
def dave : MemoryId := ⟨2⟩

def toldLog : List EventPayload :=
  [.linkTypeRegistered ⟨"sibling_of"⟩ ⟨"sibling_of"⟩ .many .many true false "",
    .linkTypeRegistered ⟨"knows"⟩ ⟨"known_by"⟩ .many .many false false "",
    .memoryCreated erin ⟨"person/erin"⟩, .memoryCreated dave ⟨"person/dave"⟩,
    .memoryContentAppended dave ⟨11⟩ ⟨0⟩ none "works with Erin" .agent none .public,
    .linkCreated erin dave ⟨"sibling_of"⟩ .agent (some (.participant dave)) none .privateToTeller]

def told : Graph := ((commit ⟨0⟩ .agent toldLog Graph.fresh).toOption).getD Graph.fresh

theorem told_reachable : Reachable told := by
  have folds : commit ⟨0⟩ .agent toldLog Graph.fresh = .ok told := rfl
  exact Reachable.fresh.commit folds

/-- The pass over Dave, with a reply of one sentence. -/
def replying (subject relation object : String) : List Reading :=
  still told [(dave, .args { links := [⟨1, subject, relation, object⟩] })]

/-- The graph it leaves. -/
def leftBy (readings : List Reading) : Graph :=
  (foldUntil ⟨1⟩ .orchestration (inferLinks readings) told).1

/-- The sentence that starts with Dave takes his link over, and everyone may know it now. -/
theorem siblings_overwritten :
    Reachable told ∧ Observes told (replying "person/dave" "sibling_of" "person/erin") told ∧
      ¬KeepsLinks told (leftBy (replying "person/dave" "sibling_of" "person/erin")) := by
  refine ⟨told_reachable, still_observes, fun kept => ?_⟩
  let row : LinkRow :=
    ⟨erin, dave, ⟨"sibling_of"⟩, .agent, some (.participant dave), none, .privateToTeller, ⟨0⟩⟩
  have stored : row ∈ told.links := by
    rw [Table.mem_def]
    exact List.mem_cons_self
  have left : postureAt (leftBy (replying "person/dave" "sibling_of" "person/erin")) row.key =
      some inferredPosture := rfl
  have same := keepsLinks_iff.mp kept row stored
  rw [left] at same
  cases same

/-- Of another relation, the sentence leaves his link alone. -/
theorem siblings_kept : KeepsLinks told (leftBy (replying "person/dave" "knows" "person/erin")) := by
  refine (inference_keeps_links_iff told_reachable still_observes ⟨1⟩).mpr ?_
  simp only [Table.mem_def]
  decide

end Siblings

end Zuihitsu.Inference
