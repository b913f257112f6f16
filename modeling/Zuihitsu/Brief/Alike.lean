/-
# Graphs that an audience cannot tell apart

Two graphs are alike for an audience when they agree on the memories, their identity
classes, the vocabulary and the rooms, and on the entries and links that may surface.
Every read of the composer that is filtered before it is ranked or cut comes out the
same over alike graphs, and folding in an entry that may not surface leaves a graph
that is alike.
-/

import Zuihitsu.Brief.Compose

namespace Zuihitsu

open Zuihitsu.Core Zuihitsu.Graph Zuihitsu.Library Zuihitsu.MemoryBlock

/-! ### Alike graphs -/

/-- Whether an entry may surface to an audience under some live memory of its owner's class. -/
def mayShow (graph : Graph) (presentSet : List MemoryId) (owner : MemoryId) (entry : EntryView) :
    Bool :=
  (graph.classMembers owner).any fun id =>
    (graph.memoryById id).any fun memory => entryShown graph presentSet memory entry

/-- The entries that may surface, each with its owner, in commit order. -/
def shownEntries (graph : Graph) (presentSet : List MemoryId) : List (MemoryId × EntryView) :=
  ((graph.entryRowsWhere (·.supersededBy.isNone)).map fun row =>
    (row.memoryId, entryFromRow graph .live row)).filter fun item =>
      mayShow graph presentSet item.1 item.2

/-- The links that may surface, in stored order. -/
def shownLinks (graph : Graph) (presentSet : List MemoryId) : List (RelationName × LinkVis) :=
  (graph.links.rows.map fun row => (row.relation, row.linkVis)).filter fun item =>
    linkShown graph presentSet item.1 item.2

/-- Two graphs with the same memories, identity classes, vocabulary and rooms. -/
structure SameWorld (first second : Graph) : Prop where
  memory : ∀ id, first.memoryById id = second.memoryById id
  named : ∀ name, first.memoryByName name = second.memoryByName name
  identity : ∀ id, first.classId id = second.classId id
  vocabulary : ∀ label, first.relation label = second.relation label
  room : ∀ conversation,
    first.contextForConversation conversation = second.contextForConversation conversation

/-- Two graphs that differ only in entries and links that may not surface. -/
structure Alike (presentSet : List MemoryId) (first second : Graph) : Prop extends
    SameWorld first second where
  entries : shownEntries first presentSet = shownEntries second presentSet
  links : shownLinks first presentSet = shownLinks second presentSet

section Reads

variable {graph first second : Graph} {presentSet : List MemoryId} {memory : MemoryView}

theorem mayShow_of_shown {owner : MemoryId} {entry : EntryView}
    (found : graph.memoryById memory.id = some memory)
    (member : graph.inClass memory.id owner = true)
    (shown : entryShown graph presentSet memory entry = true) :
    mayShow graph presentSet owner entry = true := by
  obtain ⟨primary, mine, theirs⟩ := inClass_iff.mp member
  refine List.any_eq_true.mpr ⟨memory.id, ?_, ?_⟩
  · exact mem_classMembers.mpr (inClass_iff.mpr ⟨primary, theirs, mine⟩)
  · rw [found]
    exact shown

theorem shown_classEntries (found : graph.memoryById memory.id = some memory) :
    (graph.classEntries memory.id).filter (entryShown graph presentSet memory) =
      ((shownEntries graph presentSet).filter fun item =>
        graph.inClass memory.id item.1 && entryShown graph presentSet memory item.2).map (·.2) := by
  have asked : (graph.entryRowsWhere fun row =>
        graph.inClass memory.id row.memoryId && row.supersededBy.isNone) =
      (graph.entryRowsWhere (·.supersededBy.isNone)).filter fun row =>
        graph.inClass memory.id row.memoryId := by
    rw [← entryRowsWhere_and]
    simp only [Bool.and_comm]
  rw [classEntries, asked, shownEntries, List.filter_map, List.filter_map, List.filter_map,
    List.map_map, List.filter_filter, List.filter_filter]
  congr 1
  refine List.filter_congr fun row _ => ?_
  rw [Bool.eq_iff_iff]
  simp only [Function.comp_apply, Bool.and_eq_true]
  constructor
  · rintro ⟨shown, member⟩
    exact ⟨⟨member, shown⟩, mayShow_of_shown found member shown⟩
  · rintro ⟨⟨member, shown⟩, _⟩
    exact ⟨shown, member⟩

/-- An edge of a link as a class sees it. -/
def neighborOf (graph : Graph) (id : MemoryId) (item : RelationName × LinkVis) :
    Option NeighborLinkView :=
  let leaves := graph.inClass id item.2.fromId
  if (graph.liveRow item.2.fromId).isSome && (graph.liveRow item.2.toId).isSome &&
      (leaves != graph.inClass id item.2.toId) then
    some ⟨item.1, !leaves, graph.classOf (if leaves then item.2.toId else item.2.fromId), item.2⟩
  else none

theorem neighborOf_link {id : MemoryId} {item : RelationName × LinkVis} {link : NeighborLinkView}
    (seen : neighborOf graph id item = some link) :
    link.relation = item.1 ∧ link.linkVis = item.2 := by
  dsimp only [neighborOf] at seen
  split at seen
  · cases seen
    exact ⟨rfl, rfl⟩
  · cases seen

theorem shown_neighborLinks (id : MemoryId) :
    ((graph.classNeighborLinks id).filter fun link =>
        linkShown graph presentSet link.relation link.linkVis) =
      (shownLinks graph presentSet).reverse.filterMap (neighborOf graph id) := by
  have edges : graph.classNeighborLinks id =
      (graph.links.rows.map fun row => (row.relation, row.linkVis)).reverse.filterMap
        (neighborOf graph id) := by
    rw [← List.map_reverse, List.filterMap_map]
    rfl
  rw [edges, shownLinks, ← List.filter_reverse, List.filter_filterMap, List.filterMap_filter]
  refine List.filterMap_congr fun item _ => ?_
  cases seen : neighborOf graph id item with
  | none => simp
  | some =>
    obtain ⟨label, ends⟩ := neighborOf_link seen
    simp [Option.filter, label, ends]

/-- An entry with its memory, where it occurs in a window. -/
def occurring (graph : Graph) (start last : Timestamp) (item : MemoryId × EntryView) :
    Option (MemoryView × EntryView) :=
  (graph.memoryById item.1).bind fun memory =>
    item.2.occurredSort.bind fun sort =>
      if start.millis ≤ sort.millis ∧ sort.millis ≤ last.millis then some (memory, item.2) else none

theorem occurring_eq_some {start last : Timestamp} {item : MemoryId × EntryView}
    {found : MemoryView × EntryView} (occurs : occurring graph start last item = some found) :
    graph.memoryById item.1 = some found.1 ∧ item.2 = found.2 := by
  obtain ⟨memory, owner, inside⟩ := Option.bind_eq_some_iff.mp occurs
  obtain ⟨sort, _, within⟩ := Option.bind_eq_some_iff.mp inside
  split at within
  · cases within
    exact ⟨owner, rfl⟩
  · cases within

theorem shown_occurrences (start last : Timestamp) :
    ((graph.occurrencesInWindow start last).filter fun item =>
        entryShown graph presentSet item.1 item.2) =
      ((shownEntries graph presentSet).filterMap fun item =>
          (occurring graph start last item).filter fun found =>
            entryShown graph presentSet found.1 found.2).insertionSort
        fun earlier later => occursAt earlier ≤ occursAt later := by
  have ordered : IsTrans (MemoryView × EntryView) fun earlier later =>
      occursAt earlier ≤ occursAt later := ⟨fun _ _ _ => Int.le_trans⟩
  have total : Std.Total fun earlier later : MemoryView × EntryView =>
      occursAt earlier ≤ occursAt later := ⟨fun earlier later => Int.le_total _ _⟩
  have dated : graph.occurrencesInWindow start last =
      (((graph.entryRowsWhere (·.supersededBy.isNone)).map fun row =>
          (row.memoryId, entryFromRow graph .live row)).filterMap
        (occurring graph start last)).insertionSort
          fun earlier later => occursAt earlier ≤ occursAt later := by
    rw [List.filterMap_map]
    rfl
  rw [dated, filter_insertionSort, List.filter_filterMap, shownEntries, List.filterMap_filter]
  congr 1
  refine List.filterMap_congr fun item _ => ?_
  -- what surfaces under its owner may surface under some memory of the class
  cases occurs : occurring graph start last item with
  | none => simp
  | some found =>
    obtain ⟨owner, entry⟩ := occurring_eq_some occurs
    cases shown : entryShown graph presentSet found.1 found.2 with
    | false => simp [Option.filter, shown]
    | true =>
      have named := memoryById_id owner
      have live : (graph.liveRow found.1.id).isSome = true := by
        rw [named]
        exact (Option.isSome_map (f := assembleMemory graph)).symm.trans
          (congrArg Option.isSome owner)
      have may : mayShow graph presentSet item.1 item.2 = true := by
        rw [entry, ← named]
        exact mayShow_of_shown (named.symm ▸ owner) (inClass_self live) shown
      simp [may]

/-! ### Reads over alike graphs -/

section World

variable (world : SameWorld first second)
include world

theorem SameWorld.classOf_eq : first.classOf = second.classOf := by
  funext id
  simp only [classOf, world.identity]

theorem SameWorld.resolver_eq : blockClassOf first = blockClassOf second := by
  funext id
  simp only [blockClassOf, world.classOf_eq]

theorem SameWorld.inClass_eq : first.inClass = second.inClass := by
  funext id other
  exact inClass_congr (fun one => world.identity one) other

theorem SameWorld.live_eq (id : MemoryId) :
    (first.liveRow id).isSome = (second.liveRow id).isSome := by
  have same := congrArg Option.isSome (world.identity id)
  simpa [classId] using same

theorem SameWorld.memoryById_eq : first.memoryById = second.memoryById := funext world.memory

theorem SameWorld.selfMemory_eq : first.selfMemory = second.selfMemory := world.named _

theorem SameWorld.entryShown_eq : entryShown first presentSet = entryShown second presentSet := by
  funext memory entry
  simp only [entryShown, entryDecision, world.resolver_eq]

theorem SameWorld.neighborOf_eq : neighborOf first = neighborOf second := by
  funext id item
  simp only [neighborOf, world.live_eq, world.inClass_eq, world.classOf_eq]

theorem SameWorld.tellerDisplay_eq : first.tellerDisplay = second.tellerDisplay := by
  funext teller
  cases teller <;> simp only [tellerDisplay, world.memoryById_eq, world.classOf_eq]

theorem SameWorld.markerRef_eq : first.markerRef = second.markerRef := by
  funext told
  cases told <;> simp only [markerRef, world.memoryById_eq, world.room]

theorem SameWorld.marker_eq (turnText : TurnId → String) :
    entryProvenanceMarker turnText first presentSet =
      entryProvenanceMarker turnText second presentSet := by
  funext memory entry
  simp only [entryProvenanceMarker, shownAttestations, world.resolver_eq, world.tellerDisplay_eq,
    world.markerRef_eq]

theorem SameWorld.classDisplay_eq : classDisplay first = classDisplay second := by
  funext memory
  simp only [classDisplay, world.memoryById_eq, world.classOf_eq]

end World

section Alike

variable (alike : Alike presentSet first second)
include alike

theorem Alike.shown_eq (found : first.memoryById memory.id = some memory) :
    (first.classEntries memory.id).filter (entryShown first presentSet memory) =
      (second.classEntries memory.id).filter (entryShown second presentSet memory) := by
  rw [shown_classEntries found, shown_classEntries (alike.memory memory.id ▸ found),
    alike.entries, alike.inClass_eq, alike.entryShown_eq]

theorem Alike.facts_eq {formats : BriefFormats} {settings : BriefSettings} {now : Timestamp}
    (found : first.memoryById memory.id = some memory) :
    visibleRecentFacts formats first settings presentSet now memory =
      visibleRecentFacts formats second settings presentSet now memory := by
  have fact : entryFact formats first presentSet now memory =
      entryFact formats second presentSet now memory := by
    funext entry
    simp only [entryFact, alike.marker_eq]
  rw [visibleRecentFacts, visibleRecentFacts, alike.shown_eq found, fact]

theorem Alike.relationships_eq {formats : BriefFormats} {settings : BriefSettings} {id : MemoryId}
    {subject : MemoryName} :
    relationships formats first settings presentSet id subject =
      relationships formats second settings presentSet id subject := by
  have ranked : rankedRelationship formats first presentSet subject =
      rankedRelationship formats second presentSet subject := by
    funext link
    unfold rankedRelationship
    rw [← alike.memory link.other]
    refine Option.map_congr fun neighbour found => ?_
    have itself : first.memoryById neighbour.id = some neighbour := by
      rwa [memoryById_id found]
    simp only [latestVisibleEntry, alike.shown_eq itself, alike.tellerDisplay_eq,
      alike.markerRef_eq]
  unfold relationships
  rw [shown_neighborLinks, shown_neighborLinks, alike.links, alike.neighborOf_eq, ranked]

theorem Alike.memoryBrief_eq {formats : BriefFormats} {settings : BriefSettings} {now : Timestamp}
    (found : first.memoryById memory.id = some memory) :
    memoryBrief formats first settings presentSet now memory =
      memoryBrief formats second settings presentSet now memory := by
  simp only [memoryBrief, alike.classDisplay_eq, alike.facts_eq found, alike.relationships_eq]

theorem Alike.occurrences_eq (start last : Timestamp) :
    ((first.occurrencesInWindow start last).filter fun item =>
        entryShown first presentSet item.1 item.2) =
      (second.occurrencesInWindow start last).filter fun item =>
        entryShown second presentSet item.1 item.2 := by
  have occurs : occurring first start last = occurring second start last := by
    funext item
    simp only [occurring, alike.memory]
  rw [shown_occurrences, shown_occurrences, alike.entries, occurs, alike.entryShown_eq]

end Alike

end Reads

/-! ### An entry that may not surface -/

section Append

variable {before after : Graph} {event : Event} {id : MemoryId} {entryId : EntryId}
variable {assertedAt : Timestamp} {occurredAt : Option TemporalRef} {text : String}
variable {toldBy : Teller} {toldIn : Option ConversationRef} {visibility : Visibility}
variable {presentSet : List MemoryId}

theorem memoryChange_append (payload : event.payload =
    .memoryContentAppended id entryId assertedAt occurredAt text toldBy toldIn visibility)
    (row : MemoryRow) :
    memoryChange event before row =
      if row.id = id then { row with lastContentSeq := event.seq } else row := by
  have settled : recomputes event before = false := by
    simp [recomputes_eq, payload, designatesPrimary, linkLabel]
  simp [memoryChange, settled, memoryColumns, payload]

theorem sameWorld_append (applied : apply event before = .ok after) (payload : event.payload =
    .memoryContentAppended id entryId assertedAt occurredAt text toldBy toldIn visibility) :
    SameWorld before after := by
  have frame := apply_frame applied
  rw [payload] at frame
  have tags : after.memoryTags = before.memoryTags := frame.memoryTags (by simp [footprint])
  have uncreated : createdMemory event = none := by simp [createdMemory, payload]
  -- the one column of a memory that an append writes is not read
  have columns : ∀ row, assembleMemory after (memoryChange event before row) =
      assembleMemory before row := by
    intro row
    rw [memoryChange_append payload]
    simp only [assembleMemory, tagsOf, tags]
    split <;> rfl
  have unread : ∀ row, (memoryChange event before row).name = row.name ∧
      (memoryChange event before row).deleted = row.deleted ∧
      (memoryChange event before row).classId = row.classId := by
    intro row
    rw [memoryChange_append payload]
    split <;> exact ⟨rfl, rfl, rfl⟩
  have live : ∀ other, after.liveRow other =
      (before.liveRow other).map (memoryChange event before) := by
    intro other
    rw [liveRow, liveRow, memoryRow_apply applied, uncreated]
    cases before.memoryRow other with
    | none => rfl
    | some row => cases gone : row.deleted <;> simp [Option.filter, (unread row).2.1, gone]
  constructor
  case memory =>
    intro other
    rw [memoryById, memoryById, live, Option.map_map]
    exact Option.map_congr fun row _ => (columns row).symm
  case named =>
    intro name
    rw [memoryByName, memoryByName, apply_memories applied, uncreated, Option.toList_none,
      List.append_nil, List.find?_map, Option.map_map]
    have asked : ((fun row : MemoryRow => decide (row.name = name) && !row.deleted) ∘
        memoryChange event before) = fun row => decide (row.name = name) && !row.deleted := by
      funext row
      simp only [Function.comp_apply, (unread row).1, (unread row).2.1]
    rw [asked]
    exact Option.map_congr fun row _ => (columns row).symm
  case identity =>
    intro other
    rw [classId, classId, live, Option.map_map]
    exact Option.map_congr fun row _ => (unread row).2.2.symm
  case vocabulary =>
    intro label
    rw [relation, relation, frame.relations (by simp [footprint])]
  case room =>
    intro conversation
    rw [contextForConversation, contextForConversation, frame.conversations (by simp [footprint])]

theorem shownEntries_eq (graph : Graph) (presentSet : List MemoryId) :
    shownEntries graph presentSet =
      ((graph.entries.rows.filter fun row => row.supersededBy.isNone &&
          mayShow graph presentSet row.memoryId (entryFromRow graph .live row)).insertionSort
        fun first second => first.seq ≤ second.seq).map
          fun row => (row.memoryId, entryFromRow graph .live row) := by
  rw [shownEntries, List.filter_map]
  congr 1
  exact (entryRowsWhere_and _ _).symm

theorem SameWorld.mayShow_eq {first second : Graph} (world : SameWorld first second)
    (owner : MemoryId) (entry : EntryView) :
    mayShow first presentSet owner entry = mayShow second presentSet owner entry := by
  rw [Bool.eq_iff_iff, mayShow, mayShow, List.any_eq_true, List.any_eq_true]
  simp only [mem_classMembers, world.inClass_eq, world.memory, world.entryShown_eq]

theorem entryFromRow_append (applied : apply event before = .ok after) (payload : event.payload =
    .memoryContentAppended id entryId assertedAt occurredAt text toldBy toldIn visibility)
    {row : EntryRow} (stored : row ∈ before.entries) :
    entryFromRow after .live row = entryFromRow before .live row := by
  have made : appendedRow event before =
      some (appendedEntry event before id entryId assertedAt occurredAt text toldBy toldIn
        visibility) := by
    simp [appendedRow, payload]
  obtain ⟨_, fresh, unendorsed⟩ := appended_of_apply applied made
  have other : row.entryId ≠ entryId := by
    rintro rfl
    have known := Table.contains_of_mem stored
    exact absurd (known.symm.trans fresh) (by decide)
  have unchanged : ∀ endorsement ∈ before.attestations.rows,
      attestationChange event endorsement = endorsement := by
    intro endorsement member
    have apart : endorsement.key ≠ (entryId, toldBy) := by
      intro same
      have known : before.attestations.contains endorsement.key = true :=
        Table.contains_of_mem member
      rw [same] at known
      exact absurd (known.symm.trans unendorsed) (by decide)
    simp only [attestationChange, payload, broughtAttestation]
    exact if_neg apart
  have rows : attestationRowsFor after row.entryId .live =
      attestationRowsFor before row.entryId .live := by
    have elsewhere : ((addedAttestation event before).toList.filter fun added =>
        added.entryId = row.entryId && AttestationScope.live.covers added) = [] := by
      refine List.filter_eq_nil_iff.mpr fun added member => ?_
      have brought := (Option.filter_eq_some_iff.mp (Option.mem_toList.mp member)).1
      simp only [broughtAttestation, payload, Option.some.injEq] at brought
      subst brought
      simp [other.symm]
    unfold attestationRowsFor
    rw [apply_attestations applied, List.map_congr_left unchanged, List.map_id', List.filter_append,
      elsewhere, List.append_nil]
  simp only [entryFromRow, attestationsFor, rows]

theorem alike_of_hidden_append (applied : apply event before = .ok after) (payload : event.payload =
    .memoryContentAppended id entryId assertedAt occurredAt text toldBy toldIn visibility)
    (hidden : ∀ row, appendedRow event before = some row →
      mayShow after presentSet row.memoryId (entryFromRow after .live row) = false) :
    Alike presentSet before after := by
  have world := sameWorld_append applied payload
  have frame := apply_frame applied
  rw [payload] at frame
  refine { world with entries := ?_, links := ?_ }
  · have unchanged : ∀ row, entryChange event before row = row := by
      intro row
      simp [entryChange, payload]
    obtain ⟨appended, made⟩ : ∃ row, appendedRow event before = some row := by
      simp [appendedRow, payload]
    have old : (before.entries.rows.filter fun row => row.supersededBy.isNone &&
          mayShow after presentSet row.memoryId (entryFromRow after .live row)) =
        before.entries.rows.filter fun row => row.supersededBy.isNone &&
          mayShow before presentSet row.memoryId (entryFromRow before .live row) :=
      List.filter_congr fun row member => by
        rw [entryFromRow_append applied payload member, world.mayShow_eq]
    rw [shownEntries_eq, shownEntries_eq, apply_entries applied, made, Option.toList_some,
      List.map_congr_left fun row _ => unchanged row, List.map_id', List.filter_append, old,
      List.filter_singleton, hidden appended made, Bool.and_false, cond_false, List.append_nil]
    refine List.map_congr_left fun row member => ?_
    have stored := (List.mem_filter.mp ((List.mem_insertionSort _).mp member)).1
    rw [entryFromRow_append applied payload stored]
  · have links : after.links = before.links := frame.links (by simp [footprint])
    have shown : linkShown before presentSet = linkShown after presentSet := by
      funext label link
      simp only [linkShown, relationSymmetric, world.resolver_eq, world.vocabulary]
    rw [shownLinks, shownLinks, links, shown]

end Append

end Zuihitsu
