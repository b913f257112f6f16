/-
# A log that gets stuck

A block checks its names, tags, labels and entries when it buffers an event; the
constraints of the schema are enforced when the event folds. What the checks
established stays true while the graph moves on, as nothing is ever deleted from
the tables they read. What can go wrong in between is what they never looked at,
or what another writer takes: a name a deleted memory still holds, or that some
other block has given by then, a tag, a label. A run in which no commit meets
such a clash never leaves an event the graph refuses in the log.
-/

import Zuihitsu.Block.Interleaving
import Zuihitsu.Block.ReadYourWrites
import Zuihitsu.Graph.Applicable
import Zuihitsu.Graph.Lookup

namespace Zuihitsu

open Zuihitsu.Core Zuihitsu.Graph Zuihitsu.Library Zuihitsu.MemoryBlock

/-! ### What a buffer refers to -/

/-- A memory is in the graph, or created by an event waiting to fold. -/
def KnownMemory (graph : Graph) (waiting : List EventPayload) (id : MemoryId) : Prop :=
  graph.memories.contains id = true ∨ ∃ payload ∈ waiting, createdId payload = some id

/-- A tag is in the graph, or created by an event waiting to fold. -/
def KnownTag (graph : Graph) (waiting : List EventPayload) (name : TagName) : Prop :=
  graph.tags.contains name = true ∨ ∃ payload ∈ waiting, createdTag payload = some name

/-- No event waiting to fold gives a name. -/
def Unnamed (waiting : List EventPayload) (name : MemoryName) : Prop :=
  ∀ payload ∈ waiting, ∀ id, givesName payload ≠ some (id, name)

/-- What a block has made sure of by the time it buffers an event: what the event refers
to is known, and the name or tag it gives is not given in the buffer yet. -/
def Grounded (graph : Graph) (earlier : List EventPayload) : EventPayload → Prop
  | .memoryCreated _ name => Unnamed earlier name
  | .memoryRenamed id _ name => KnownMemory graph earlier id ∧ Unnamed earlier name
  | .memoryContentAppended id _ _ _ _ _ _ _ => KnownMemory graph earlier id
  | .memorySuperseded _ _ successor => Known graph earlier successor
  | .entriesConsolidated _ _ replacement _ => Known graph earlier replacement
  | .entryAttested _ entry _ _ _ _ _ source _ =>
    Known graph earlier entry ∧ ∀ one, source = some one → Known graph earlier one
  | .tagCreated name _ => ∀ payload ∈ earlier, createdTag payload ≠ some name
  | .tagAppliedToMemory id name => KnownMemory graph earlier id ∧ KnownTag graph earlier name
  | .linkCreated fromId toId _ _ _ _ _ =>
    KnownMemory graph earlier fromId ∧ KnownMemory graph earlier toId
  | .beliefArbitrated memory competing _ _ =>
    KnownMemory graph earlier memory ∧ ∀ entry ∈ competing, Known graph earlier entry
  | .conversationStarted .. | .sessionStarted .. | .participantJoined .. | .participantIdentified .. =>
    False
  | _ => True

/-- The label of a link an event creates. -/
def createdLabel : EventPayload → Option RelationName
  | .linkCreated _ _ label _ _ _ _ => some label
  | _ => none

/-- A buffer clashes with nothing the graph holds when it commits: the identities it
generated are new, the names it gives are held by no row, deleted or not, that it has not
renamed before, the tags it creates are not there, and the labels of its links are
registered. -/
structure Unclashing (graph : Graph) (buffer : List EventPayload) : Prop where
  memories : InOrder (fun earlier payload => ∀ id, createdId payload = some id →
    ¬KnownMemory graph earlier id) buffer
  entries : InOrder (fun earlier payload => ∀ entry, appended payload = some entry →
    ¬Known graph earlier entry) buffer
  names : InOrder (fun earlier payload => ∀ id name, givesName payload = some (id, name) →
    ∀ row ∈ graph.memories, row.name = name →
      row.id = id ∨ ∃ other ∈ earlier, ∃ given, givesName other = some (row.id, given)) buffer
  tags : ∀ payload ∈ buffer, ∀ name, createdTag payload = some name →
    graph.tags.contains name = false
  labels : InOrder (fun earlier payload => ∀ label, createdLabel payload = some label →
    resolvesLabel (earlier.foldl registryAfter graph.relations) label = true) buffer

section Waiting

variable {graph before after committed : Graph} {event : Event} {block : MemoryBlock}
variable {waiting more earlier buffer : List EventPayload} {payload : EventPayload}
variable {id : MemoryId} {entry : EntryId} {name : TagName}
variable {recordedAt : Timestamp} {source : EventSource}

theorem KnownMemory.append (known : KnownMemory graph waiting id) :
    KnownMemory graph (waiting ++ more) id :=
  known.imp_right fun ⟨payload, member, creates⟩ => ⟨payload, List.mem_append_left _ member, creates⟩

theorem KnownMemory.apply (known : KnownMemory before waiting id)
    (applied : Graph.apply event before = .ok after) : KnownMemory after waiting id :=
  known.imp_left fun there => (contains_memory_apply_iff applied).mpr (.inl there)

theorem KnownTag.apply (known : KnownTag before waiting name)
    (applied : Graph.apply event before = .ok after) : KnownTag after waiting name :=
  known.imp_left fun there => (contains_tag_apply_iff applied).mpr (.inl there)

theorem Grounded.apply (grounded : Grounded before earlier payload)
    (applied : Graph.apply event before = .ok after) : Grounded after earlier payload := by
  cases payload with
  | memoryRenamed => exact ⟨grounded.1.apply applied, grounded.2⟩
  | memoryContentAppended =>
    exact KnownMemory.apply grounded applied
  | memorySuperseded | entriesConsolidated => exact Known.apply grounded applied
  | entryAttested =>
    exact ⟨grounded.1.apply applied, fun one named => (grounded.2 one named).apply applied⟩
  | tagAppliedToMemory | linkCreated => exact ⟨grounded.1.apply applied, grounded.2.apply applied⟩
  | beliefArbitrated =>
    exact ⟨grounded.1.apply applied, fun entry member => (grounded.2 entry member).apply applied⟩
  | _ => exact grounded

theorem applicable_of_grounded {later : List EventPayload}
    (grounded : InOrder (Grounded graph) buffer) (free : Unclashing graph buffer)
    (split : buffer = earlier ++ payload :: later)
    (first : Graph.commit recordedAt source earlier graph = .ok committed) :
    Applicable committed payload := by
  have here : Grounded graph earlier payload := grounded earlier payload later split
  have memory : ∀ {id}, KnownMemory graph earlier id → committed.memories.contains id = true :=
    fun known => (contains_memory_commit_iff first).mpr known
  have nameFree : ∀ {id name}, givesName payload = some (id, name) → Unnamed earlier name →
      NameFree committed id name := by
    intro id name gives unnamed row member same
    rcases name_commit first member with ⟨old, oldMem, sameId, sameName, quiet⟩ | ⟨other, otherMem, named⟩
    · -- the row kept the name it had, so the buffer did not rename it
      rcases free.names earlier payload later split id name gives old oldMem (sameName.trans same)
        with itself | ⟨other, otherMem, given, renames⟩
      · exact sameId.symm.trans itself
      · rw [sameId] at renames
        exact absurd renames (quiet other otherMem given)
    · rw [same] at named
      exact absurd named (unnamed other otherMem row.id)
  cases payload with
  | memoryCreated id name =>
    refine ⟨?_, nameFree rfl here⟩
    rw [← Bool.not_eq_true, contains_memory_commit_iff first]
    exact free.memories earlier _ later split id rfl
  | memoryRenamed => exact ⟨memory here.1, nameFree rfl here.2⟩
  | memoryContentAppended id entry assertedAt occurredAt text toldBy toldIn visibility =>
    refine ⟨memory here, ?_⟩
    rw [← Bool.not_eq_true]
    exact fun there => free.entries earlier _ later split entry rfl (Known.of_commit first there)
  | memorySuperseded | entriesConsolidated => exact Known.commit here first
  | entryAttested id entry teller toldIn assertedAt posture phrasing source producedBy =>
    refine ⟨here.1.commit first, ?_⟩
    cases source with
    | none => rfl
    | some one => exact (here.2 one rfl).commit first
  | tagCreated name description =>
    have absent := free.tags (.tagCreated name description) (by simp [split]) name rfl
    rw [Applicable, ← Bool.not_eq_true, contains_tag_commit_iff first, absent]
    rintro (there | ⟨other, member, creates⟩)
    · cases there
    · exact here other member creates
  | tagAppliedToMemory =>
    exact ⟨memory here.1, (contains_tag_commit_iff first).mpr here.2⟩
  | linkCreated fromId toId label source toldBy toldIn visibility =>
    refine ⟨memory here.1, memory here.2, ?_⟩
    rw [relations_commit first]
    exact free.labels earlier _ later split label rfl
  | beliefArbitrated =>
    exact ⟨memory here.1, fun entry member => (here.2 entry member).commit first⟩
  | _ => exact here

theorem exists_commit (reachable : Reachable graph) (grounded : InOrder (Grounded graph) buffer)
    (free : Unclashing graph buffer) :
    ∃ committed, Graph.commit recordedAt source buffer graph = .ok committed := by
  have through : ∀ earlier later, buffer = earlier ++ later →
      ∃ committed, Graph.commit recordedAt source earlier graph = .ok committed := by
    intro earlier
    induction earlier using List.reverseRecOn with
    | nil => exact fun _ _ => ⟨graph, rfl⟩
    | append_singleton earlier payload ih =>
      intro later split
      rw [List.append_assoc] at split
      obtain ⟨middle, first⟩ := ih _ split
      have applicable := applicable_of_grounded grounded free split first
      obtain ⟨next, applied⟩ := @apply_of_applicable ⟨middle.head + 1, recordedAt, source, payload⟩
        middle (reachable.commit first).attested applicable
      exact ⟨next, commit_append_ok.mpr ⟨middle, first, commit_cons_ok.mpr ⟨next, applied, rfl⟩⟩⟩
  exact through buffer [] (List.append_nil buffer).symm

theorem unclashing_of_commit (reachable : Reachable graph)
    (done : Graph.commit recordedAt source buffer graph = .ok committed) :
    Unclashing graph buffer := by
  have folds : ∀ earlier payload later, buffer = earlier ++ payload :: later →
      ∃ middle next, Graph.commit recordedAt source earlier graph = .ok middle ∧
        Graph.apply ⟨middle.head + 1, recordedAt, source, payload⟩ middle = .ok next := by
    rintro earlier payload later rfl
    obtain ⟨middle, first, rest⟩ := commit_append_ok.mp done
    obtain ⟨next, applied, _⟩ := commit_cons_ok.mp rest
    exact ⟨middle, next, first, applied⟩
  refine ⟨?_, ?_, ?_, ?_, ?_⟩
  · intro earlier payload later split id creates known
    obtain ⟨middle, next, first, applied⟩ := folds earlier payload later split
    obtain ⟨row, created, rfl⟩ :=
      @exists_createdMemory ⟨middle.head + 1, recordedAt, source, payload⟩ id creates
    have fresh := (created_of_apply applied created).1
    rw [(contains_memory_commit_iff first).mpr known] at fresh
    cases fresh
  · intro earlier payload later split entry appends known
    obtain ⟨middle, next, first, applied⟩ := folds earlier payload later split
    have fresh : middle.entries.contains entry = false := absent_of_appended applied appends
    rw [known.commit first] at fresh
    cases fresh
  · intro earlier payload later split id name gives row member same
    obtain ⟨middle, next, first, applied⟩ := folds earlier payload later split
    by_contra held
    rw [not_or] at held
    -- the row still has the name when the event would give it to another
    obtain ⟨kept, keptMem, keptId, keptName⟩ := exists_name_commit first member
      fun other otherMem given renames => held.2 ⟨other, otherMem, given, renames⟩
    have free := nameFree_of_apply applied gives kept keptMem (keptName.trans same)
    exact held.1 (keptId.symm.trans free)
  · intro payload member name creates
    obtain ⟨earlier, later, split⟩ := List.append_of_mem member
    obtain ⟨middle, next, first, applied⟩ := folds earlier payload later split
    have absent := untagged_of_apply applied creates
    rw [← Bool.not_eq_true, contains_tag_commit_iff first, not_or] at absent
    exact Bool.not_eq_true _ ▸ absent.1
  · intro earlier payload later split label creates
    obtain ⟨middle, next, first, applied⟩ := folds earlier payload later split
    rw [← relations_commit first]
    cases payload with
    | linkCreated =>
      cases creates
      exact resolvesLabel_of_apply (reachable.commit first) applied rfl
    | _ => cases creates

theorem folds_iff_unclashing (reachable : Reachable graph)
    (grounded : InOrder (Grounded graph) buffer) :
    (∃ committed, Graph.commit recordedAt source buffer graph = .ok committed) ↔
      Unclashing graph buffer :=
  ⟨fun ⟨_, done⟩ => unclashing_of_commit reachable done, exists_commit reachable grounded⟩

end Waiting

/-! ### What the calls of a block ground -/

/-- The memories a call writes a reference to. -/
def MemoryBlock.Operation.refersTo : Operation → List MemoryId
  | .append _ id _ _ | .appendDedup _ id _ _ _ _ | .revise _ id _ _ _ | .tag id _ => [id]
  | .link fromId toId _ _ => [fromId, toId]
  | .rehomeLink moved => if moved.survivor then [] else [moved.canonicalFrom, moved.canonicalTo]
  | _ => []

/-- Events that refer to nothing that has to be there. -/
def isUnbound : EventPayload → Bool
  | .entryRetracted .. | .attestationRetracted .. | .entryDescriptionMirrored ..
  | .memoryVolatilitySet .. | .classPrimaryDesignated .. | .tagDescriptionChanged ..
  | .tagRemovedFromMemory .. | .linkTypeRegistered .. | .linkRemoved .. | .mergeProposed .. => true
  | _ => false

section Calls

variable {graph : Graph} {block after : MemoryBlock} {id : MemoryId} {entry : EntryId}
variable {now : Timestamp} {events earlier : List EventPayload} {payload : EventPayload}
variable {name : MemoryName}

theorem grounded_of_isUnbound (unbound : isUnbound payload = true) :
    Grounded graph earlier payload := by
  cases payload <;> trivial

theorem inlineVolatility_isUnbound {opts : AppendOptions} :
    ∀ payload ∈ inlineVolatility id opts, isUnbound payload = true :=
  forall_inlineVolatility fun _ => rfl

theorem contains_of_classId {primary : MemoryId} (found : graph.classId id = some primary) :
    graph.memories.contains id = true := by
  obtain ⟨row, live, _⟩ := Option.map_eq_some_iff.mp found
  obtain ⟨stored, _⟩ := Option.filter_eq_some_iff.mp live
  rw [Table.contains, show graph.memories.find id = some row from stored]
  rfl

theorem KnownMemory.target (known : KnownMemory graph earlier id) :
    KnownMemory graph earlier (classWriteTarget graph block id) := by
  unfold classWriteTarget
  split
  · exact known
  · split
    · exact known
    · rename_i primary _
      split
      · exact known
      · rename_i redirects
        cases found : graph.memoryById primary with
        | none => simp [found] at redirects
        | some => exact .inl (known_of_memoryById found)

theorem knownMemory_of_resolveName {known : MemoryName}
    (found : resolveName graph block id = some known) :
    KnownMemory graph block.buffer id := by
  rcases Option.or_eq_some_iff.mp found with pending | ⟨_, stored⟩
  · obtain ⟨payload, member, creates⟩ := List.exists_of_findSome?_eq_some pending
    refine .inr ⟨payload, member, ?_⟩
    cases payload with
    | memoryCreated =>
      rw [createdName, Option.ite_none_right_eq_some] at creates
      exact congrArg some creates.1
    | _ => cases creates
  · obtain ⟨view, stored, _⟩ := Option.map_eq_some_iff.mp stored
    exact .inl (known_of_memoryById stored)

theorem unnamed_of_resolve (free : resolve graph block name = none) :
    Unnamed block.buffer name := by
  intro payload member id gives
  rw [resolve, Option.or_eq_none_iff] at free
  have quiet : namedBy name payload = none := List.findSome?_eq_none_iff.mp free.1 payload member
  cases payload with
  | memoryCreated | memoryRenamed =>
    cases gives
    simp [namedBy] at quiet
  | _ => cases gives

theorem knownTag_of_tagExists {name : TagName} (found : tagExists graph block name = true) :
    KnownTag graph block.buffer name := by
  rcases Bool.or_eq_true_iff.mp found with pending | stored
  · obtain ⟨payload, member, creates⟩ := List.any_eq_true.mp pending
    refine .inr ⟨payload, member, ?_⟩
    cases payload with
    | tagCreated => exact congrArg some (of_decide_eq_true creates)
    | _ => cases creates
  · exact .inl stored

theorem uncreated_of_tagExists {name : TagName} (absent : tagExists graph block name = false) :
    ∀ payload ∈ block.buffer, createdTag payload ≠ some name := by
  intro payload member creates
  have quiet := List.any_eq_false.mp (Bool.or_eq_false_iff.mp absent).1 payload member
  cases payload with
  | tagCreated =>
    cases creates
    simp [createsTag] at quiet
  | _ => cases creates

theorem grounded_unbound (grounded : InOrder (Grounded graph) block.buffer)
    (buffers : Buffers block events after)
    (unbound : ∀ payload ∈ events, isUnbound payload = true) :
    InOrder (Grounded graph) after.buffer :=
  grounded.buffers buffers
    (inOrder_of_forall fun payload member _ => grounded_of_isUnbound (unbound payload member))

theorem grounded_cons (grounded : InOrder (Grounded graph) block.buffer)
    (buffers : Buffers block (payload :: events) after) (here : Grounded graph block.buffer payload)
    (unbound : ∀ payload ∈ events, isUnbound payload = true) :
    InOrder (Grounded graph) after.buffer := by
  have first : InOrder (Grounded graph) (block.push payload).buffer :=
    grounded.buffers buffers_push (inOrder_singleton (by simpa using here))
  rw [buffers.buffer, show block.buffer ++ payload :: events = (block.push payload).buffer ++ events by simp]
  exact grounded_unbound first buffers_pushAll unbound

theorem grounded_append {fresh : EntryId} {text : String} {opts : AppendOptions}
    (grounded : InOrder (Grounded graph) block.buffer) (known : KnownMemory graph block.buffer id)
    (done : MemoryBlock.append ⟨graph, now⟩ fresh block id text opts = .ok after) :
    InOrder (Grounded graph) after.buffer := by
  obtain ⟨_, _, _, _, rfl⟩ := append_ok done
  exact grounded_cons grounded buffers_pushAll known.target inlineVolatility_isUnbound

theorem grounded_supersede {old new : EntryId} (grounded : InOrder (Grounded graph) block.buffer)
    (done : MemoryBlock.supersede ⟨graph, now⟩ block id old new = .ok after) :
    InOrder (Grounded graph) after.buffer := by
  obtain ⟨_, ⟨live, found⟩, rfl⟩ := supersede_ok done
  exact grounded_cons grounded buffers_pushAll (known_of_liveEntry found) (by simp)

theorem knownMemory_of_liveEntry {live : LiveEntry}
    (grounded : InOrder (Grounded graph) block.buffer)
    (found : liveEntry graph block id entry = .ok live) : KnownMemory graph block.buffer id := by
  have member := (mem_of_liveEntry found).1
  have classed : ∀ {memory}, graph.inClass id memory = true → KnownMemory graph block.buffer id := by
    intro memory inClass
    obtain ⟨primary, found, _⟩ := inClass_iff.mp inClass
    exact .inl (contains_of_classId found)
  rcases List.mem_append.mp member with stored | pending
  · obtain ⟨view, listed, _⟩ := List.mem_map.mp stored
    obtain ⟨row, rowMem, _⟩ := List.mem_map.mp (List.mem_filter.mp listed).1
    exact classed (Bool.and_eq_true_iff.mp (mem_entryRowsWhere.mp rowMem).2).1
  · obtain ⟨payload, inBuffer, read⟩ := List.mem_filterMap.mp pending
    unfold livePending at read
    split at read
    · rename_i memory appended _ _ _ _ _ _
      split at read
      · rename_i listed
        rcases List.mem_cons.mp listed.1 with rfl | inClass
        · obtain ⟨earlier, later, split⟩ := List.append_of_mem inBuffer
          have known : KnownMemory graph earlier memory := grounded earlier _ later split
          exact split ▸ known.append
        · exact classed (mem_classMembers.mp inClass)
      · cases read
    · cases read

theorem grounded_consolidate {fresh : EntryId} {sources : List EntryId} {text : String}
    {producedBy : Option ProducedBy} (grounded : InOrder (Grounded graph) block.buffer)
    (done : MemoryBlock.consolidate ⟨graph, now⟩ fresh block id sources text producedBy = .ok after) :
    InOrder (Grounded graph) after.buffer := by
  obtain ⟨toldBy, visibility, level, _, _, nonempty, rfl⟩ := consolidate_ok done
  obtain ⟨source, member⟩ := List.exists_mem_of_ne_nil sources nonempty
  obtain ⟨live, found, _⟩ := level source member
  have target := knownMemory_of_liveEntry grounded found
  refine grounded.append (@InOrder.append _ [_] _ (inOrder_singleton ?_) (InOrder.append ?_
    (inOrder_singleton ?_)))
  · rw [List.append_nil]
    exact target
  · refine inOrder_of_forall fun payload member earlier => ?_
    obtain ⟨group, groupMem, rfl⟩ := List.mem_map.mp member
    obtain ⟨one, listed, rfl, _⟩ := mem_distinctSourceTellers groupMem
    obtain ⟨source, _, read⟩ := mem_sourceEntries.mp listed
    -- the replacement is known from its append on
    refine ⟨.inr ⟨_, List.mem_append_right _ List.mem_cons_self, rfl⟩, ?_⟩
    rintro other ⟨⟩
    rw [SourceTeller.of, (mem_of_liveEntry read).2]
    exact (known_of_liveEntry read).append
  · exact .inr ⟨_, List.mem_append_right _ List.mem_cons_self, rfl⟩

theorem grounded_consolidateInto {sources : List EntryId} {replacement : EntryId}
    {producedBy : Option ProducedBy} (grounded : InOrder (Grounded graph) block.buffer)
    (done : MemoryBlock.consolidateInto ⟨graph, now⟩ block id sources replacement producedBy =
      .ok after) : InOrder (Grounded graph) after.buffer := by
  obtain ⟨target, carried, found, _, _, inSources, _, rfl⟩ := consolidateInto_ok done
  refine grounded.append (InOrder.append ?_ (inOrder_singleton ?_))
  · refine inOrder_of_forall fun payload member earlier => ?_
    obtain ⟨one, carriedMem, rfl⟩ := List.mem_map.mp member
    obtain ⟨source, _, read⟩ := mem_sourceEntries.mp (inSources carriedMem)
    refine ⟨(known_of_liveEntry found).append, ?_⟩
    rintro other ⟨⟩
    rw [(mem_of_liveEntry read).2]
    exact (known_of_liveEntry read).append
  · exact (known_of_liveEntry found).append

theorem contains_of_entryById {memory : MemoryView} {view : EntryView}
    (found : graph.entryById entry = some (memory, view)) :
    graph.entries.contains view.entryId = true := by
  obtain ⟨row, stored, owner⟩ := Option.bind_eq_some_iff.mp found
  obtain ⟨_, _, same⟩ := Option.map_eq_some_iff.mp owner
  cases same
  exact Table.contains_of_mem (Table.find_eq_some_iff.mp stored).1

theorem grounded_changeLink {fromId toId : MemoryId} {label : RelationName} {create : Bool}
    {forced : Option ForcedVisibility} (grounded : InOrder (Grounded graph) block.buffer)
    (fromKnown : KnownMemory graph block.buffer fromId)
    (toKnown : KnownMemory graph block.buffer toId)
    (done : changeLink ⟨graph, now⟩ block fromId toId label create forced = .ok after) :
    InOrder (Grounded graph) after.buffer := by
  obtain ⟨_, rfl | rfl | ⟨_, linkedFrom, linkedTo, ends, ⟨_, rfl⟩ | rfl⟩⟩ := changeLink_ok done
  · exact grounded
  · exact grounded_unbound grounded buffers_pushAll (by simp [isUnbound])
  · refine grounded_cons grounded buffers_pushAll ?_ (by simp)
    rcases ends with ⟨rfl, rfl⟩ | ⟨rfl, rfl⟩
    · exact ⟨fromKnown, toKnown⟩
    · exact ⟨fromKnown.target, toKnown.target⟩
  · exact grounded_unbound grounded buffers_pushAll (by simp [isUnbound])

theorem grounded_create {fresh : MemoryId} {freshEntry : EntryId} {name : MemoryName}
    {content : Option String} {opts : AppendOptions}
    (grounded : InOrder (Grounded graph) block.buffer)
    (done : createWithOpts ⟨graph, now⟩ fresh freshEntry block name content opts = .ok after) :
    InOrder (Grounded graph) after.buffer := by
  obtain ⟨free, empty | ⟨text, visibility, seeded⟩⟩ := createWithOpts_ok done
  · exact grounded_cons grounded empty (unnamed_of_resolve free) (by simp)
  · refine grounded.buffers seeded (@InOrder.append _ [_] _ (inOrder_singleton ?_)
      (@InOrder.append _ [_] _ (inOrder_singleton ?_) (inOrder_of_forall ?_)))
    · rw [List.append_nil]
      exact unnamed_of_resolve free
    · -- the first entry is on the memory just created
      exact .inr ⟨.memoryCreated fresh name, by simp, rfl⟩
    · refine List.forall_mem_cons.mpr ⟨fun _ => trivial, fun payload member _ => ?_⟩
      exact grounded_of_isUnbound (inlineVolatility_isUnbound payload member)

theorem grounded_rehomeLink {moved : RehomedLink}
    (grounded : InOrder (Grounded graph) block.buffer)
    (known : ∀ id ∈ (Operation.rehomeLink moved).refersTo, KnownMemory graph block.buffer id) :
    InOrder (Grounded graph) (MemoryBlock.rehomeLink block moved).buffer := by
  unfold MemoryBlock.rehomeLink
  dsimp only
  split
  · exact grounded_unbound grounded buffers_push (by simp [isUnbound])
  · rename_i moves
    have removed := grounded_unbound grounded
      (@buffers_push block (.linkRemoved moved.storedFrom moved.storedTo moved.relation))
      (by simp [isUnbound])
    refine grounded_cons removed buffers_push ?_ (by simp)
    -- only a link that is written again names its ends
    have refers : (Operation.rehomeLink moved).refersTo =
        [moved.canonicalFrom, moved.canonicalTo] := if_neg moves
    rw [refers] at known
    exact ⟨(known _ List.mem_cons_self).append, (known _ (by simp)).append⟩

theorem grounded_call {op : Operation} (grounded : InOrder (Grounded graph) block.buffer)
    (known : ∀ id ∈ op.refersTo, KnownMemory graph block.buffer id)
    (ran : Calls graph block (now, op) after) : InOrder (Grounded graph) after.buffer := by
  cases op with
  | create => exact grounded_create grounded ran
  | rename =>
    rcases rename_ok ran with rfl | ⟨free, oldName, found, rfl⟩
    · exact grounded
    · exact grounded_cons grounded buffers_pushAll
        ⟨knownMemory_of_resolveName found, unnamed_of_resolve free⟩ (by simp)
  | append fresh id text opts => exact grounded_append grounded (known id List.mem_cons_self) ran
  | appendDedup fresh id text opts distinctFrom hits =>
    rcases appendDedup_ok ran with done | rfl | ⟨memory, view, _, _, source, found, _, rfl⟩
    · exact grounded_append grounded (known id List.mem_cons_self) done
    · exact grounded
    · exact grounded_cons grounded buffers_pushAll
        ⟨.inl (contains_of_entryById found), fun one named => nomatch named⟩ (by simp)
  | supersede => exact grounded_supersede grounded ran
  | revise fresh id old text opts =>
    obtain ⟨_, middle, first, second⟩ := revise_ok ran
    exact grounded_supersede (grounded_append grounded (known id List.mem_cons_self) first) second
  | attest =>
    obtain ⟨live, found, _, _, _, _, _, _, _, rfl | rfl⟩ := attest_ok ran
    · exact grounded
    · exact grounded_cons grounded buffers_pushAll
        ⟨known_of_liveEntry found, fun one named => nomatch named⟩ (by simp)
  | consolidate => exact grounded_consolidate grounded ran
  | consolidateInto => exact grounded_consolidateInto grounded ran
  | createTag =>
    obtain ⟨absent, rfl⟩ := createTag_ok ran
    exact grounded_cons grounded buffers_pushAll (uncreated_of_tagExists absent) (by simp)
  | tag id name =>
    obtain ⟨found, rfl⟩ := tag_ok ran
    exact grounded_cons grounded buffers_pushAll
      ⟨known id List.mem_cons_self, knownTag_of_tagExists found⟩ (by simp)
  | link fromId toId label opts =>
    obtain ⟨_, done⟩ := link_ok ran
    exact grounded_changeLink grounded (known fromId (by simp [Operation.refersTo]))
      (known toId (by simp [Operation.refersTo])) done
  | rehomeLink =>
    cases ran
    exact grounded_rehomeLink grounded known
  | setVolatility | retract | retractAttestation | describeTag | untag | registerRelation | unlink
    | proposeMerge | designatePrimary =>
    -- the rest buffer only events that refer to nothing
    obtain ⟨events, buffers, kinds⟩ := call_mayBuffer ran
    refine grounded_unbound grounded buffers fun payload member => ?_
    have kind := kinds payload member
    cases payload <;> first | rfl | cases kind

end Calls

/-! ### Runs of blocks and merge confirmations -/

/-- The event an operator's confirmation of a merge appends. -/
def confirmMerge (fromId toId : MemoryId) : EventPayload :=
  .linkCreated fromId toId .sameAs .operator none none .public

/-- The moves of a run that meet no clash: a call refers to memories there are, and what
commits, or another writer appends, refers to what is there and clashes with nothing. -/
def System.Unclashed (system : System) : System.Move → Prop
  | .call slot _ op => ∀ block, system.blocks slot = some block →
    ∀ id ∈ op.refersTo, KnownMemory system.graph block.buffer id
  | .commit slot _ _ => ∀ block, system.blocks slot = some block →
    Unclashing system.graph block.buffer
  | .append _ _ payloads =>
    InOrder (Grounded system.graph) payloads ∧ Unclashing system.graph payloads
  | _ => True

section Runs

variable {before after system : System} {move : System.Move} {graph committed : Graph}
variable {recordedAt : Timestamp} {source : EventSource} {payloads : List EventPayload}

theorem System.append_stuck (going : system.stuck = false)
    (done : Graph.commit recordedAt source payloads system.graph = .ok committed) :
    (system.append recordedAt source payloads).stuck = false := by
  unfold System.append
  rw [if_neg (by simp [going]), foldUntil_of_commit done]

theorem keeps_grounded :
    Keeps System.Unclashed Reachable (fun _ graph block => InOrder (Grounded graph) block.buffer) where
  opens := by
    intro slot graph block _ empty
    rw [empty]
    exact inOrder_nil
  calls := by
    intro system slot now op block after known held _ grounded ran
    exact grounded_call grounded (known block held) ran
  moves := by
    intro slot event before after block applied grounded earlier payload later split
    exact (grounded earlier payload later split).apply applied
  folds := by
    intro system slot recordedAt source block folded refused after _ _ _ committed reachable _
    exact reachable.commit committed
  appends := by
    intro system recordedAt source payloads folded refused after _ _ committed reachable
    exact reachable.commit committed

theorem System.Unclashed.going (unclashed : before.Unclashed move)
    (sound : before.Sound Reachable fun _ graph block => InOrder (Grounded graph) block.buffer)
    (going : before.stuck = false) (step : System.Step before move after) :
    after.stuck = false := by
  cases step with
  | @commit slot recordedAt source block held =>
    have grounded := sound.blocks slot block held
    obtain ⟨committed, done⟩ := (folds_iff_unclashing sound.graph grounded).mpr (unclashed block held)
    exact System.append_stuck going done
  | @append recordedAt source payloads =>
    obtain ⟨grounded, free⟩ := unclashed
    obtain ⟨committed, done⟩ := (folds_iff_unclashing sound.graph grounded).mpr free
    exact System.append_stuck going done
  | _ => exact going

/-- From any reachable graph on, however blocks, passes and merge confirmations interleave,
the fold never gets stuck on an event of the log as long as none of them meets a clash. -/
theorem never_stuck {moves : List System.Move} (reachable : Reachable graph)
    (run : Trace (fun one move other => System.Step one move other ∧ one.Unclashed move)
      { graph } moves system) : system.stuck = false := by
  have start : System.Sound Reachable (fun _ graph block => InOrder (Grounded graph) block.buffer)
      { graph } := ⟨reachable, fun slot block held => nomatch held⟩
  have held := run.invariant (fun one : System => one.stuck = false ∧
      one.Sound Reachable fun _ graph block => InOrder (Grounded graph) block.buffer)
    (fun _ _ _ ⟨step, unclashed⟩ ⟨going, sound⟩ =>
      ⟨unclashed.going sound going step, keeps_grounded.step step unclashed sound⟩) ⟨rfl, start⟩
  exact held.1

end Runs

/-! The launch was planned under a name and deleted. A turn plans it again. -/

namespace Relaunch

def launch : MemoryId := ⟨1⟩
def relaunch : MemoryId := ⟨2⟩

def telling : List EventPayload :=
  [.memoryCreated launch ⟨"topic/launch"⟩, .memoryDeleted launch]

def deletedGraph : Graph := ((commit ⟨0⟩ .operator telling Graph.fresh).toOption).getD Graph.fresh

theorem deletedGraph_reachable : Reachable deletedGraph := by
  have committed : commit ⟨0⟩ .operator telling Graph.fresh = .ok deletedGraph := rfl
  exact Reachable.fresh.commit committed

def turn : MemoryBlock := .open deletedGraph (.participant ⟨3⟩) .platform none none [] 4000

def creates (name : MemoryName) : Operation := .create relaunch ⟨11⟩ name none {}

def created (name : MemoryName) : MemoryBlock :=
  (((creates name).run ⟨deletedGraph, ⟨1⟩⟩ turn).toOption).getD turn

def opened : System := { graph := deletedGraph : System }.put 0 (some turn)
def creating (name : MemoryName) : System := opened.put 0 (some (created name))

def ended (name : MemoryName) : System :=
  ((creating name).append ⟨1⟩ .agent (created name).buffer).put 0 none

def moves (name : MemoryName) : List System.Move :=
  [.open 0 turn, .call 0 ⟨1⟩ (creates name), .commit 0 ⟨1⟩ .agent]

theorem opens : System.Step { graph := deletedGraph } (.open 0 turn) opened := .open rfl rfl

/-- The deleted memory still holds its name, and the creation is refused for good. -/
theorem deleted_name_sticks :
    Reachable deletedGraph ∧
      Trace System.Step { graph := deletedGraph } (moves ⟨"topic/launch"⟩) (ended ⟨"topic/launch"⟩) ∧
      (ended ⟨"topic/launch"⟩).stuck = true := by
  have creates : System.Step opened (.call 0 ⟨1⟩ (creates ⟨"topic/launch"⟩))
      (creating ⟨"topic/launch"⟩) := .call rfl rfl
  have commits : System.Step (creating ⟨"topic/launch"⟩) (.commit 0 ⟨1⟩ .agent)
      (ended ⟨"topic/launch"⟩) := .commit rfl
  exact ⟨deletedGraph_reachable, .cons opens (.cons creates (.single commits)), rfl⟩

/-- Under another name it folds. -/
theorem never_stuck_relaunch : (ended ⟨"topic/relaunch"⟩).stuck = false := by
  have creates : System.Step opened (.call 0 ⟨1⟩ (creates ⟨"topic/relaunch"⟩))
      (creating ⟨"topic/relaunch"⟩) := .call rfl rfl
  have commits : System.Step (creating ⟨"topic/relaunch"⟩) (.commit 0 ⟨1⟩ .agent)
      (ended ⟨"topic/relaunch"⟩) := .commit rfl
  have buffered : (created ⟨"topic/relaunch"⟩).buffer =
      [.memoryCreated relaunch ⟨"topic/relaunch"⟩] := rfl
  have free : Unclashing deletedGraph (created ⟨"topic/relaunch"⟩).buffer := by
    rw [buffered]
    refine ⟨inOrder_singleton ?_, inOrder_singleton ?_, inOrder_singleton ?_, ?_, inOrder_singleton ?_⟩
    · rintro id ⟨⟩ (there | ⟨other, member, _⟩)
      · cases there
      · cases member
    · rintro entry ⟨⟩
    · rintro id name ⟨⟩ row member same
      have held : ∀ row ∈ deletedGraph.memories.rows, row.name ≠ ⟨"topic/relaunch"⟩ := by decide
      exact absurd same (held row member)
    · intro payload member name creates
      obtain rfl := List.mem_singleton.mp member
      cases creates
    · rintro label ⟨⟩
  have known : opened.Unclashed (.call 0 ⟨1⟩ (Relaunch.creates ⟨"topic/relaunch"⟩)) := by
    intro block _ id member
    cases member
  have permitted : (creating ⟨"topic/relaunch"⟩).Unclashed (.commit 0 ⟨1⟩ .agent) := by
    intro block held
    cases held
    exact free
  exact never_stuck deletedGraph_reachable
    (.cons ⟨opens, trivial⟩ (.cons ⟨creates, known⟩ (.single ⟨commits, permitted⟩)))

end Relaunch

end Zuihitsu
