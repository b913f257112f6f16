/-
# Which merges a maintenance pass makes by itself

A maintenance pass may join an empty profile to a person, and has to ask about two
people of whom something is known. The rule looks at what is committed and at the
label that was typed. What decides the classes is what the label means by the time
the link folds, and the links buffered before it. The main result is that a pass
merges no two populated classes as long as the rule would also pass with both of
these counted in.
-/

import Zuihitsu.Block.Partition
import Zuihitsu.Block.Pending
import Zuihitsu.Graph.Applicable

namespace Zuihitsu

open Zuihitsu.Core Zuihitsu.Graph Zuihitsu.Library Zuihitsu.MemoryBlock

/-! ### What one event connects -/

namespace Graph

/-- The memories an event links as the same, whatever label it does that under. -/
def identityLink (before : Graph) : EventPayload → Option (MemoryId × MemoryId)
  | .linkCreated fromId toId label .. =>
    if canonicalLabel before.relations label = .sameAs then some (fromId, toId) else none
  | _ => none

section Connecting

variable {event : Event} {before after : Graph} {first second : MemoryId}

theorem connected_apply (applied : apply event before = .ok after)
    (connected : UnionFind.Connected (sameAsEdges after) first second) :
    UnionFind.Connected (sameAsEdges before ++ (identityLink before event.payload).toList) first
      second := by
  refine connected.of_edges fun edge member => ?_
  have kept : edge ∈ sameAsEdges before → UnionFind.Connected
      (sameAsEdges before ++ (identityLink before event.payload).toList) edge.1 edge.2 :=
    fun earlier => .rel _ _ (List.mem_append_left _ earlier)
  obtain ⟨link, stored, identity, rfl⟩ := mem_sameAsEdges.mp member
  rw [apply_links applied] at stored
  cases payload : event.payload with
  | linkCreated fromId toId label source toldBy toldIn visibility =>
    simp only [linksAfter, payload] at stored
    rw [payload] at kept
    -- an upsert keeps the old links, changes one's posture, or adds the new one
    rcases Table.mem_upsert.mp stored with ⟨old, _⟩ | ⟨old, oldMem, _, rfl⟩ | ⟨_, rfl⟩
    · exact kept (mem_sameAsEdges.mpr ⟨link, old, identity, rfl⟩)
    · exact kept (mem_sameAsEdges.mpr ⟨old, oldMem, identity, rfl⟩)
    · have named : canonicalLabel before.relations label = .sameAs :=
        (canonicalEdge_label before fromId toId label).symm.trans identity
      have linked : UnionFind.Connected
          (sameAsEdges before ++ (identityLink before
            (.linkCreated fromId toId label source toldBy toldIn visibility)).toList) fromId toId :=
        .rel _ _ (by simp [UnionFind.Edge, identityLink, named])
      dsimp only
      rcases canonicalEdge_ends before fromId toId label with ⟨one, other⟩ | ⟨one, other⟩
      · rw [one, other]
        exact linked
      · rw [one, other]
        exact linked.symm
  | linkRemoved =>
    simp only [linksAfter, payload] at stored
    rw [payload] at kept
    exact kept (mem_sameAsEdges.mpr ⟨link, (Table.mem_delete.mp stored).1, identity, rfl⟩)
  | _ =>
    simp only [linksAfter, payload] at stored
    rw [payload] at kept
    exact kept (mem_sameAsEdges.mpr ⟨link, stored, identity, rfl⟩)

end Connecting

/-! ### The stored classes -/

section Columns

variable {graph : Graph} {first second : MemoryId}

theorem classColumn_eq_iff (reachable : Reachable graph)
    (firstKnown : graph.memories.contains first = true)
    (secondKnown : graph.memories.contains second = true) :
    graph.classColumn first = graph.classColumn second ↔
      UnionFind.Connected (sameAsEdges graph) first second := by
  obtain ⟨one, oneMem, rfl⟩ := Table.contains_iff.mp firstKnown
  obtain ⟨two, twoMem, rfl⟩ := Table.contains_iff.mp secondKnown
  have found : graph.memoryRow one.id = some one := Table.find_eq_some_iff.mpr ⟨oneMem, rfl⟩
  have found' : graph.memoryRow two.id = some two := Table.find_eq_some_iff.mpr ⟨twoMem, rfl⟩
  rw [classColumn, classColumn, found, found', ← reachable.classed.classId_eq_iff oneMem twoMem]
  exact Option.some_inj

theorem classColumn_of_connected (reachable : Reachable graph)
    (known : graph.memories.contains first = true)
    (connected : UnionFind.Connected (sameAsEdges graph) first second) :
    graph.classColumn first = graph.classColumn second := by
  by_cases there : graph.memories.contains second = true
  · exact (classColumn_eq_iff reachable known there).mpr connected
  · -- a memory that is not there is linked to nothing
    have unnamed := reachable.linked.unnamed (Bool.eq_false_of_not_eq_true there)
    rw [connected_of_unnamed unnamed connected]

theorem classColumn_of_unlinked {event : Event} {before after : Graph} (reachable : Reachable before)
    (next : event.seq = before.head + 1) (known : before.memories.contains first = true)
    (applied : apply event before = .ok after) (unlinked : identityLink before event.payload = none)
    (same : after.classColumn first = after.classColumn second) :
    before.classColumn first = before.classColumn second := by
  have known' := contains_memory_apply known applied
  obtain ⟨row, member, rfl⟩ := Table.contains_iff.mp known'
  have found : after.memoryRow row.id = some row := Table.find_eq_some_iff.mpr ⟨member, rfl⟩
  have there : after.memories.contains second = true := by
    rw [classColumn, found, Option.map_some, eq_comm] at same
    obtain ⟨other, here, _⟩ := Option.map_eq_some_iff.mp same
    obtain ⟨stored, rfl⟩ := Table.find_eq_some_iff.mp here
    exact Table.contains_of_mem stored
  have connected := connected_apply applied
    ((classColumn_eq_iff (reachable.apply next applied) known' there).mp same)
  rw [unlinked, Option.toList_none, List.append_nil] at connected
  exact classColumn_of_connected reachable known connected

theorem contains_of_populated (populated : isEmptyProfile graph first = false) :
    graph.memories.contains first = true := by
  have some : graph.classEntries first ≠ [] := by
    simpa [isEmptyProfile] using populated
  obtain ⟨view, listed⟩ := List.exists_mem_of_ne_nil _ some
  obtain ⟨row, rowMem, _⟩ := List.mem_map.mp listed
  have matching := (mem_entryRowsWhere.mp rowMem).2
  rw [Bool.and_eq_true] at matching
  obtain ⟨primary, found, _⟩ := inClass_iff.mp matching.1
  obtain ⟨stored, live, _⟩ := Option.map_eq_some_iff.mp found
  have here := (Option.filter_eq_some_iff.mp live).1
  obtain ⟨member, rfl⟩ := Table.find_eq_some_iff.mp here
  exact Table.contains_of_mem member

end Columns

end Graph

/-! ### The rule with the block's own links counted in -/

/-- Two memories populated in one graph are of different classes there still are in another. -/
def KeepsApart (graph other : Graph) : Prop :=
  ∀ first second, isEmptyProfile graph first = false → isEmptyProfile graph second = false →
    graph.classColumn first ≠ graph.classColumn second →
      other.classColumn first ≠ other.classColumn second

/-- The classes of two memories, as a block has left them so far, hold no members of two
different classes populated before it. -/
def MayJoin (graph left : Graph) (fromId toId : MemoryId) : Prop :=
  ∀ first second, isEmptyProfile graph first = false → isEmptyProfile graph second = false →
    left.classColumn first = left.classColumn fromId →
      left.classColumn second = left.classColumn toId →
        graph.classColumn first = graph.classColumn second

section Joining

variable {graph before after : Graph} {event : Event}

theorem KeepsApart.apply (reachable : Reachable before)
    (grown : ∀ id, graph.memories.contains id = true → before.memories.contains id = true)
    (next : event.seq = before.head + 1) (apart : KeepsApart graph before)
    (applied : apply event before = .ok after)
    (mayJoin : ∀ fromId toId, identityLink before event.payload = some (fromId, toId) →
      MayJoin graph before fromId toId) : KeepsApart graph after := by
  intro first second populated populated' different same
  have known := grown first (contains_of_populated populated)
  have known' := grown second (contains_of_populated populated')
  have connected := connected_apply applied
    ((classColumn_eq_iff (reachable.apply next applied) (contains_memory_apply known applied)
      (contains_memory_apply known' applied)).mp same)
  have unjoined : UnionFind.Connected (sameAsEdges before) first second → False := fun already =>
    apart first second populated populated' different
      (classColumn_of_connected reachable known already)
  cases linked : identityLink before event.payload with
  | none =>
    rw [linked, Option.toList_none, List.append_nil] at connected
    exact unjoined connected
  | some ends =>
    obtain ⟨fromId, toId⟩ := ends
    have free := mayJoin fromId toId linked
    rw [linked] at connected
    rcases UnionFind.connected_concat _ connected with already | ⟨one, two⟩ | ⟨one, two⟩
    · exact unjoined already
    · exact different (free first second populated populated'
        (classColumn_of_connected reachable known one)
        (classColumn_of_connected reachable known' two.symm))
    · exact different (free second first populated' populated
        (classColumn_of_connected reachable known' two.symm)
        (classColumn_of_connected reachable known one)).symm

end Joining

namespace MemoryBlock

/-- The memories a maintenance call joins into one class, if it joins any: by a `same_as` with
an empty profile, by a link under another label that means it, or by moving such a link. -/
def joins (graph : Graph) (block : MemoryBlock) : Operation → Option (MemoryId × MemoryId)
  | .link fromId toId label _ =>
    if canonicalLabel (registryOf graph block) label ≠ .sameAs then none
    else if label ≠ .sameAs then
      some (classWriteTarget graph block fromId, classWriteTarget graph block toId)
    else if isEmptyProfile graph fromId || isEmptyProfile graph toId then some (fromId, toId)
    else none
  | .rehomeLink moved =>
    if moved.survivor then none
    else if canonicalLabel (registryOf graph block) moved.relation = .sameAs then
      some (moved.canonicalFrom, moved.canonicalTo)
    else none
  | _ => none

/-- Whatever a call joins, it may join by the graph the block leaves so far. -/
def JoinsFreely (graph : Graph) (block : MemoryBlock) (op : Operation) : Prop :=
  ∀ recordedAt source left, commit recordedAt source block.buffer graph = .ok left →
    ∀ fromId toId, joins graph block op = some (fromId, toId) → MayJoin graph left fromId toId

/-- Whether an event links two memories. -/
def isLink : EventPayload → Bool
  | .linkCreated .. => true
  | _ => false

section Commits

variable {graph before after : Graph} {recordedAt : Timestamp} {source : EventSource}
variable {payload : EventPayload} {payloads : List EventPayload}

theorem identityLink_of_quiet (quiet : isLink payload = false) :
    identityLink before payload = none := by
  cases payload with
  | linkCreated => cases quiet
  | _ => rfl

/-- A graph some events lead to: reachable, with every memory it had. -/
structure GrownFrom (graph other : Graph) : Prop where
  reachable : Reachable other
  known : ∀ id, graph.memories.contains id = true → other.memories.contains id = true

theorem GrownFrom.commit (grown : GrownFrom graph before)
    (committed : commit recordedAt source payloads before = .ok after) : GrownFrom graph after :=
  ⟨grown.reachable.commit committed,
    fun id there => contains_memory_commit (grown.known id there) committed⟩

theorem keepsApart_quiet (grown : GrownFrom graph before) (apart : KeepsApart graph before)
    (committed : commit recordedAt source payloads before = .ok after)
    (quiet : ∀ payload ∈ payloads, isLink payload = false) : KeepsApart graph after := by
  induction payloads generalizing before with
  | nil =>
    cases committed
    exact apart
  | cons payload rest ih =>
    obtain ⟨here, later⟩ := List.forall_mem_cons.mp quiet
    obtain ⟨middle, applied, remaining⟩ := commit_cons_ok.mp committed
    have first : commit recordedAt source [payload] before = .ok middle :=
      commit_cons_ok.mpr ⟨middle, applied, rfl⟩
    refine ih (grown.commit first) ?_ remaining later
    refine apart.apply grown.reachable grown.known rfl applied fun fromId toId linked => ?_
    rw [identityLink_of_quiet here] at linked
    cases linked

theorem keepsApart_link {fromId toId : MemoryId} {label : RelationName} {by' : LinkSource}
    {toldBy : Option Teller} {toldIn : Option ConversationRef} {visibility : Visibility}
    (grown : GrownFrom graph before) (apart : KeepsApart graph before)
    (committed : commit recordedAt source
      [.linkCreated fromId toId label by' toldBy toldIn visibility] before = .ok after)
    (mayJoin : canonicalLabel before.relations label = .sameAs →
      MayJoin graph before fromId toId) : KeepsApart graph after := by
  obtain ⟨middle, applied, nothing⟩ := commit_cons_ok.mp committed
  cases nothing
  refine apart.apply grown.reachable grown.known rfl applied fun one other linked => ?_
  simp only [identityLink] at linked
  split at linked
  · rename_i named
    cases linked
    exact mayJoin named
  · cases linked

theorem mayJoin_removed {fromId toId one other : MemoryId} {label : RelationName}
    (grown : GrownFrom graph before) (free : MayJoin graph before fromId toId)
    (committed : commit recordedAt source [.linkRemoved one other label] before = .ok after) :
    MayJoin graph after fromId toId := by
  obtain ⟨middle, applied, nothing⟩ := commit_cons_ok.mp committed
  cases nothing
  intro first second populated populated' toFrom toTo
  exact free first second populated populated'
    (classColumn_of_unlinked grown.reachable rfl (grown.known _ (contains_of_populated populated))
      applied rfl toFrom)
    (classColumn_of_unlinked grown.reachable rfl (grown.known _ (contains_of_populated populated'))
      applied rfl toTo)

end Commits

/-! ### Whole passes -/

section Passes

variable {graph : Graph} {block after : MemoryBlock} {call : Timestamp × Operation}

/-- A call buffers nothing that links, or one link, and where its label means the identity
relation the link is of the memories the call joins. -/
def LinksAsJoined (graph : Graph) (block after : MemoryBlock) (op : Operation)
    (label : RelationName) : Prop :=
  (∃ events, Buffers block events after ∧ ∀ payload ∈ events, isLink payload = false) ∨
    ∃ one other source toldBy toldIn visibility, after = block.pushAll
        [.linkCreated one other label source toldBy toldIn visibility] ∧
      (canonicalLabel (registryOf graph block) label = .sameAs →
        joins graph block op = some (one, other))

theorem linksAsJoined_of_writeLink {engine : Engine} {op : Operation} {one other : MemoryId}
    {label : RelationName} {forced : Option ForcedVisibility}
    (wrote : writeLink engine block one other label true forced = .ok after)
    (joined : canonicalLabel (registryOf graph block) label = .sameAs →
      joins graph block op = some (one, other)) : LinksAsJoined graph block after op label := by
  rcases writeLink_ok wrote with rfl | ⟨visibility, linked⟩ | rfl
  · exact .inl ⟨[], buffers_self, by simp⟩
  · exact .inr ⟨one, other, _, _, _, visibility, linked, joined⟩
  · exact .inl ⟨_, buffers_pushAll, by simp [isLink]⟩

theorem link_joins {now : Timestamp} {fromId toId : MemoryId} {label : RelationName}
    {opts : LinkOptions} (agent : block.authority = .agent)
    (done : link ⟨graph, now⟩ block fromId toId label opts = .ok after) :
    LinksAsJoined graph block after (.link fromId toId label opts) label := by
  obtain ⟨forced, changed⟩ := link_ok done
  simp only [changeLink, bind_eq_ok, exists_const, refuseIf_ok, Bool.not_eq_false] at changed
  obtain ⟨_, changed⟩ := changed
  split at changed
  · rename_i typed
    simp only [bind_eq_ok, exists_checked, agent] at changed
    obtain ⟨_, changed⟩ := changed
    split at changed
    · exact .inl ⟨_, proposeMerge_ok changed ▸ buffers_pushAll, by simp [isLink]⟩
    · -- the rule has found one of the two profiles empty
      rename_i free
      refine linksAsJoined_of_writeLink changed fun named => ?_
      have empty : (isEmptyProfile graph fromId || isEmptyProfile graph toId) = true := by
        by_contra populated
        simp only [Bool.or_eq_true, not_or, Bool.not_eq_true] at populated
        exact free ⟨trivial, populated⟩
      subst typed
      simp [joins, named, empty]
  · rename_i other
    exact linksAsJoined_of_writeLink changed fun named => by simp [joins, named, other]

/-- The invariant of a pass: what its buffer leaves keeps the populated classes apart. -/
structure Separates (graph : Graph) (block : MemoryBlock) : Prop where
  agent : block.authority = .agent
  apart : ∀ recordedAt source left, commit recordedAt source block.buffer graph = .ok left →
    KeepsApart graph left

theorem Separates.step (reachable : Reachable graph) (separates : Separates graph block)
    (free : JoinsFreely graph block call.2) (calls : Calls graph block call after) :
    Separates graph after := by
  have from' : GrownFrom graph graph := ⟨reachable, fun _ there => there⟩
  obtain ⟨now, op⟩ := call
  -- a call that links nothing changes nothing
  have quietly : ∀ events, Buffers block events after → (∀ payload ∈ events, isLink payload = false) →
      Separates graph after := by
    intro events buffers quiet
    have extended := buffers.buffer
    obtain ⟨seeds, rfl⟩ := buffers
    refine ⟨separates.agent, fun recordedAt source left done => ?_⟩
    obtain ⟨middle, first, rest⟩ := commit_append_ok.mp done
    exact keepsApart_quiet (from'.commit first) (separates.apart _ _ _ first) rest quiet
  cases op with
  | link =>
    rcases link_joins separates.agent calls with ⟨events, buffers, quiet⟩ |
      ⟨one, other, by', toldBy, toldIn, visibility, rfl, joined⟩
    · exact quietly events buffers quiet
    · refine ⟨separates.agent, fun recordedAt source left done => ?_⟩
      obtain ⟨middle, first, rest⟩ := commit_append_ok.mp done
      refine keepsApart_link (from'.commit first) (separates.apart _ _ _ first) rest fun named => ?_
      rw [relations_commit first] at named
      exact free _ _ _ first one other (joined named)
  | rehomeLink moved =>
    cases calls
    by_cases kept : moved.survivor = true
    · have removes : Buffers block [.linkRemoved moved.storedFrom moved.storedTo moved.relation]
          (block.rehomeLink moved) := by
        rw [MemoryBlock.rehomeLink, if_pos kept]
        exact buffers_push
      exact quietly _ removes (by simp [isLink])
    · rw [MemoryBlock.rehomeLink, if_neg kept]
      refine ⟨separates.agent, fun recordedAt source left done => ?_⟩
      obtain ⟨gone, first, rest⟩ := commit_append_ok.mp done
      obtain ⟨middle, leading, removed⟩ := commit_append_ok.mp first
      have grown := from'.commit leading
      refine keepsApart_link (grown.commit removed)
        (keepsApart_quiet grown (separates.apart _ _ _ leading) removed (by simp [isLink])) rest
        fun named => ?_
      -- the removal changes no label, and frees nothing that may not be joined before it
      rw [relations_commit first, push_buffer, List.foldl_append] at named
      have joined : joins graph block (.rehomeLink moved) =
          some (moved.canonicalFrom, moved.canonicalTo) := by
        simp [joins, kept, show canonicalLabel (registryOf graph block) moved.relation = .sameAs
          from named]
      have may : MayJoin graph middle moved.canonicalFrom moved.canonicalTo :=
        free _ _ _ leading _ _ joined
      exact mayJoin_removed grown may removed
  | _ =>
    obtain ⟨events, buffers, kinds⟩ := call_mayBuffer calls
    refine quietly events buffers fun payload member => ?_
    have kind := kinds payload member
    cases payload with
    | linkCreated => cases kind
    | _ => rfl

/-- However many calls a maintenance pass makes, and in whatever order, no two classes that
each held a live entry are one when it commits, as long as whatever a call joins it may join
by the graph the block leaves so far. -/
theorem pass_keeps_apart (reachable : Reachable graph) (opened : block.buffer = [])
    (agent : block.authority = .agent) {calls : List (Timestamp × Operation)}
    (run : Trace (fun one call other => Calls graph one call other ∧ JoinsFreely graph one call.2)
      block calls after)
    {recordedAt : Timestamp} {source : EventSource} {left : Graph}
    (done : commit recordedAt source after.buffer graph = .ok left) : KeepsApart graph left := by
  have start : Separates graph block := by
    refine ⟨agent, fun recordedAt source left nothing => ?_⟩
    rw [opened] at nothing
    cases nothing
    exact fun _ _ _ _ different => different
  have separates : Separates graph after :=
    run.invariant (Separates graph)
      (fun _ _ _ ⟨calls, free⟩ earlier => earlier.step reachable free calls) start
  exact separates.apart _ _ _ done

end Passes

end MemoryBlock

/-! Two accounts of whom something is known, and an empty profile. A pass joins the profile to
each. -/

namespace TwoAccounts

def discord : MemoryId := ⟨1⟩
def slack : MemoryId := ⟨2⟩
def profile : MemoryId := ⟨3⟩

def knownLog : List EventPayload :=
  [.linkTypeRegistered .sameAs .sameAs .many .many true false "",
    .memoryCreated discord ⟨"person/1@discord"⟩, .memoryCreated slack ⟨"person/2@slack"⟩,
    .memoryCreated profile ⟨"person/dave"⟩,
    .memoryContentAppended discord ⟨11⟩ ⟨0⟩ none "plays the cello" .agent none .public,
    .memoryContentAppended slack ⟨12⟩ ⟨0⟩ none "runs the release" .agent none .public]

def knownGraph : Graph := ((commit ⟨0⟩ .agent knownLog Graph.fresh).toOption).getD Graph.fresh

theorem knownGraph_reachable : Reachable knownGraph := by
  have folds : commit ⟨0⟩ .agent knownLog Graph.fresh = .ok knownGraph := rfl
  exact Reachable.fresh.commit folds

def pass : MemoryBlock := .open knownGraph .agent .agent none none [] 4000

def joining : List (Timestamp × Operation) :=
  [(⟨1⟩, .link discord profile .sameAs { visibility := some .public }),
    (⟨2⟩, .link profile slack .sameAs { visibility := some .public })]

/-- The block after some calls, as far as they succeed. -/
def blockAfter (calls : List (Timestamp × Operation)) : MemoryBlock :=
  calls.foldl (fun block call => ((call.2.run ⟨knownGraph, call.1⟩ block).toOption).getD block) pass

/-- The graph those calls leave. -/
def leftBy (calls : List (Timestamp × Operation)) : Graph :=
  ((commit ⟨3⟩ .agent (blockAfter calls).buffer knownGraph).toOption).getD knownGraph

theorem joins_first : Calls knownGraph pass
    (⟨1⟩, .link discord profile .sameAs { visibility := some .public })
    (blockAfter (joining.take 1)) := rfl

theorem joins_both : Calls knownGraph (blockAfter (joining.take 1))
    (⟨2⟩, .link profile slack .sameAs { visibility := some .public }) (blockAfter joining) := rfl

theorem committed_first : commit ⟨3⟩ .agent (blockAfter (joining.take 1)).buffer knownGraph =
    .ok (leftBy (joining.take 1)) := rfl

theorem buffered_both : (blockAfter joining).buffer = (blockAfter (joining.take 1)).buffer ++
    [.linkCreated profile slack .sameAs .agent (some .agent) none .public] := rfl

/-- The two are one person after the pass. -/
theorem accounts_joined :
    Reachable knownGraph ∧ pass.buffer = [] ∧ pass.authority = .agent ∧
      Trace (Calls knownGraph) pass joining (blockAfter joining) ∧
      ∃ left, commit ⟨3⟩ .agent (blockAfter joining).buffer knownGraph = .ok left ∧
        ¬KeepsApart knownGraph left := by
  refine ⟨knownGraph_reachable, rfl, rfl, .cons joins_first (.single joins_both), ?_⟩
  have middle := knownGraph_reachable.commit committed_first
  obtain ⟨left, applied⟩ := @apply_of_applicable
    ⟨(leftBy (joining.take 1)).head + 1, ⟨3⟩, .agent,
      .linkCreated profile slack .sameAs .agent (some .agent) none .public⟩
    (leftBy (joining.take 1)) middle.attested ⟨rfl, rfl, rfl⟩
  have committed : commit ⟨3⟩ .agent (blockAfter joining).buffer knownGraph = .ok left := by
    rw [buffered_both]
    exact commit_append_ok.mpr ⟨_, committed_first, commit_cons_ok.mpr ⟨left, applied, rfl⟩⟩
  refine ⟨left, committed, fun apart => ?_⟩
  have edges : sameAsEdges left = [(discord, profile), (slack, profile)] := by
    rw [sameAsEdges_eq, apply_links applied]
    rfl
  have first : UnionFind.Connected (sameAsEdges left) discord profile := by
    rw [edges]
    exact .rel _ _ List.mem_cons_self
  have second : UnionFind.Connected (sameAsEdges left) slack profile := by
    rw [edges]
    exact .rel _ _ (List.mem_cons_of_mem _ List.mem_cons_self)
  have known : knownGraph.memories.contains discord = true := rfl
  have there : left.memories.contains discord = true := contains_memory_commit known committed
  exact apart discord slack rfl rfl (by decide) (classColumn_of_connected
    (knownGraph_reachable.commit committed) there (first.trans _ _ _ second.symm))

theorem knownGraph_classes : knownGraph.memories.rows.map (fun row => (row.id, row.classId)) =
    [(discord, discord), (slack, slack), (profile, profile)] := rfl

/-- Joining the profile to one of them merges nobody. -/
theorem accounts_apart : KeepsApart knownGraph (leftBy (joining.take 1)) := by
  refine pass_keeps_apart knownGraph_reachable rfl rfl (.single ⟨joins_first, ?_⟩) committed_first
  intro recordedAt source left nothing fromId toId joined
  cases nothing
  cases joined
  intro first second _ populated _ toProfile
  -- nobody of whom something is known is of the profile's class
  have own : knownGraph.classColumn profile = some profile := rfl
  rw [own, classColumn] at toProfile
  obtain ⟨row, found, primary⟩ := Option.map_eq_some_iff.mp toProfile
  obtain ⟨stored, rfl⟩ := Table.find_eq_some_iff.mp found
  have listed : (row.id, row.classId) ∈ knownGraph.memories.rows.map fun row => (row.id, row.classId) :=
    List.mem_map_of_mem stored
  rw [knownGraph_classes, primary] at listed
  have same : row.id = profile := by simpa [discord, slack, profile] using listed
  have empty : isEmptyProfile knownGraph profile = true := rfl
  have clash := populated
  rw [show MemoryRow.id row = profile from same, empty] at clash
  cases clash

end TwoAccounts

end Zuihitsu
