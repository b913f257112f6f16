/-
# A connector keeps to its own platform

Nothing stores which connector a memory belongs to. A request reaches the memories that
its platform's participant ids and scope paths name, and beyond them only through what the
caller hands in: the entries to supersede, which are looked up among the live entries of
the whole class, and the label of a link, which is compared with `same_as` as it was typed
and stored under the relation it means. Where neither leads off the platform, every content
event is on a memory the platform names, and the identity classes stay as they are.
-/

import Zuihitsu.Block.Reach
import Zuihitsu.Graph.Linking
import Zuihitsu.Platform.Contacts

namespace Zuihitsu.Platform

open Zuihitsu.Core Zuihitsu.Graph Zuihitsu.Library Zuihitsu.MemoryBlock

/-! ### What a connector's calls buffer -/

/-- The entry an event supersedes or retracts, or takes an account of. -/
def retires : EventPayload → Option EntryId
  | .memorySuperseded _ old _ => some old
  | payload => retractedEntry payload

theorem mem_contentEntries_of_retires {payload : EventPayload} {entry : EntryId}
    (retired : retires payload = some entry) : entry ∈ contentEntries payload := by
  cases payload with
  | memorySuperseded _ _ _ | entryRetracted | attestationRetracted =>
    cases retired
    exact List.mem_cons_self
  | _ => cases retired

/-- An event writes content of one memory, appends only new entries, and beside these names
only entries that were asked for and are live in the memory's class. -/
structure Addressed (graph : Graph) (memory : MemoryId) (fresh asked : EntryId → Prop)
    (payload : EventPayload) : Prop where
  target : contentTarget payload = some memory
  appends : ∀ entry, appended payload = some entry → fresh entry
  named : ∀ entry ∈ contentEntries payload,
    fresh entry ∨ asked entry ∧ ∃ view ∈ graph.classEntries memory, view.entryId = entry

/-- A connector's block with a buffer of such events. -/
structure Writing (graph : Graph) (memory : MemoryId) (fresh asked : EntryId → Prop)
    (block : MemoryBlock) : Prop where
  connector : block.connectorAuthored = true
  buffer : ∀ payload ∈ block.buffer, Addressed graph memory fresh asked payload

section Calls

variable {engine : Engine} {block after : MemoryBlock} {memory : MemoryId} {old new entry : EntryId}
variable {fresh asked : EntryId → Prop} {text : String}

theorem Writing.target (writing : Writing engine.graph memory fresh asked block) :
    classWriteTarget engine.graph block memory = memory := by
  rw [classWriteTarget, writing.connector, if_pos rfl]

theorem Writing.pushAll (writing : Writing engine.graph memory fresh asked block)
    {events : List EventPayload}
    (more : ∀ payload ∈ events, Addressed engine.graph memory fresh asked payload) :
    Writing engine.graph memory fresh asked (block.pushAll events) where
  connector := writing.connector
  buffer := by
    rw [pushAll_buffer]
    exact List.forall_mem_append.mpr ⟨writing.buffer, more⟩

theorem Writing.live (writing : Writing engine.graph memory fresh asked block) {live : LiveEntry}
    (found : liveEntry engine.graph block memory entry = .ok live) :
    fresh entry ∨ ∃ view ∈ engine.graph.classEntries memory, view.entryId = entry := by
  obtain ⟨listed, rfl⟩ := mem_of_liveEntry found
  rcases List.mem_append.mp listed with committed | pending
  · obtain ⟨view, member, rfl⟩ := List.mem_map.mp committed
    exact .inr ⟨view, (List.mem_filter.mp member).1, rfl⟩
  · obtain ⟨payload, member, read⟩ := List.mem_filterMap.mp pending
    refine .inl ((writing.buffer payload member).appends _ ?_)
    cases payload with
    | memoryContentAppended =>
      simp only [livePending, Option.ite_none_right_eq_some, Option.some.injEq] at read
      rw [← read.2]
      rfl
    | _ => cases read

theorem Writing.append (writing : Writing engine.graph memory fresh asked block) (isNew : fresh new)
    (done : MemoryBlock.append engine new block memory text publicly = .ok after) :
    Writing engine.graph memory fresh asked after := by
  obtain ⟨forced, visibility, _, _, rfl⟩ := append_ok done
  rw [writing.target]
  refine writing.pushAll fun payload member => ?_
  rcases List.mem_cons.mp member with rfl | volatile
  · refine ⟨rfl, fun entry appends => ?_, by simp [contentEntries]⟩
    cases appends
    exact isNew
  · simp [inlineVolatility, publicly] at volatile

theorem Writing.supersede (writing : Writing engine.graph memory fresh asked block)
    (isNew : fresh new) (wanted : asked old)
    (done : MemoryBlock.supersede engine block memory old new = .ok after) :
    Writing engine.graph memory fresh asked after := by
  obtain ⟨⟨live, found⟩, _, rfl⟩ := supersede_ok done
  rw [writing.target] at found ⊢
  refine writing.pushAll fun payload member => ?_
  cases List.mem_singleton.mp member
  refine ⟨rfl, by simp [appended], fun entry names => ?_⟩
  rcases List.mem_pair.mp names with rfl | rfl
  · exact (writing.live found).imp_right fun there => ⟨wanted, there⟩
  · exact .inl isNew

theorem retract_targets {reason : String} {producedBy : Option ProducedBy}
    (done : retract engine block memory old reason producedBy = .ok after) :
    ∃ live events,
      liveEntry engine.graph block (classWriteTarget engine.graph block memory) old = .ok live ∧
      after = block.pushAll events ∧ ∀ event ∈ events, retractedEntry event = some old ∧
        contentTarget event = some (classWriteTarget engine.graph block memory) := by
  simp only [retract, bind_eq_ok, exists_checked, exists_const, refuseIf_ok] at done
  obtain ⟨_, _, _, target, live, done⟩ := done
  split at done
  · cases done
    exact ⟨target, _, live, rfl, by simp [retractedEntry, contentTarget]⟩
  · simp only [bind_eq_ok, exists_checked] at done
    obtain ⟨_, done⟩ := done
    cases done
    exact ⟨target, _, live, push_eq_pushAll, by simp [retractedEntry, contentTarget]⟩

theorem Writing.retract (writing : Writing engine.graph memory fresh asked block)
    (wanted : asked old)
    (done : MemoryBlock.retract engine block memory old clearedReason none = .ok after) :
    Writing engine.graph memory fresh asked after := by
  obtain ⟨live, events, found, rfl, retracts⟩ := retract_targets done
  rw [writing.target] at found retracts
  refine writing.pushAll fun payload member => ?_
  obtain ⟨retracted, target⟩ := retracts payload member
  refine ⟨target, fun entry appends => ?_, fun entry names => ?_⟩
  · cases payload with
    | memoryContentAppended => cases retracted
    | _ => cases appends
  · have same : entry = old := by
      cases payload with
      | entryRetracted | attestationRetracted =>
        cases retracted
        exact List.mem_singleton.mp names
      | _ => cases retracted
    rw [same]
    exact (writing.live found).imp_right fun there => ⟨wanted, there⟩

theorem ifLive_ok {result : Except MemoryError MemoryBlock}
    (done : ifLive block result = .ok after) :
    after = block ∨ result = .ok after := by
  unfold ifLive at done
  split at done
  · exact .inl (Except.ok.inj done).symm
  · exact .inr done

theorem Writing.recordValue (writing : Writing engine.graph memory fresh asked block)
    {supersedes : Option EntryId} (isNew : fresh new)
    (wanted : ∀ old, supersedes = some old → asked old)
    (done : Platform.recordValue engine memory block new text supersedes = .ok after) :
    Writing engine.graph memory fresh asked after := by
  obtain ⟨appended, first, done⟩ := bind_eq_ok.mp done
  have recorded := writing.append isNew first
  cases supersedes with
  | none =>
    cases done
    exact recorded
  | some old =>
    rcases ifLive_ok done with rfl | superseded
    · exact recorded
    · exact recorded.supersede isNew (wanted old rfl) superseded

theorem Writing.projectAttribute (writing : Writing engine.graph memory fresh asked block)
    {item : EntryId × ParticipantAttribute} (isNew : fresh item.1)
    (wanted : ∀ old, item.2.supersedes = some old → asked old)
    (done : Platform.projectAttribute engine memory block item = .ok after) :
    Writing engine.graph memory fresh asked after := by
  unfold Platform.projectAttribute at done
  split at done
  · exact writing.recordValue isNew wanted done
  · split at done
    · rename_i old asks
      rcases ifLive_ok done with rfl | retracted
      · exact writing
      · exact writing.retract (wanted old asks) retracted
    · cases done
      exact writing

theorem writing_connectorBlock (graph : Graph) :
    Writing graph memory fresh asked (connectorBlock graph) :=
  ⟨rfl, by simp [connectorBlock, authoredByConnector, MemoryBlock.open]⟩

theorem foldlM_invariant {α β ε : Type} {step : α → β → Except ε α} {holds : α → Prop}
    {items : List β}
    (keeps : ∀ item ∈ items, ∀ state next, step state item = .ok next → holds state → holds next)
    {first last : α} (ran : items.foldlM step first = .ok last) (start : holds first) :
    holds last := by
  induction items generalizing first with
  | nil =>
    cases ran
    exact start
  | cons item rest ih =>
    rw [List.foldlM_cons] at ran
    obtain ⟨next, taken, remaining⟩ := bind_eq_ok.mp ran
    refine ih (fun other member => keeps other (List.mem_cons_of_mem _ member)) remaining ?_
    exact keeps item List.mem_cons_self first next taken start

end Calls

/-! ### What a request keeps to -/

/-- The store records an entry as a platform's connector's. -/
def Recorded (platform : String) (log : List Event) (entry : EntryId) : Prop :=
  ∃ event ∈ log, event.source = .platformConnector platform ∧ appended event.payload = some entry

/-- The part of a request's effect that is the platform's own. -/
structure Confined (platform : String) (before after : Host) : Prop where
  content : ∀ event ∈ after.log.drop before.log.length, ∀ memory,
    WritesContent before.graph memory event.payload → Named platform after.graph memory
  retired : ∀ event ∈ after.log.drop before.log.length, ∀ entry,
    retires event.payload = some entry → before.graph.entries.contains entry = true →
      Recorded platform before.log entry
  linksGone : ∀ row ∈ before.graph.links, row ∉ after.graph.links →
    Named platform after.graph row.fromId ∧ Named platform after.graph row.toId ∧
      row.source ≠ .agent ∧ row.source ≠ .operator
  linksNew : ∀ row ∈ after.graph.links, row ∉ before.graph.links →
    Named platform after.graph row.fromId ∧ Named platform after.graph row.toId
  classes : SamePartition before.graph after.graph

/-- An entry that is live in the class of a node was recorded by the platform's connector,
on a memory the platform names. -/
def Owns (platform : String) (host : Host) (node : LinkNode) (entry : EntryId) : Prop :=
  ∀ id, bearer host.graph node = some id → ∀ row ∈ host.graph.entries, row.entryId = entry →
    row.supersededBy = none → host.graph.inClass id row.memoryId = true →
      Recorded platform host.log entry ∧ Named platform host.graph row.memoryId

/-- A label does not mean `same_as`, and nobody else has asserted the edge it means between
two nodes. -/
def Unasserted (graph : Graph) (fromNode toNode : LinkNode) (relation : RelationName) : Prop :=
  canonicalLabel graph.relations relation ≠ .sameAs ∧
    ∀ fromId toId, bearer graph fromNode = some fromId → bearer graph toNode = some toId →
      ∀ row ∈ graph.links, row.key = canonicalEdge graph fromId toId relation →
        row.source ≠ .agent ∧ row.source ≠ .operator

/-- A request hands in nothing that leads off its platform. -/
def Within (platform : String) (host : Host) : Request → Prop
  | .project target _ attributes => ∀ item ∈ attributes, ∀ entry, item.2.supersedes = some entry →
    Owns platform host (linkNode platform target) entry
  | .writeContext scopePath _ items => ∀ item ∈ items, ∀ entry,
    item.2.supersedes = some entry → Owns platform host (.context ⟨platform, scopePath⟩) entry
  | .link fromNode toNode _ _ relation _ => relation ≠ .sameAs →
    Unasserted host.graph (linkNode platform fromNode) (linkNode platform toNode) relation

section Effects

variable {before middle after : Host} {platform : String} {node : LinkNode}
variable {fresh memory : MemoryId} {now : Timestamp}

/-- What first contacts leave as it was: they append nothing else, and touch no link, no
registration, no entry, no class and no name that is there. -/
structure Contacted (before after : Host) : Prop where
  log : ∃ events, after.log = before.log ++ events ∧
    ∀ event ∈ events, isContact event.payload = true
  frame : after.graph.links = before.graph.links ∧
    after.graph.relations = before.graph.relations ∧ after.graph.entries = before.graph.entries
  known : ∀ id, before.graph.memories.contains id = true → after.graph.memories.contains id = true
  classColumn : ∀ id, before.graph.memories.contains id = true →
    after.graph.classColumn id = before.graph.classColumn id
  resolves : ∀ node memory, resolveNode before.graph node = some memory →
    resolveNode after.graph node = some memory

theorem Contacted.refl (host : Host) : Contacted host host where
  log := ⟨[], by simp, by simp⟩
  frame := ⟨rfl, rfl, rfl⟩
  known _ known := known
  classColumn _ _ := rfl
  resolves _ _ resolves := resolves

theorem Contacted.trans (first : Contacted before middle) (second : Contacted middle after) :
    Contacted before after where
  log := by
    obtain ⟨events, grown, contacts⟩ := first.log
    obtain ⟨more, further, moreContacts⟩ := second.log
    refine ⟨events ++ more, by rw [further, grown, List.append_assoc], ?_⟩
    exact List.forall_mem_append.mpr ⟨contacts, moreContacts⟩
  frame := by
    obtain ⟨links, relations, stored⟩ := first.frame
    obtain ⟨laterLinks, laterRelations, laterStored⟩ := second.frame
    exact ⟨laterLinks.trans links, laterRelations.trans relations, laterStored.trans stored⟩
  known id known := second.known id (first.known id known)
  classColumn id known :=
    (second.classColumn id (first.known id known)).trans (first.classColumn id known)
  resolves node memory resolves := second.resolves node memory (first.resolves node memory resolves)

/-- What the first contact of a node leaves once it has folded. -/
structure Met (before : Host) (fresh : MemoryId) (node : LinkNode) (after : Host) : Prop where
  contacted : Contacted before after
  folded : ∃ recordedAt source,
    Graph.commit recordedAt source (contact before.graph fresh node).2 before.graph =
      .ok after.graph

theorem contacted_append : Contacted before
    (before.append now .orchestration (contact before.graph fresh node).2) := by
  obtain ⟨folded, refused, split, committed⟩ :=
    before.append_spec now .orchestration (contact before.graph fresh node).2
  have contacts : ∀ payload ∈ folded, isContact payload = true := by
    intro payload member
    have met : payload ∈ (contact before.graph fresh node).2 := by
      rw [split]
      exact List.mem_append_left _ member
    exact isContact_contact payload met
  constructor
  · exact ⟨_, before.append_log _ _ _, fun event member => isContact_contact _ (mem_stamp member).2⟩
  · exact frame_of_contacts contacts committed
  · exact fun id known => contains_memory_commit known committed
  · exact fun id known => classColumn_commit committed
      (fun payload member => sparesClasses_of_contact (contacts payload member)) known
  · exact fun node memory resolves => resolveNode_commit committed
      (fun payload member => keepsNames_of_contact (contacts payload member)) resolves

theorem met_append
    (unstuck :
      (before.append now .orchestration (contact before.graph fresh node).2).stuck = false) :
    Met before fresh node
      (before.append now .orchestration (contact before.graph fresh node).2) :=
  ⟨contacted_append, now, .orchestration, Host.append_unstuck unstuck⟩

theorem resolveOrMintNode_spec (before : Host) (now : Timestamp) (fresh : MemoryId)
    (node : LinkNode) :
    Contacted before (resolveOrMintNode before now fresh node).1 ∧
      ∀ memory, (resolveOrMintNode before now fresh node).2 = .ok memory →
        memory = (contact before.graph fresh node).1 ∧
          Met before fresh node (resolveOrMintNode before now fresh node).1 := by
  unfold resolveOrMintNode
  dsimp only
  split
  · rename_i nothing
    have met : Met before fresh node before :=
      ⟨.refl before, now, .orchestration, by rw [nothing, commit_nil]⟩
    refine ⟨met.contacted, fun memory answered => ?_⟩
    cases answered
    exact ⟨rfl, met⟩
  · refine ⟨contacted_append, fun memory answered => ?_⟩
    dsimp only at answered ⊢
    split at answered
    · cases answered
    · rename_i unstuck
      cases answered
      exact ⟨rfl, met_append (by simpa using unstuck)⟩

theorem samePartition_of_columns {first last : Graph}
    (same : ∀ id, first.memories.contains id = true → last.classColumn id = first.classColumn id) :
    SamePartition first last := by
  intro one other known otherKnown
  rw [same one known, same other otherKnown]

theorem quiet_of_contact {payload : EventPayload} (contacts : isContact payload = true) :
    contentTarget payload = none ∧ contentEntries payload = [] ∧ retires payload = none := by
  cases payload <;> first | exact ⟨rfl, rfl, rfl⟩ | cases contacts

theorem spares_of_content {payload : EventPayload} (target : contentTarget payload = some memory) :
    keepsNames payload = true ∧ sparesClasses payload = true := by
  cases payload <;> first | exact ⟨rfl, rfl⟩ | cases target

theorem links_of_content {event : Event} {first last : Graph}
    (target : contentTarget event.payload = some memory) (applied : apply event first = .ok last) :
    last.links = first.links := by
  rw [apply_links applied]
  cases payload : event.payload with
  | linkCreated | linkRemoved => simp [payload, contentTarget] at target
  | _ => simp only [linksAfter, payload]

theorem log_after {source : EventSource} {payloads : List EventPayload}
    (grown : ∃ events, middle.log = before.log ++ events ∧
      ∀ event ∈ events, isContact event.payload = true) {event : Event}
    (member : event ∈ (middle.append now source payloads).log.drop before.log.length) :
    isContact event.payload = true ∨ event.payload ∈ payloads := by
  obtain ⟨events, grown, contacts⟩ := grown
  rw [middle.append_log, grown, List.append_assoc, List.drop_left] at member
  rcases List.mem_append.mp member with contact | written
  · exact .inl (contacts event contact)
  · exact .inr (mem_stamp written).2

theorem Contacted.confined (contacted : Contacted before after) :
    Confined platform before after := by
  have appended : ∀ event ∈ after.log.drop before.log.length, isContact event.payload = true := by
    obtain ⟨events, grown, contacts⟩ := contacted.log
    rwa [grown, List.drop_left]
  constructor
  · intro event member memory writes
    obtain ⟨untargeted, nameless, _⟩ := quiet_of_contact (appended event member)
    rw [WritesContent, untargeted, nameless] at writes
    simp at writes
  · intro event member entry withdrawn
    rw [(quiet_of_contact (appended event member)).2.2] at withdrawn
    cases withdrawn
  · intro row stored gone
    rw [contacted.frame.1] at gone
    exact absurd stored gone
  · intro row stored new
    rw [contacted.frame.1] at stored
    exact absurd stored new
  · exact samePartition_of_columns fun id known => contacted.classColumn id known

theorem Met.owned {entry : EntryId} (met : Met before fresh node middle)
    (reachable : Reachable before.graph) (new : before.graph.memories.contains fresh = false)
    (owns : Owns platform before node entry)
    (live : ∃ view ∈ middle.graph.classEntries (contact before.graph fresh node).1,
      view.entryId = entry) {row : EntryRow} (stored : row ∈ before.graph.entries)
    (named : row.entryId = entry) :
    Recorded platform before.log entry ∧ Named platform before.graph row.memoryId := by
  obtain ⟨recordedAt, source, committed⟩ := met.folded
  obtain ⟨view, listed, rfl⟩ := live
  obtain ⟨other, there, rfl⟩ := List.mem_map.mp listed
  obtain ⟨otherStored, within⟩ := mem_entryRowsWhere.mp there
  rw [met.contacted.frame.2.2] at otherStored
  have one : other = row := Table.eq_of_key_eq otherStored stored named.symm
  subst one
  rw [Bool.and_eq_true, Option.isNone_iff_eq_none] at within
  have known := entries_known reachable _ stored
  obtain ⟨borne, within'⟩ := inClass_contact reachable new committed known within.1
  exact owns _ borne other stored named within.2 within'

theorem Met.confined_writes {wire : WireLinkNode} {freshEntry asked : EntryId → Prop}
    {block : MemoryBlock} (met : Met before fresh (linkNode platform wire) middle)
    (reachable : Reachable before.graph) (new : before.graph.memories.contains fresh = false)
    (newEntries : ∀ entry, freshEntry entry → before.graph.entries.contains entry = false)
    (owns : ∀ entry, asked entry → Owns platform before (linkNode platform wire) entry)
    (writing : Writing middle.graph (contact before.graph fresh (linkNode platform wire)).1
      freshEntry asked block) :
    Confined platform before (middle.append now (.platformConnector platform) block.buffer) := by
  obtain ⟨folded, refused, split, committed⟩ :=
    middle.append_spec now (.platformConnector platform) block.buffer
  have written : ∀ payload ∈ folded, payload ∈ block.buffer := by
    intro payload member
    rw [split]
    exact List.mem_append_left _ member
  have resolves : ∀ node memory, resolveNode before.graph node = some memory →
      resolveNode (middle.append now (.platformConnector platform) block.buffer).graph node =
        some memory := by
    intro node memory resolves
    refine resolveNode_commit committed (fun payload member => ?_)
      (met.contacted.resolves _ _ resolves)
    exact (spares_of_content (writing.buffer payload (written payload member)).target).1
  have target : Named platform (middle.append now (.platformConnector platform) block.buffer).graph
      (contact before.graph fresh (linkNode platform wire)).1 := by
    obtain ⟨recordedAt, source, contacted⟩ := met.folded
    refine ⟨wire, resolveNode_commit committed (fun payload member => ?_)
      (resolveNode_contact contacted)⟩
    exact (spares_of_content (writing.buffer payload (written payload member)).target).1
  -- an entry of the graph that an event names was asked for, and so is the connector's own
  have own : ∀ payload ∈ block.buffer, ∀ entry ∈ contentEntries payload,
      ∀ row ∈ before.graph.entries, row.entryId = entry →
        Recorded platform before.log entry ∧ Named platform before.graph row.memoryId := by
    intro payload member entry names row stored named
    rcases (writing.buffer payload member).named entry names with fresh | ⟨wanted, live⟩
    · have absent := newEntries entry fresh
      rw [← named, Table.contains_of_mem stored] at absent
      cases absent
    · exact met.owned reachable new (owns entry wanted) live stored named
  have links : (middle.append now (.platformConnector platform) block.buffer).graph.links =
      before.graph.links := by
    have kept := commit_induction (motive := fun graph => graph.links = middle.graph.links)
      (fun payload member _ _ applied earlier =>
        (links_of_content (writing.buffer payload (written payload member)).target applied).trans
          earlier) committed rfl
    exact kept.trans met.contacted.frame.1
  constructor
  · intro event member memory writes
    rcases log_after met.contacted.log member with contact | buffered
    · obtain ⟨untargeted, nameless, _⟩ := quiet_of_contact contact
      rw [WritesContent, untargeted, nameless] at writes
      simp at writes
    · rcases writes with here | ⟨entry, names, row, stored, named, owner⟩
      · rw [(writing.buffer _ buffered).target] at here
        cases here
        exact target
      · obtain ⟨node, there⟩ := (own _ buffered entry names row stored named).2
        rw [owner] at there
        exact ⟨node, resolves _ _ there⟩
  · intro event member entry withdrawn known
    rcases log_after met.contacted.log member with contact | buffered
    · rw [(quiet_of_contact contact).2.2] at withdrawn
      cases withdrawn
    · obtain ⟨row, stored, named⟩ := Table.contains_iff.mp known
      exact (own _ buffered entry (mem_contentEntries_of_retires withdrawn) row stored named).1
  · intro row stored gone
    rw [links] at gone
    exact absurd stored gone
  · intro row stored new
    rw [links] at stored
    exact absurd stored new
  · refine samePartition_of_columns fun id known => ?_
    have still := classColumn_commit committed (fun payload member =>
      (spares_of_content (writing.buffer payload (written payload member)).target).2)
      (met.contacted.known id known)
    exact still.trans (met.contacted.classColumn id known)

/-- Committing what a connector's calls buffered keeps to the platform, and so does a call
that fails. -/
theorem Met.confined_calls {wire : WireLinkNode} (freshEntry asked : EntryId → Prop)
    {called : Except MemoryError MemoryBlock} {answer : Answer}
    (met : Met before fresh (linkNode platform wire) middle)
    (reachable : Reachable before.graph) (new : before.graph.memories.contains fresh = false)
    (newEntries : ∀ entry, freshEntry entry → before.graph.entries.contains entry = false)
    (owns : ∀ entry, asked entry → Owns platform before (linkNode platform wire) entry)
    (writing : ∀ block, called = .ok block →
      Writing middle.graph (contact before.graph fresh (linkNode platform wire)).1 freshEntry asked
        block) :
    Confined platform before (commitCalls middle now platform called answer).1 := by
  cases called with
  | error => exact met.contacted.confined
  | ok block => exact met.confined_writes reachable new newEntries owns (writing block rfl)

theorem confined_project {target : WireLinkNode}
    {attributes : List (EntryId × ParticipantAttribute)} (reachable : Reachable before.graph)
    (generates : (Request.project target fresh attributes).Generates before.graph)
    (within : Within platform before (.project target fresh attributes)) :
    Confined platform before
      (project before now platform (linkNode platform target) fresh attributes).1 := by
  obtain ⟨contacted, comes⟩ := resolveOrMintNode_spec before now fresh (linkNode platform target)
  unfold Platform.project
  generalize resolveOrMintNode before now fresh (linkNode platform target) = resolved at *
  obtain ⟨middle, answered⟩ := resolved
  cases answered with
  | error => exact contacted.confined
  | ok memory =>
    obtain ⟨rfl, met⟩ := comes memory rfl
    dsimp only
    split
    · exact contacted.confined
    · refine met.confined_calls (fun entry => entry ∈ attributes.map Prod.fst)
        (fun entry => ∃ item ∈ attributes, item.2.supersedes = some entry) reachable
        (generates.memories fresh (by simp [Request.freshMemories])) generates.entries ?_ ?_
      · rintro entry ⟨item, member, asks⟩
        exact within item member entry asks
      · intro block called
        refine foldlM_invariant (fun item member state next done writing => ?_) called
          (writing_connectorBlock _)
        exact writing.projectAttribute (List.mem_map_of_mem member)
          (fun old asks => ⟨item, member, asks⟩) done

theorem confined_writeContext {scopePath : String} {items : List (EntryId × ContextEntry)}
    (reachable : Reachable before.graph)
    (generates : (Request.writeContext scopePath fresh items).Generates before.graph)
    (within : Within platform before (.writeContext scopePath fresh items)) :
    Confined platform before
      (writeContext before now platform ⟨platform, scopePath⟩ fresh items).1 := by
  have contacted : Contacted before (before.append now .orchestration
      (contact before.graph fresh (linkNode platform (.context scopePath))).2) := contacted_append
  unfold Platform.writeContext
  dsimp only
  split
  · exact contacted.confined
  · rename_i unstuck
    have met : Met before fresh (linkNode platform (.context scopePath)) (before.append now
        .orchestration (contact before.graph fresh (linkNode platform (.context scopePath))).2) :=
      met_append (Bool.eq_false_iff.mpr unstuck)
    split
    · exact contacted.confined
    · refine met.confined_calls (fun entry => entry ∈ items.map Prod.fst)
        (fun entry => ∃ item ∈ items, item.2.supersedes = some entry) reachable
        (generates.memories fresh (by simp [Request.freshMemories])) generates.entries ?_ ?_
      · rintro entry ⟨item, member, asks⟩
        exact within item member entry asks
      · intro block called
        refine foldlM_invariant (fun item member state next done writing => ?_) called
          (writing_connectorBlock _)
        exact writing.recordValue (List.mem_map_of_mem member)
          (fun old asks => ⟨item, member, asks⟩) done

/-- Whether an event asserts or removes an edge between two memories under a label. -/
def Relates (fromId toId : MemoryId) (relation : RelationName) (payload : EventPayload) : Prop :=
  payload = .linkRemoved fromId toId relation ∨
    ∃ source toldBy toldIn visibility,
      payload = .linkCreated fromId toId relation source toldBy toldIn visibility

variable {fromId toId : MemoryId} {relation : RelationName} {payload : EventPayload}

theorem Relates.linkLabel (relates : Relates fromId toId relation payload) :
    linkLabel payload = some relation := by
  rcases relates with rfl | ⟨source, toldBy, toldIn, visibility, rfl⟩ <;> rfl

theorem Relates.edgeWord {graph : Graph} {key : EdgeKey}
    (relates : Relates fromId toId relation payload)
    (spoken : edgeWord graph key payload ≠ none) :
    canonicalEdge graph fromId toId relation = key := by
  rcases relates with rfl | ⟨source, toldBy, toldIn, visibility, rfl⟩ <;>
    · by_contra other
      simp [Graph.edgeWord, other] at spoken

theorem Relates.quiet (relates : Relates fromId toId relation payload) :
    contentTarget payload = none ∧ contentEntries payload = [] ∧ retires payload = none := by
  rcases relates with rfl | ⟨source, toldBy, toldIn, visibility, rfl⟩ <;> exact ⟨rfl, rfl, rfl⟩

theorem Relates.keepsNames (relates : Relates fromId toId relation payload) :
    keepsNames payload = true := by
  rcases relates with rfl | ⟨source, toldBy, toldIn, visibility, rfl⟩ <;> rfl

theorem Relates.designates (relates : Relates fromId toId relation payload) :
    designatesPrimary payload = false := by
  rcases relates with rfl | ⟨source, toldBy, toldIn, visibility, rfl⟩ <;> rfl

theorem ends_of_key {graph : Graph} {row : LinkRow}
    (same : row.key = canonicalEdge graph fromId toId relation) :
    (row.fromId = fromId ∧ row.toId = toId) ∨ (row.fromId = toId ∧ row.toId = fromId) := by
  have between := canonicalEdge_ends graph fromId toId relation
  rw [← same] at between
  exact between

theorem Contacted.confined_link {fromWire toWire : WireLinkNode}
    (contacted : Contacted before middle) (relates : Relates fromId toId relation payload)
    (unlike : canonicalLabel before.graph.relations relation ≠ .sameAs)
    (unasserted : ∀ row ∈ before.graph.links,
      row.key = canonicalEdge before.graph fromId toId relation →
        row.source ≠ .agent ∧ row.source ≠ .operator)
    (resolvesFrom : resolveNode middle.graph (linkNode platform fromWire) = some fromId)
    (resolvesTo : resolveNode middle.graph (linkNode platform toWire) = some toId) :
    Confined platform before (commitLink middle now platform payload).1 := by
  unfold commitLink
  dsimp only
  obtain ⟨folded, refused, split, committed⟩ :=
    middle.append_spec now (.platformConnector platform) [payload]
  generalize result : middle.append now (.platformConnector platform) [payload] = after at *
  have only : ∀ other ∈ folded, other = payload := by
    intro other member
    have listed : other ∈ [payload] := by
      rw [split]
      exact List.mem_append_left _ member
    exact List.mem_singleton.mp listed
  have appended : ∀ event ∈ after.log.drop before.log.length,
      contentTarget event.payload = none ∧ contentEntries event.payload = [] ∧
        retires event.payload = none := by
    intro event member
    rw [← result] at member
    rcases log_after contacted.log member with contact | written
    · exact quiet_of_contact contact
    · rw [List.mem_singleton.mp written]
      exact relates.quiet
  have keeps : ∀ other ∈ folded, Platform.keepsNames other = true := by
    intro other member
    rw [only other member]
    exact relates.keepsNames
  -- the edge spoken of lies between the two, one way or the other
  have ends : ∀ row : LinkRow, canonicalEdge middle.graph fromId toId relation = row.key →
      Named platform after.graph row.fromId ∧ Named platform after.graph row.toId := by
    intro row same
    have namedFrom : Named platform after.graph fromId :=
      ⟨fromWire, resolveNode_commit committed keeps resolvesFrom⟩
    have namedTo : Named platform after.graph toId :=
      ⟨toWire, resolveNode_commit committed keeps resolvesTo⟩
    rcases ends_of_key same.symm with ⟨first, second⟩ | ⟨first, second⟩
    · rw [first, second]
      exact ⟨namedFrom, namedTo⟩
    · rw [first, second]
      exact ⟨namedTo, namedFrom⟩
  have linking : Linking folded := by
    intro other member
    rw [only other member, relates.linkLabel]
    rfl
  have spoken : ∀ key, Cursor.lastWord (edgeWord middle.graph key) folded ≠ none →
      canonicalEdge middle.graph fromId toId relation = key := by
    intro key said
    by_contra other
    refine said (Cursor.lastWord_eq_none.mpr fun event member => ?_)
    rw [only event member]
    by_contra speaks
    exact other (relates.edgeWord speaks)
  have labels : middle.graph.relations = before.graph.relations := contacted.frame.2.1
  constructor
  · intro event member memory writes
    obtain ⟨untargeted, nameless, _⟩ := appended event member
    rw [WritesContent, untargeted, nameless] at writes
    simp at writes
  · intro event member entry withdrawn
    rw [(appended event member).2.2] at withdrawn
    cases withdrawn
  · intro row stored gone
    have there : row ∈ middle.graph.links := by rwa [contacted.frame.1]
    have same := spoken row.key fun silent =>
      gone (kept_of_linking linking committed silent there)
    obtain ⟨namedFrom, namedTo⟩ := ends row same
    rw [canonicalEdge_congr_relations labels] at same
    exact ⟨namedFrom, namedTo, unasserted row stored same.symm⟩
  · intro row stored new
    rcases stored_of_linking linking committed stored with ⟨_, old⟩ | said
    · rw [contacted.frame.1] at old
      exact absurd old new
    · exact ends row (spoken row.key (by simp [said]))
  · refine samePartition_of_columns fun id known => ?_
    -- the label means the same relation at every event folded
    have kept := commit_induction
      (motive := fun graph => graph.relations = middle.graph.relations ∧
        graph.memories.contains id = true ∧ graph.classColumn id = middle.graph.classColumn id)
      (fun other member one two applied held => by
        obtain ⟨same, there, column⟩ := held
        rw [only other member] at applied
        have spares : recomputes ⟨one.head + 1, now, .platformConnector platform, payload⟩ one =
            false := by
          rw [recomputes_eq]
          simp [relates.designates, relates.linkLabel, same, labels, unlike]
        refine ⟨?_, contains_memory_apply there applied,
          (classColumn_apply applied spares there).trans column⟩
        exact (relations_of_link (by simp [relates.linkLabel]) applied).trans same)
      committed ⟨rfl, contacted.known id known, rfl⟩
    exact kept.2.2.trans (contacted.classColumn id known)

theorem known_of_edge {graph : Graph} (reachable : Reachable graph) {row : LinkRow}
    (stored : row ∈ graph.links) (same : row.key = canonicalEdge graph fromId toId relation) :
    graph.memories.contains fromId = true ∧ graph.memories.contains toId = true := by
  obtain ⟨knownFrom, knownTo⟩ := reachable.linked row stored
  rcases ends_of_key same with ⟨first, second⟩ | ⟨first, second⟩
  · rw [← first, ← second]
    exact ⟨knownFrom, knownTo⟩
  · rw [← first, ← second]
    exact ⟨knownTo, knownFrom⟩

theorem confined_link {fromWire toWire : WireLinkNode} {freshFrom freshTo : MemoryId}
    {remove : Bool} (reachable : Reachable before.graph)
    (generates : (Request.link fromWire toWire freshFrom freshTo relation remove).Generates
      before.graph)
    (within : Within platform before
      (.link fromWire toWire freshFrom freshTo relation remove)) :
    Confined platform before (link before now platform (linkNode platform fromWire)
      (linkNode platform toWire) freshFrom freshTo relation remove).1 := by
  have unchanged : Confined platform before before := (Contacted.refl before).confined
  unfold Platform.link
  split
  · exact unchanged
  rename_i typed
  obtain ⟨unlike, unasserted⟩ := within typed
  split
  · exact unchanged
  split
  · cases resolvesFrom : resolveNode before.graph (linkNode platform fromWire) with
    | none => exact unchanged
    | some fromId =>
      cases resolvesTo : resolveNode before.graph (linkNode platform toWire) with
      | none => exact unchanged
      | some toId =>
        refine (Contacted.refl before).confined_link (.inl rfl) unlike ?_ resolvesFrom resolvesTo
        exact unasserted fromId toId (bearer_of_resolveNode resolvesFrom)
          (bearer_of_resolveNode resolvesTo)
  · obtain ⟨contacted, comes⟩ :=
      resolveOrMintNode_spec before now freshFrom (linkNode platform fromWire)
    generalize resolveOrMintNode before now freshFrom (linkNode platform fromWire) = resolved at *
    obtain ⟨middle, answered⟩ := resolved
    cases answered with
    | error => exact contacted.confined
    | ok fromId =>
      obtain ⟨rfl, met⟩ := comes fromId rfl
      dsimp only
      obtain ⟨again, comesTo⟩ :=
        resolveOrMintNode_spec middle now freshTo (linkNode platform toWire)
      generalize resolveOrMintNode middle now freshTo (linkNode platform toWire) = resolved at *
      obtain ⟨last, answered⟩ := resolved
      cases answered with
      | error => exact (contacted.trans again).confined
      | ok toId =>
        obtain ⟨rfl, metTo⟩ := comesTo toId rfl
        dsimp only
        obtain ⟨at', source, folded⟩ := met.folded
        obtain ⟨later, author, foldedTo⟩ := metTo.folded
        have newFrom := generates.memories freshFrom (by simp [Request.freshMemories])
        have newTo := generates.memories freshTo (by simp [Request.freshMemories])
        refine (contacted.trans again).confined_link (.inr ⟨_, _, _, _, rfl⟩) unlike ?_
          (again.resolves _ _ (resolveNode_contact folded)) (resolveNode_contact foldedTo)
        intro row stored same
        -- the ends of a stored edge are known, so neither was minted just now
        obtain ⟨knownFrom, knownTo⟩ := known_of_edge reachable stored same
        have borne := bearer_of_ne fun minted => by
          rw [minted, newFrom] at knownFrom
          cases knownFrom
        have borneTo := bearer_of_ne fun minted => by
          rw [minted, newTo] at knownTo
          cases knownTo
        rcases bearer_contact folded borneTo with stands | minted
        · exact unasserted _ _ borne stands row stored same
        · rw [minted, newFrom] at knownTo
          cases knownTo

end Effects

/-! ### Runs -/

section Runs

variable {host before after : Host} {now : Timestamp} {platform : String} {request : Request}

theorem reachable_append {source : EventSource} {payloads : List EventPayload}
    (reachable : Reachable host.graph) : Reachable (host.append now source payloads).graph := by
  obtain ⟨folded, refused, _, committed⟩ := host.append_spec now source payloads
  exact reachable.commit committed

theorem reachable_resolveOrMintNode {fresh : MemoryId} {node : LinkNode}
    (reachable : Reachable host.graph) :
    Reachable (resolveOrMintNode host now fresh node).1.graph := by
  unfold resolveOrMintNode
  dsimp only
  split
  · exact reachable
  · exact reachable_append reachable

theorem reachable_commitCalls {called : Except MemoryError MemoryBlock} {answer : Answer}
    (reachable : Reachable host.graph) :
    Reachable (commitCalls host now platform called answer).1.graph := by
  cases called with
  | error => exact reachable
  | ok => exact reachable_append reachable

theorem reachable_serve (reachable : Reachable host.graph) :
    Reachable (serve host now platform request).1.graph := by
  cases request with
  | project target fresh attributes =>
    have met := @reachable_resolveOrMintNode host now fresh (linkNode platform target) reachable
    simp only [serve, Platform.project]
    generalize resolveOrMintNode host now fresh (linkNode platform target) = resolved at *
    obtain ⟨middle, answered | memory⟩ := resolved
    · exact met
    · dsimp only
      split
      · exact met
      · exact reachable_commitCalls met
  | writeContext =>
    simp only [serve, Platform.writeContext]
    split
    · exact reachable_append reachable
    · split
      · exact reachable_append reachable
      · exact reachable_commitCalls (reachable_append reachable)
  | link fromWire toWire freshFrom freshTo relation remove =>
    simp only [serve, Platform.link]
    split
    · exact reachable
    split
    · exact reachable
    split
    · split
      · exact reachable_append reachable
      · exact reachable
    · have met :=
        @reachable_resolveOrMintNode host now freshFrom (linkNode platform fromWire) reachable
      generalize resolveOrMintNode host now freshFrom (linkNode platform fromWire) = resolved at *
      obtain ⟨middle, answered | fromId⟩ := resolved
      · exact met
      have metTo := @reachable_resolveOrMintNode middle now freshTo (linkNode platform toWire) met
      dsimp only
      generalize resolveOrMintNode middle now freshTo (linkNode platform toWire) = resolved at *
      obtain ⟨last, answered | toId⟩ := resolved
      · exact metTo
      · exact reachable_append metTo

theorem Step.reachable {act : Act} (step : Step before act after)
    (reachable : Reachable before.graph) : Reachable after.graph := by
  cases step with
  | request => exact reachable_serve reachable
  | commit => exact reachable_append reachable

theorem Step.determined {act : Act} {other : Host} (step : Step before act after)
    (again : Step before act other) : other = after := by
  cases step with
  | request | commit => cases again; rfl

theorem Step.confined (step : Step before (.request now platform request) after)
    (reachable : Reachable before.graph) (within : Within platform before request) :
    Confined platform before after := by
  cases step with
  | request generates =>
    cases request with
    | project => exact confined_project reachable generates within
    | writeContext => exact confined_writeContext reachable generates within
    | link =>
      exact confined_link reachable generates within

end Runs

/-- In a run in which a platform's connector hands in only entries of its own, only labels that
do not mean `same_as`, and only edges nobody else has asserted, each of its requests keeps to
the platform. In no state of any run do its scopes share a context memory with those of a
platform whose name does not clash with its own. -/
theorem connector_confined {acts : List Act} {host : Host} {platform : String}
    (within : ∀ one now request other, Trace.Takes Step {} acts host one
      (.request now platform request) other → Within platform one request) :
    (∀ one now request other,
      Trace.Takes Step {} acts host one (.request now platform request) other →
        Confined platform one other) ∧
      ∀ another, platform ≠ another → ¬Clashes platform another →
        ∀ one, Trace.Visits Step {} acts host one → ∀ scopePath path memory,
          resolveContext one.graph ⟨platform, scopePath⟩ = some memory →
            resolveContext one.graph ⟨another, path⟩ ≠ some memory := by
  constructor
  · intro one now request other takes
    have keeps := within one now request other takes
    obtain ⟨earlier, later, _, leading, step, _⟩ := takes
    have reachable : Reachable one.graph :=
      leading.invariant (fun host => Reachable host.graph)
        (fun _ _ _ step reachable => step.reachable reachable) Reachable.fresh
    exact step.confined reachable keeps
  · intro another different unclashing one _ scopePath path memory resolves
    exact contexts_apart different unclashing resolves

/-! Two connectors, `chat` and `forum`, each know an account of one person. -/

namespace Trespass

def vocabulary : List EventPayload :=
  [.linkTypeRegistered .sameAs ⟨"is"⟩ .many .many true false "The same as.",
    .linkTypeRegistered ⟨"part_of"⟩ ⟨"contains"⟩ .many .many false false "A part of."]

/-- Projecting one value onto a participant, and clearing one. -/
def records (user : String) (fresh : MemoryId) (entry : EntryId) (supersedes : Option EntryId) :
    Request := .project (.participant user) fresh [(entry, ⟨some "Mara", supersedes⟩)]
def clears (user : String) (fresh : MemoryId) (entry : EntryId) (supersedes : EntryId) : Request :=
  .project (.participant user) fresh [(entry, ⟨none, some supersedes⟩)]

/-- What a request leaves of a host. -/
def served (host : Host) (now : Nat) (platform : String) (request : Request) : Host :=
  (serve host ⟨now⟩ platform request).1

/-- The vocabulary is there, each connector has projected its account, and the operator has
made them one person. -/
def born : Host := Host.append {} ⟨1⟩ .bootstrap vocabulary
def onForum : Host := served born 2 "forum" (records "mara" ⟨1⟩ ⟨1⟩ none)
def onBoth : Host := served onForum 3 "chat" (records "mara" ⟨2⟩ ⟨2⟩ none)
def merging : List EventPayload :=
  [.linkCreated ⟨1⟩ ⟨2⟩ .sameAs .operator none none .public]
def merged : Host := onBoth.append ⟨4⟩ .operator merging

def cleared : Host := served merged 5 "chat" (clears "mara" ⟨3⟩ ⟨3⟩ ⟨1⟩)

def identifies : Request := .link (.participant "mara") (.participant "ines") ⟨4⟩ ⟨5⟩ ⟨"is"⟩ false
def met : Host := served onBoth 4 "chat" (records "ines" ⟨3⟩ ⟨3⟩ none)
def identified : Host := served met 5 "chat" identifies

def places : List EventPayload :=
  [.linkCreated ⟨2⟩ ⟨3⟩ ⟨"part_of"⟩ .operator none none .public]
def placed : Host := met.append ⟨5⟩ .operator places
def displaces : Request :=
  .link (.participant "mara") (.participant "ines") ⟨4⟩ ⟨5⟩ ⟨"part_of"⟩ true
def displaced : Host := served placed 6 "chat" displaces

def described : Host := served born 2 "chat" (.writeContext "ops:room" ⟨1⟩ [(⟨1⟩, ⟨"Ops.", none⟩)])

theorem generates :
    (records "mara" ⟨1⟩ ⟨1⟩ none).Generates born.graph ∧
    (records "mara" ⟨2⟩ ⟨2⟩ none).Generates onForum.graph ∧
    (records "ines" ⟨3⟩ ⟨3⟩ none).Generates onBoth.graph ∧
    (clears "mara" ⟨3⟩ ⟨3⟩ ⟨1⟩).Generates merged.graph ∧
    identifies.Generates met.graph ∧
    displaces.Generates placed.graph ∧
    (Request.writeContext "ops:room" ⟨1⟩ [(⟨1⟩, ⟨"Ops.", none⟩)]).Generates born.graph := by
  refine ⟨?_, ?_, ?_, ?_, ?_, ?_, ?_⟩ <;> constructor <;> decide +kernel

/-- A run leads to a host. -/
def Reached (host : Host) : Prop := ∃ acts, Trace Step {} acts host

theorem Reached.served {host : Host} (reached : Reached host) {now : Nat} {platform : String}
    {request : Request} (generates : request.Generates host.graph) :
    Reached (served host now platform request) := by
  obtain ⟨acts, run⟩ := reached
  exact ⟨_, run.append (.single (.request generates))⟩

theorem Reached.append {host : Host} (reached : Reached host) {now : Timestamp}
    {source : EventSource} {payloads : List EventPayload}
    (other : ∀ platform, source ≠ .platformConnector platform) :
    Reached (host.append now source payloads) := by
  obtain ⟨acts, run⟩ := reached
  exact ⟨_, run.append (.single (.commit other))⟩

theorem born_reached : Reached born :=
  Reached.append ⟨[], .nil _⟩ (fun _ => EventSource.noConfusion)

theorem onBoth_reached : Reached onBoth :=
  (born_reached.served generates.1).served generates.2.1

theorem merged_reached : Reached merged :=
  onBoth_reached.append fun _ => EventSource.noConfusion

theorem met_reached : Reached met :=
  onBoth_reached.served generates.2.2.1

theorem placed_reached : Reached placed :=
  met_reached.append fun _ => EventSource.noConfusion

/-- A connector retracts what another recorded on a member of the class, merges two participants
under the second label of `same_as`, and removes an edge of the operator's; and a scope of
the chat's has the context memory of a scope of the platform `chat:ops`. -/
theorem connector_trespasses :
    (Reached merged ∧
      Step merged (.request ⟨5⟩ "chat" (clears "mara" ⟨3⟩ ⟨3⟩ ⟨1⟩)) cleared ∧
      ¬Confined "chat" merged cleared) ∧
    (Reached met ∧ Step met (.request ⟨5⟩ "chat" identifies) identified ∧
      ¬SamePartition met.graph identified.graph) ∧
    (Reached placed ∧ Step placed (.request ⟨6⟩ "chat" displaces) displaced ∧
      ∃ row ∈ placed.graph.links, row.source = .operator ∧ row ∉ displaced.graph.links) ∧
    (Step born (.request ⟨2⟩ "chat" (.writeContext "ops:room" ⟨1⟩ [(⟨1⟩, ⟨"Ops.", none⟩)]))
        described ∧
      resolveContext described.graph ⟨"chat", "ops:room"⟩ = some ⟨1⟩ ∧
      resolveContext described.graph ⟨"chat:ops", "room"⟩ = some ⟨1⟩) := by
  obtain ⟨_, _, _, clearing, identifying, displacing, describing⟩ := generates
  refine ⟨⟨merged_reached, .request clearing, fun confined => ?_⟩,
    ⟨met_reached, .request identifying, fun same => ?_⟩,
    ⟨placed_reached, .request displacing, by decide +kernel⟩,
    .request describing, by decide +kernel, by decide +kernel⟩
  · -- the chat's connector has recorded only its own account's entry
    have unrecorded : ¬Recorded "chat" merged.log ⟨1⟩ := by
      unfold Recorded
      decide +kernel
    have retracts : ∃ event ∈ cleared.log.drop merged.log.length,
        retires event.payload = some ⟨1⟩ := by decide +kernel
    obtain ⟨event, member, withdrawn⟩ := retracts
    exact unrecorded (confined.retired event member ⟨1⟩ withdrawn (by decide +kernel))
  · have apart : ¬(identified.graph.classColumn ⟨2⟩ = identified.graph.classColumn ⟨3⟩ ↔
        met.graph.classColumn ⟨2⟩ = met.graph.classColumn ⟨3⟩) := by decide +kernel
    exact apart (same ⟨2⟩ ⟨3⟩ (by decide +kernel) (by decide +kernel))

def first : Host := served born 2 "chat" (records "mara" ⟨1⟩ ⟨1⟩ none)
def second : Host := served first 3 "chat" (records "mara" ⟨2⟩ ⟨2⟩ (some ⟨1⟩))

def acts : List Act :=
  [.commit ⟨1⟩ .bootstrap vocabulary, .request ⟨2⟩ "chat" (records "mara" ⟨1⟩ ⟨1⟩ none),
    .request ⟨3⟩ "chat" (records "mara" ⟨2⟩ ⟨2⟩ (some ⟨1⟩))]

theorem owns_first : Owns "chat" first (.participant ⟨"chat", "mara"⟩) ⟨1⟩ := by
  intro id _ row stored _ _ _
  have only : ∀ row ∈ first.graph.entries.rows, row.memoryId = ⟨1⟩ := by decide +kernel
  refine ⟨by unfold Recorded; decide +kernel, .participant "mara", ?_⟩
  rw [only row stored]
  decide +kernel

theorem starts : Step {} (.commit ⟨1⟩ .bootstrap vocabulary) born :=
  .commit fun _ => EventSource.noConfusion

theorem projects : Step born (.request ⟨2⟩ "chat" (records "mara" ⟨1⟩ ⟨1⟩ none)) first :=
  .request generates.1

theorem replaces :
    Step first (.request ⟨3⟩ "chat" (records "mara" ⟨2⟩ ⟨2⟩ (some ⟨1⟩))) second := by
  refine .request ?_
  constructor <;> decide +kernel

/-- Handing in only its own, the connector keeps to its platform. -/
theorem connector_confined_chat : Confined "chat" first second := by
  have within : ∀ one now request other, Trace.Takes Step {} acts second one
      (.request now "chat" request) other → Within "chat" one request := by
    intro one now request other takes
    obtain ⟨rfl, same⟩ | takes := takes.of_cons fun _ again => starts.determined again
    · cases same
    obtain ⟨rfl, same⟩ | takes := takes.of_cons fun _ again => projects.determined again
    · cases same
      intro item member entry asks
      cases List.mem_singleton.mp member
      cases asks
    obtain ⟨rfl, same⟩ | takes := takes.of_cons fun _ again => replaces.determined again
    · cases same
      intro item member entry asks
      cases List.mem_singleton.mp member
      cases asks
      exact owns_first
    obtain ⟨earlier, later, none', _⟩ := takes
    cases earlier <;> cases none'
  obtain ⟨confined, _⟩ := connector_confined within
  exact confined first ⟨3⟩ _ second (.last (.cons starts (.single projects)) replaces)

end Trespass

end Zuihitsu.Platform
