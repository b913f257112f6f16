/-
# What a block writes under its locks

A call of a script asks for locks first: of the memory its handle names, of both ends of a
link, or of the class of its handle as the graph has it then. It waits for them one by one,
and only then runs against the graph as it is by that time, where the write may be
redirected to the primary of the class. Blocks that run beside each other keep apart
wherever what the call resolves to was among what the block had asked for.
-/

import Zuihitsu.Block.Interleaving
import Zuihitsu.Block.Pending
import Zuihitsu.Graph.Lookup
import Zuihitsu.Library.Locks

namespace Zuihitsu

open Zuihitsu.Core Zuihitsu.Graph Zuihitsu.Library

namespace MemoryBlock

/-! ### The calls of a script -/

/-- A writing call of a script, with the identities it would generate. -/
inductive LuaCall where
  | append (fresh : EntryId) (id : MemoryId) (text : String) (opts : AppendOptions)
      (distinctFrom : Option EntryId) (hits : List DedupHit)
  | attest (id : MemoryId) (entry : EntryId) (opts : AppendOptions)
  | supersede (id : MemoryId) (old new : EntryId)
  | revise (fresh : EntryId) (id : MemoryId) (old : EntryId) (text : String) (opts : AppendOptions)
  | retract (id : MemoryId) (entry : EntryId) (reason : String)
  | rename (id : MemoryId) (newName : MemoryName)
  | tag (id : MemoryId) (name : TagName)
  | untag (id : MemoryId) (name : TagName)
  | setVolatility (id : MemoryId) (level : String)
  | create (subject : MemoryId) (relation : RelationName) (object : MemoryId) (opts : LinkOptions)
  | remove (subject : MemoryId) (relation : RelationName) (object : MemoryId)
  deriving DecidableEq

namespace LuaCall

/-- The operation of the block a call runs. -/
def operation : LuaCall → Operation
  | append fresh id text opts distinctFrom hits =>
    .appendDedup fresh id text opts distinctFrom hits
  | attest id entry opts => .attest id entry opts
  | supersede id old new => .supersede id old new
  | revise fresh id old text opts => .revise fresh id old text opts
  | retract id entry reason => .retract id entry reason none
  | rename id newName => .rename id newName
  | tag id name => .tag id name
  | untag id name => .untag id name
  | setVolatility id level => .setVolatility id level
  | create subject relation object opts => .link subject object relation opts
  | remove subject relation object => .unlink subject object relation

/-- The memories a call names. -/
def names : LuaCall → List MemoryId
  | append _ id .. | attest id .. | supersede id .. | revise _ id .. | retract id .. | rename id _
  | tag id _ | untag id _ | setVolatility id _ => [id]
  | create subject _ object _ | remove subject _ object => [subject, object]

/-- The memories a call locks: the class of its handle where it corrects an entry, and what it
names elsewhere. The class is read before any lock is waited for. -/
def asks (graph : Graph) : LuaCall → List MemoryId
  | attest id .. | supersede id .. | revise _ id .. | retract id .. => id :: graph.classMembers id
  | call => call.names

theorem names_subset_asks (graph : Graph) (call : LuaCall) : call.names ⊆ call.asks graph := by
  intro id named
  cases call <;> simp_all [names, asks]

end LuaCall

/-- The memories an event writes. -/
def writes : EventPayload → List MemoryId
  | .memoryCreated id _ | .memoryRenamed id .. | .memoryDeleted id | .memoryContentAppended id ..
  | .memorySuperseded id .. | .entriesConsolidated id .. | .entryRetracted id ..
  | .entryAttested id .. | .attestationRetracted id .. | .entryTemporalResolved id ..
  | .entryTemporalResolveFailed id .. | .entryDescriptionMirrored id _
  | .scheduledJobFired _ id _ | .scheduledItemSurfaced _ id .. | .memoryDescriptionRegenerated id ..
  | .beliefArbitrated id .. | .classPrimaryDesignated id _ | .linksInferred id
  | .memoryVolatilitySet id _ | .tagAppliedToMemory id _ | .tagRemovedFromMemory id _ => [id]
  | .mergeProposed fromId toId .. | .linkCreated fromId toId .. | .linkRemoved fromId toId _ =>
    [fromId, toId]
  | _ => []

/-- What a call resolves to when it runs was among the memories the block had asked for: the
primary a write is redirected to, the memory of the entry an append corroborates, and the
members of the class where the class was asked for. An entry that is to be attested is not
both pending and committed, since entry ids are generated once. -/
def LuaCall.Foreseen (graph : Graph) (block : MemoryBlock) (asked : List MemoryId) :
    LuaCall → Prop
  | append _ id _ opts distinctFrom hits =>
    match findDedupTarget graph block id distinctFrom (entryTeller opts block.teller) hits with
    | some (memory, _) => memory.id ∈ asked
    | none => classWriteTarget graph block id ∈ asked
  | setVolatility id _ => classWriteTarget graph block id ∈ asked
  | create subject relation object _ | remove subject relation object =>
    relation ≠ .sameAs →
      classWriteTarget graph block subject ∈ asked ∧ classWriteTarget graph block object ∈ asked
  | supersede id .. | revise _ id .. | retract id .. => graph.classMembers id ⊆ asked
  | attest id entry _ =>
    graph.classMembers id ⊆ asked ∧
      (graph.entryById entry = none ∨ block.buffer.findSome? (pendingOwner entry) = none)
  | rename .. | tag .. | untag .. => True

/-! ### What a call writes -/

section Calls

variable {graph : Graph} {block after : MemoryBlock} {now : Timestamp} {id : MemoryId}
variable {asked : List MemoryId}

theorem classWriteTarget_mem (reachable : Reachable graph) (block : MemoryBlock) (id : MemoryId) :
    classWriteTarget graph block id = id ∨
      classWriteTarget graph block id ∈ graph.classMembers id := by
  unfold classWriteTarget
  split
  · exact .inl rfl
  · split
    · exact .inl rfl
    · rename_i primary found
      split
      · exact .inl rfl
      · rename_i redirected
        refine .inr (mem_classMembers.mpr (inClass_iff.mpr ⟨primary, found, ?_⟩))
        have live : (graph.memoryById primary).isSome = true := by
          simp only [Bool.or_eq_true, not_or, Option.isNone_iff_eq_none] at redirected
          exact Option.isSome_iff_ne_none.mpr redirected.2
        have named : graph.classOf id = primary := by simp [classOf, found]
        rw [classId_of_live live, ← named, classOf_idem reachable]

theorem classWriteTarget_asked (reachable : Reachable graph) (block : MemoryBlock)
    (named : id ∈ asked) (members : graph.classMembers id ⊆ asked) :
    classWriteTarget graph block id ∈ asked := by
  rcases classWriteTarget_mem reachable block id with same | member
  · rwa [same]
  · exact members member

theorem Buffers.classWriteTarget {events : List EventPayload} (buffers : Buffers block events after) :
    classWriteTarget graph after id = classWriteTarget graph block id := by
  obtain ⟨_, rfl⟩ := buffers
  rfl

/-- Events that write only what was asked for. -/
def Under (asked : List MemoryId) (events : List EventPayload) : Prop :=
  ∀ event ∈ events, ∀ memory ∈ writes event, memory ∈ asked

theorem Under.append {first second : List EventPayload} (leading : Under asked first)
    (following : Under asked second) : Under asked (first ++ second) :=
  List.forall_mem_append.mpr ⟨leading, following⟩

theorem Under.mono {more : List MemoryId} {events : List EventPayload}
    (under : Under asked events) (grows : asked ⊆ more) : Under more events :=
  fun event member memory written => grows (under event member memory written)

theorem under_of_writes {events : List EventPayload} {target : MemoryId} (asks : target ∈ asked)
    (only : ∀ event ∈ events, writes event = [target]) : Under asked events := by
  intro event member memory written
  rw [only event member] at written
  exact List.mem_singleton.mp written ▸ asks

theorem classMembers_target (reachable : Reachable graph) {member : MemoryId}
    (within : member ∈ graph.classMembers (classWriteTarget graph block id)) :
    member ∈ graph.classMembers id := by
  rcases classWriteTarget_mem reachable block id with same | target
  · rwa [same] at within
  · obtain ⟨primary, named, alike⟩ := inClass_iff.mp (mem_classMembers.mp target)
    obtain ⟨other, targeted, found⟩ := inClass_iff.mp (mem_classMembers.mp within)
    rw [alike] at targeted
    cases targeted
    exact mem_classMembers.mpr (inClass_iff.mpr ⟨primary, named, found⟩)

theorem append_under {fresh : EntryId} {text : String} {opts : AppendOptions}
    (asks : classWriteTarget graph block id ∈ asked)
    (done : append ⟨graph, now⟩ fresh block id text opts = .ok after) :
    ∃ events, Buffers block events after ∧ Under asked events := by
  obtain ⟨_, _, _, _, rfl⟩ := append_ok done
  refine ⟨_, buffers_pushAll, under_of_writes asks ?_⟩
  exact List.forall_mem_cons.mpr ⟨rfl, forall_inlineVolatility fun _ => rfl⟩

theorem supersede_under {old new : EntryId} (asks : classWriteTarget graph block id ∈ asked)
    (done : supersede ⟨graph, now⟩ block id old new = .ok after) :
    ∃ events, Buffers block events after ∧ Under asked events := by
  obtain ⟨_, _, rfl⟩ := supersede_ok done
  exact ⟨_, buffers_pushAll, under_of_writes asks (List.forall_mem_singleton.mpr rfl)⟩

theorem retract_under {entry : EntryId} {reason : String} {producedBy : Option ProducedBy}
    (asks : classWriteTarget graph block id ∈ asked)
    (done : retract ⟨graph, now⟩ block id entry reason producedBy = .ok after) :
    ∃ events, Buffers block events after ∧ Under asked events := by
  simp only [retract, bind_eq_ok, exists_checked, exists_const, refuseIf_ok] at done
  obtain ⟨_, _, _, _, _, done⟩ := done
  split at done
  · cases done
    refine ⟨_, buffers_pushAll, under_of_writes asks ?_⟩
    simp [writes]
  · simp only [bind_eq_ok, exists_checked] at done
    obtain ⟨_, done⟩ := done
    cases done
    exact ⟨_, buffers_push, under_of_writes asks (List.forall_mem_singleton.mpr rfl)⟩

theorem changeLink_under {subject object : MemoryId} {relation : RelationName} {create : Bool}
    {forced : Option ForcedVisibility} (named : [subject, object] ⊆ asked)
    (redirected : relation ≠ .sameAs →
      classWriteTarget graph block subject ∈ asked ∧ classWriteTarget graph block object ∈ asked)
    (done : changeLink ⟨graph, now⟩ block subject object relation create forced = .ok after) :
    ∃ events, Buffers block events after ∧ Under asked events := by
  have proposes : ∀ rationale, proposeMerge block subject object rationale = .ok after →
      ∃ events, Buffers block events after ∧ Under asked events := by
    intro rationale done
    rw [proposeMerge_ok done]
    exact ⟨_, buffers_pushAll, List.forall_mem_singleton.mpr fun _ member => named member⟩
  have links : ∀ fromId toId, [fromId, toId] ⊆ asked →
      writeLink ⟨graph, now⟩ block fromId toId relation create forced = .ok after →
        ∃ events, Buffers block events after ∧ Under asked events := by
    intro fromId toId ends done
    rcases writeLink_ok done with rfl | ⟨_, rfl⟩ | rfl
    · exact ⟨[], buffers_self, List.forall_mem_nil _⟩
    · exact ⟨_, buffers_pushAll, List.forall_mem_singleton.mpr fun _ member => ends member⟩
    · exact ⟨_, buffers_pushAll, List.forall_mem_singleton.mpr fun _ member => ends member⟩
  simp only [changeLink, bind_eq_ok, exists_const, refuseIf_ok] at done
  obtain ⟨_, done⟩ := done
  split at done
  · simp only [bind_eq_ok, exists_checked] at done
    obtain ⟨_, done⟩ := done
    split at done
    · split at done
      · exact proposes none done
      · cases done
    · split at done
      · exact proposes none done
      · exact links subject object named done
    · exact links subject object named done
  · rename_i other
    obtain ⟨subjectAsked, objectAsked⟩ := redirected other
    refine links _ _ ?_ done
    simp [subjectAsked, objectAsked]

theorem attestTarget_asked (reachable : Reachable graph) {entry : EntryId} {found : AttestTarget}
    {live : LiveEntry} (members : graph.classMembers id ⊆ asked)
    (once : graph.entryById entry = none ∨ block.buffer.findSome? (pendingOwner entry) = none)
    (pending : Under asked block.buffer)
    (listed : liveEntry graph block (classWriteTarget graph block id) entry = .ok live)
    (located : attestTarget graph block entry = .ok found) : found.memory ∈ asked := by
  unfold attestTarget at located
  cases stored : graph.entryById entry with
  | none =>
    rw [stored] at located
    dsimp only at located
    split at located
    · rename_i memory owner
      cases located
      obtain ⟨payload, member, owns⟩ := List.exists_of_findSome?_eq_some owner
      refine pending payload member memory ?_
      cases payload with
      | memoryContentAppended =>
        simp only [pendingOwner] at owns
        split at owns
        · cases owns
          exact List.mem_singleton_self _
        · cases owns
      | _ => cases owns
    · cases located
  | some =>
    rw [stored] at located
    cases located
    obtain ⟨row, found, view⟩ := Option.bind_eq_some_iff.mp stored
    obtain ⟨memory, there, rfl⟩ := Option.map_eq_some_iff.mp view
    obtain ⟨stands, filed⟩ := Table.find_eq_some_iff.mp found
    have unpended := once.resolve_left (by simp [stored])
    obtain ⟨member, named⟩ := mem_of_liveEntry listed
    rcases List.mem_append.mp member with committed | appended
    · obtain ⟨view, shown, rfl⟩ := List.mem_map.mp committed
      obtain ⟨other, otherMem, rfl⟩ := List.mem_map.mp (List.mem_filter.mp shown).1
      obtain ⟨otherStands, covers⟩ := mem_entryRowsWhere.mp otherMem
      -- the two rows are of one entry
      obtain rfl : other = row := Table.eq_of_key_eq otherStands stands (named.trans filed.symm)
      rw [Bool.and_eq_true] at covers
      have within := members (classMembers_target reachable (mem_classMembers.mpr covers.1))
      rwa [memoryById_id there]
    · obtain ⟨payload, inBuffer, read⟩ := List.mem_filterMap.mp appended
      have appends := appended_of_livePending read
      refine absurd (List.findSome?_eq_none_iff.mp unpended payload inBuffer) ?_
      cases payload with
      | memoryContentAppended =>
        simp [pendingOwner, (Option.some.inj appends).trans named]
      | _ => cases appends

theorem LuaCall.under (reachable : Reachable graph) {call : LuaCall} (named : call.names ⊆ asked)
    (foreseen : call.Foreseen graph block asked) (pending : Under asked block.buffer)
    (calls : Calls graph block (now, call.operation) after) : Under asked after.buffer := by
  have through : ∃ events, Buffers block events after ∧ Under asked events := by
    cases call with
    | append fresh id text opts distinctFrom hits =>
      simp only [Calls, operation, Operation.run, appendDedup] at calls
      simp only [Foreseen] at foreseen
      split at calls
      · rename_i memory entry captured
        rw [captured] at foreseen
        simp only [corroborateAppend, bind_eq_ok, exists_const, refuseIf_ok] at calls
        obtain ⟨_, _, _, _, _, recorded⟩ := calls
        rcases (recordAttestation_ok recorded).2 with rfl | rfl
        · exact ⟨[], buffers_self, List.forall_mem_nil _⟩
        · exact ⟨_, buffers_pushAll, under_of_writes foreseen (List.forall_mem_singleton.mpr rfl)⟩
      · rename_i uncaptured
        rw [uncaptured] at foreseen
        exact append_under foreseen calls
    | attest =>
      obtain ⟨target, listed, found, _, _, located, _, _, _, recorded⟩ := attest_ok calls
      have asks := attestTarget_asked reachable foreseen.1 foreseen.2 pending listed located
      rcases recorded with rfl | rfl
      · exact ⟨[], buffers_self, List.forall_mem_nil _⟩
      · exact ⟨_, buffers_pushAll, under_of_writes asks (List.forall_mem_singleton.mpr rfl)⟩
    | supersede =>
      exact supersede_under
        (classWriteTarget_asked reachable block (named List.mem_cons_self) foreseen) calls
    | revise =>
      have asks := classWriteTarget_asked reachable block (named List.mem_cons_self) foreseen
      obtain ⟨_, middle, appends, supersedes⟩ := revise_ok calls
      obtain ⟨first, buffers, under⟩ := append_under asks appends
      -- the replacement is superseded with at the same target
      rw [← buffers.classWriteTarget] at asks
      obtain ⟨second, then', under'⟩ := supersede_under asks supersedes
      exact ⟨first ++ second, buffers.trans then', under.append under'⟩
    | retract =>
      exact retract_under
        (classWriteTarget_asked reachable block (named List.mem_cons_self) foreseen) calls
    | rename =>
      rcases rename_ok calls with rfl | ⟨_, _, _, rfl⟩
      · exact ⟨[], buffers_self, List.forall_mem_nil _⟩
      · exact ⟨_, buffers_pushAll, under_of_writes (named List.mem_cons_self)
          (List.forall_mem_singleton.mpr rfl)⟩
    | tag =>
      obtain ⟨_, rfl⟩ := tag_ok calls
      exact ⟨_, buffers_pushAll, under_of_writes (named List.mem_cons_self)
        (List.forall_mem_singleton.mpr rfl)⟩
    | untag =>
      obtain rfl := untag_ok calls
      exact ⟨_, buffers_pushAll, under_of_writes (named List.mem_cons_self)
        (List.forall_mem_singleton.mpr rfl)⟩
    | setVolatility =>
      obtain ⟨_, rfl⟩ := setVolatility_ok calls
      exact ⟨_, buffers_pushAll, under_of_writes foreseen (List.forall_mem_singleton.mpr rfl)⟩
    | create =>
      obtain ⟨_, changed⟩ := link_ok calls
      exact changeLink_under named foreseen changed
    | remove => exact changeLink_under named foreseen calls
  obtain ⟨events, buffers, under⟩ := through
  rw [buffers.buffer]
  exact pending.append under

end Calls

/-! ### Blocks beside each other -/

/-- The blocks of a system with the locks their calls take. A slot remembers what its block
has asked for, and the call it waits with for what is still to be locked. -/
structure LockedSystem where
  system : System
  locks : Locks Nat MemoryId := fun _ => []
  asked : Nat → List MemoryId := fun _ => []
  waiting : Nat → Option (LuaCall × List MemoryId) := fun _ => none

namespace LockedSystem

/-- What happens to a system whose blocks take locks. -/
inductive Move where
  | «open» (slot : Nat) (block : MemoryBlock)
  | ask (slot : Nat) (call : LuaCall)
  | lock (slot : Nat)
  | run (slot : Nat) (now : Timestamp)
  | refuse (slot : Nat) (now : Timestamp)
  | commit (slot : Nat) (recordedAt : Timestamp) (source : EventSource)
  | drop (slot : Nat)
  | append (recordedAt : Timestamp) (source : EventSource) (payloads : List EventPayload)

/-- A slot's call goes on to wait for the rest, or waits no more. -/
def wait (state : LockedSystem) (slot : Nat) (call : Option (LuaCall × List MemoryId)) :
    LockedSystem :=
  { state with waiting := Function.update state.waiting slot call }

/-- A slot's block is over: its locks are released. -/
def finish (state : LockedSystem) (slot : Nat) : LockedSystem :=
  { state.wait slot none with
    locks := state.locks.release slot, asked := Function.update state.asked slot [] }

/-- One move. A call asks for its locks as the graph is, takes them one by one, each when
nobody else holds it, and runs once it has them all, or is refused. A block is committed
between calls, and dropped at any time, on an error or when its time is out; both release its
locks. Writers that take no locks append beside the blocks. -/
inductive Step : LockedSystem → Move → LockedSystem → Prop
  | «open» {state : LockedSystem} {slot : Nat} {block : MemoryBlock} {after : System}
      (opens : System.Step state.system (.open slot block) after) :
      Step state (.open slot block) { state with system := after }
  | ask {state : LockedSystem} {slot : Nat} {call : LuaCall} {block : MemoryBlock}
      (held : state.system.blocks slot = some block) (idle : state.waiting slot = none) :
      Step state (.ask slot call)
        { state.wait slot (some (call, call.asks state.system.graph)) with
          asked := Function.update state.asked slot
            (state.asked slot ++ call.asks state.system.graph) }
  | own {state : LockedSystem} {slot : Nat} {call : LuaCall} {id : MemoryId} {rest : List MemoryId}
      (next : state.waiting slot = some (call, id :: rest)) (held : id ∈ state.locks slot) :
      Step state (.lock slot) (state.wait slot (some (call, rest)))
  | take {state : LockedSystem} {slot : Nat} {call : LuaCall} {id : MemoryId} {rest : List MemoryId}
      (next : state.waiting slot = some (call, id :: rest)) (free : state.locks.Free id) :
      Step state (.lock slot)
        { state.wait slot (some (call, rest)) with locks := state.locks.take slot id }
  | run {state : LockedSystem} {slot : Nat} {now : Timestamp} {call : LuaCall} {after : System}
      (ready : state.waiting slot = some (call, []))
      (runs : System.Step state.system (.call slot now call.operation) after) :
      Step state (.run slot now) { state.wait slot none with system := after }
  | refuse {state : LockedSystem} {slot : Nat} {now : Timestamp} {call : LuaCall}
      {block : MemoryBlock} {failure : MemoryError} (ready : state.waiting slot = some (call, []))
      (held : state.system.blocks slot = some block)
      (refused : call.operation.run ⟨state.system.graph, now⟩ block = .error failure) :
      Step state (.refuse slot now) (state.wait slot none)
  | commit {state : LockedSystem} {slot : Nat} {recordedAt : Timestamp} {source : EventSource}
      {after : System} (idle : state.waiting slot = none)
      (commits : System.Step state.system (.commit slot recordedAt source) after) :
      Step state (.commit slot recordedAt source) { state.finish slot with system := after }
  | drop {state : LockedSystem} {slot : Nat} {after : System}
      (drops : System.Step state.system (.drop slot) after) :
      Step state (.drop slot) { state.finish slot with system := after }
  | append {state : LockedSystem} {recordedAt : Timestamp} {source : EventSource}
      {payloads : List EventPayload} {after : System}
      (appends : System.Step state.system (.append recordedAt source payloads) after) :
      Step state (.append recordedAt source payloads) { state with system := after }

/-- A call that runs does so as foreseen when it asked. -/
def Foreseen (state : LockedSystem) (move : Move) : Prop :=
  ∀ slot now call block, move = .run slot now → state.waiting slot = some (call, []) →
    state.system.blocks slot = some block →
      call.Foreseen state.system.graph block (state.asked slot)

/-- What blocks write before they commit is locked by them, and no two write one memory. -/
structure WritesLocked (state : LockedSystem) : Prop where
  held : ∀ slot block, state.system.blocks slot = some block →
    Under (state.locks slot) block.buffer
  apart : ∀ one two first second, state.system.blocks one = some first →
    state.system.blocks two = some second → ∀ event ∈ first.buffer, ∀ other ∈ second.buffer,
      ∀ memory, memory ∈ writes event → memory ∈ writes other → one = two

/-- The invariant of a run: what a slot has asked for it holds or still waits for, and a call
that waits has asked for what it names. -/
structure Sound (state : LockedSystem) : Prop where
  reachable : Reachable state.system.graph
  exclusive : state.locks.Exclusive
  asked : ∀ slot id, id ∈ state.asked slot → id ∈ state.locks slot ∨
    ∃ call rest, state.waiting slot = some (call, rest) ∧ id ∈ rest
  named : ∀ slot call rest, state.waiting slot = some (call, rest) →
    call.names ⊆ state.asked slot
  written : ∀ slot block, state.system.blocks slot = some block →
    Under (state.locks slot) block.buffer ∧ Under (state.asked slot) block.buffer

section Steps

variable {state after : LockedSystem} {move : Move} {slot : Nat} {call : LuaCall}
variable {rest : List MemoryId}

theorem Sound.writesLocked (sound : Sound state) : WritesLocked state where
  held slot block found := (sound.written slot block found).1
  apart one two first second foundOne foundTwo event member other member' memory writesOne writesTwo :=
    sound.exclusive one two memory ((sound.written one first foundOne).1 event member memory writesOne)
      ((sound.written two second foundTwo).1 other member' memory writesTwo)

theorem Sound.asked_subset (sound : Sound state) (ready : state.waiting slot = some (call, [])) :
    state.asked slot ⊆ state.locks slot := by
  intro id asked
  rcases sound.asked slot id asked with held | ⟨_, _, waits, member⟩
  · exact held
  · rw [ready] at waits
    cases waits
    cases member

theorem Sound.ask (sound : Sound state) (idle : state.waiting slot = none) (call : LuaCall)
    (graph : Graph) :
    Sound { state.wait slot (some (call, call.asks graph)) with
      asked := Function.update state.asked slot (state.asked slot ++ call.asks graph) } := by
  refine ⟨sound.reachable, sound.exclusive, fun other id asked => ?_, fun other next rest waits => ?_,
    fun other block found => ?_⟩
  · by_cases same : other = slot
    · subst same
      simp only [wait, Function.update_self, List.mem_append] at asked ⊢
      rcases asked with earlier | now
      · rcases sound.asked other id earlier with held | ⟨_, _, waits, _⟩
        · exact .inl held
        · rw [idle] at waits
          cases waits
      · exact .inr ⟨call, _, rfl, now⟩
    · simp only [wait, Function.update_of_ne same] at asked ⊢
      exact sound.asked other id asked
  · by_cases same : other = slot
    · subst same
      simp only [wait, Function.update_self, Option.some.injEq, Prod.mk.injEq] at waits ⊢
      obtain ⟨rfl, rfl⟩ := waits
      exact fun id named => List.mem_append.mpr (.inr (LuaCall.names_subset_asks graph _ named))
    · simp only [wait, Function.update_of_ne same] at waits ⊢
      exact sound.named other next rest waits
  · obtain ⟨held, asked⟩ := sound.written other block found
    refine ⟨held, asked.mono ?_⟩
    by_cases same : other = slot
    · subst same
      simp only [Function.update_self]
      exact List.subset_append_left _ _
    · simp only [Function.update_of_ne same]
      exact fun _ member => member

theorem Sound.next (sound : Sound state) {id : MemoryId}
    (waits : state.waiting slot = some (call, id :: rest)) {locks : Locks Nat MemoryId}
    (exclusive : locks.Exclusive) (grows : ∀ other, state.locks other ⊆ locks other)
    (held : id ∈ locks slot) : Sound { state.wait slot (some (call, rest)) with locks := locks } := by
  refine ⟨sound.reachable, exclusive, fun other wanted asked => ?_, fun other next left goes => ?_,
    fun other block found => ?_⟩
  · rcases sound.asked other wanted asked with earlier | ⟨_, _, waited, member⟩
    · exact .inl (grows other earlier)
    · by_cases same : other = slot
      · subst same
        rw [waits] at waited
        cases waited
        rcases List.mem_cons.mp member with rfl | later
        · exact .inl held
        · exact .inr ⟨call, rest, by simp [wait], later⟩
      · exact .inr ⟨_, _, by simpa [wait, Function.update_of_ne same] using waited, member⟩
  · by_cases same : other = slot
    · subst same
      simp only [wait, Function.update_self, Option.some.injEq, Prod.mk.injEq] at goes
      obtain ⟨rfl, rfl⟩ := goes
      exact sound.named other _ _ waits
    · simp only [wait, Function.update_of_ne same] at goes
      exact sound.named other next left goes
  · obtain ⟨locked, asked⟩ := sound.written other block found
    exact ⟨locked.mono (grows other), asked⟩

theorem Sound.done (sound : Sound state) (ready : state.waiting slot = some (call, []))
    {system : System} (reachable : Reachable system.graph)
    (written : ∀ other block, system.blocks other = some block →
      Under (state.locks other) block.buffer ∧ Under (state.asked other) block.buffer) :
    Sound { state.wait slot none with system := system } := by
  refine ⟨reachable, sound.exclusive, fun other id asked => ?_, fun other next rest waits => ?_,
    written⟩
  · by_cases same : other = slot
    · subst same
      exact .inl (sound.asked_subset ready asked)
    · simp only [wait, Function.update_of_ne same]
      exact sound.asked other id asked
  · by_cases same : other = slot
    · subst same
      simp [wait] at waits
    · simp only [wait, Function.update_of_ne same] at waits
      exact sound.named other next rest waits

theorem Sound.finish (sound : Sound state) {system : System} (reachable : Reachable system.graph)
    (gone : system.blocks slot = none)
    (others : ∀ other, other ≠ slot → system.blocks other = state.system.blocks other) :
    Sound { state.finish slot with system := system } := by
  refine ⟨reachable, sound.exclusive.release, fun other id asked => ?_,
    fun other next rest waits => ?_, fun other block found => ?_⟩
  · by_cases same : other = slot
    · subst same
      simp [LockedSystem.finish] at asked
    · simp only [LockedSystem.finish, wait, Function.update_of_ne same, Locks.release_other same]
        at asked ⊢
      exact sound.asked other id asked
  · by_cases same : other = slot
    · subst same
      simp [LockedSystem.finish, wait] at waits
    · simp only [LockedSystem.finish, wait, Function.update_of_ne same] at waits ⊢
      exact sound.named other next rest waits
  · have same : other ≠ slot := by
      rintro rfl
      rw [gone] at found
      cases found
    simp only [LockedSystem.finish, wait, Function.update_of_ne same, Locks.release_other same]
    rw [others other same] at found
    exact sound.written other block found

theorem Sound.step (sound : Sound state) (step : Step state move after)
    (foreseen : Foreseen state move) : Sound after := by
  cases step with
  | «open» opens =>
    cases opens with
    | «open» free empty =>
      refine ⟨sound.reachable, sound.exclusive, sound.asked, sound.named, fun other block found => ?_⟩
      rcases System.put_blocks found with ⟨rfl, here⟩ | there
      · cases here
        rw [empty]
        exact ⟨List.forall_mem_nil _, List.forall_mem_nil _⟩
      · exact sound.written other block there
  | ask held idle => exact sound.ask idle _ _
  | own next held =>
    exact sound.next next sound.exclusive (fun _ _ member => member) held
  | @take slot call id rest next free =>
    exact sound.next next (sound.exclusive.take free)
      (fun _ _ member => Locks.mem_take_of_mem member) (by simp)
  | @run slot now call after ready runs =>
    cases runs with
    | call held ran =>
      refine sound.done ready sound.reachable fun other block found => ?_
      rcases System.put_blocks found with ⟨rfl, here⟩ | there
      · cases here
        -- what the call writes was asked for, and what was asked for is held by now
        have under := LuaCall.under sound.reachable (sound.named _ _ _ ready)
          (foreseen _ _ _ _ rfl ready held) (sound.written _ _ held).2 ran
        exact ⟨under.mono (sound.asked_subset ready), under⟩
      · exact sound.written other block there
  | refuse ready held refused => exact sound.done ready sound.reachable sound.written
  | @commit slot recordedAt source after idle commits =>
    cases commits with
    | @commit _ _ _ block held =>
      obtain ⟨_, _, _, committed⟩ := state.system.append_spec recordedAt source block.buffer
      refine sound.finish (sound.reachable.commit committed) (by simp [System.put]) fun other apart => ?_
      simp [System.put, apart]
  | drop drops =>
    cases drops
    refine sound.finish sound.reachable (by simp [System.put]) fun other apart => ?_
    simp [System.put, apart]
  | @append recordedAt source payloads after appends =>
    cases appends
    obtain ⟨_, _, _, committed⟩ := state.system.append_spec recordedAt source payloads
    refine ⟨sound.reachable.commit committed, sound.exclusive, sound.asked, sound.named,
      fun other block found => ?_⟩
    rw [System.append_blocks] at found
    exact sound.written other block found

theorem Step.determined {other : LockedSystem} (again : Step state move other)
    (step : Step state move after) : other = after := by
  cases step with
  | «open» opens =>
    cases again with
    | «open» opens' => rw [opens.determined opens']
  | ask | refuse => cases again; rfl
  | own next held =>
    cases again with
    | own next' _ =>
      rw [next] at next'
      cases next'
      rfl
    | take next' free =>
      rw [next] at next'
      cases next'
      exact absurd held (free _)
  | take next free =>
    cases again with
    | own next' held =>
      rw [next] at next'
      cases next'
      exact absurd held (free _)
    | take next' _ =>
      rw [next] at next'
      cases next'
      rfl
  | run ready runs =>
    cases again with
    | run ready' runs' =>
      rw [ready] at ready'
      cases ready'
      rw [runs.determined runs']
  | commit idle commits =>
    cases again with
    | commit _ commits' => rw [commits.determined commits']
  | drop drops =>
    cases again with
    | drop drops' => rw [drops.determined drops']
  | append appends =>
    cases again with
    | append appends' => rw [appends.determined appends']

theorem sound_start {graph : Graph} (reachable : Reachable graph) :
    Sound { system := { graph } } where
  reachable := reachable
  exclusive := Locks.exclusive_none
  asked _ _ member := nomatch member
  named _ _ _ waits := nomatch waits
  written _ _ found := nomatch found

end Steps

/-- In a run whose calls resolve to what their blocks had asked for, every write is made under
the lock of the memory it writes: the lock is held when the call runs, and as long as the
block has not come to its end. No two blocks ever have uncommitted writes to one memory. -/
theorem writesLocked_of_foreseen (graph : Graph) (reachable : Reachable graph)
    (moves : List Move) (last : LockedSystem)
    (foreseen : ∀ before move after,
      Trace.Takes Step { system := { graph } } moves last before move after → Foreseen before move) :
    (∀ state, Trace.Visits Step { system := { graph } } moves last state → WritesLocked state) ∧
      ∀ before slot now after,
        Trace.Takes Step { system := { graph } } moves last before (.run slot now) after →
          ∀ block, after.system.blocks slot = some block →
            Under (before.locks slot) block.buffer := by
  have keeps : ∀ one label two, Step one label two → Sound one → Foreseen one label → Sound two :=
    fun _ _ _ step sound foreseen => sound.step step foreseen
  have visited : ∀ state, Trace.Visits Step { system := { graph } } moves last state →
      Sound state := fun _ visits =>
    Trace.visited_of_taken (sound_start reachable) keeps foreseen visits
  refine ⟨fun state visits => (visited state visits).writesLocked,
    fun before slot now after takes block found => ?_⟩
  have under := ((visited after takes.visits.2).written slot block found).1
  obtain ⟨_, _, _, _, step, _⟩ := takes
  -- a call runs under the locks its block had before
  cases step with
  | run => exact under

namespace Shifted

def older : MemoryId := ⟨1⟩

def newer : MemoryId := ⟨2⟩

def note : EntryId := ⟨3⟩

def log : List EventPayload :=
  [.linkTypeRegistered .sameAs .sameAs .many .many true false "",
    .memoryCreated older ⟨"person/dave"⟩, .memoryCreated newer ⟨"person/dave@chat"⟩,
    .memoryContentAppended newer note ⟨0⟩ none "plays chess" .agent none .public]

def profiles : Graph := ((commit ⟨0⟩ .agent log Graph.fresh).toOption).getD Graph.fresh

theorem profiles_reachable : Reachable profiles := Reachable.fresh.folded

def merge : List EventPayload := [.linkCreated newer older .sameAs .operator none none .public]

def turn : MemoryBlock := MemoryBlock.open profiles .agent .platform none none [] 4000

def corrects : LuaCall := .retract newer note "told in jest"

def settles : LuaCall := .setVolatility older "high"

def settled : MemoryBlock := { turn with buffer := [.memoryVolatilitySet older .high] }

def corrected : MemoryBlock := { turn with buffer := [.entryRetracted older note "told in jest" none] }

def opened : LockedSystem where
  system := ({ graph := profiles } : System).put 1 (some turn)

def asked : LockedSystem :=
  { opened.wait 1 (some (settles, settles.asks profiles)) with
    asked := Function.update opened.asked 1 (opened.asked 1 ++ settles.asks profiles) }

def locked : LockedSystem :=
  { asked.wait 1 (some (settles, [])) with locks := asked.locks.take 1 older }

def written : LockedSystem :=
  { locked.wait 1 none with system := locked.system.put 1 (some settled) }

theorem opens : Step { system := { graph := profiles } } (.open 1 turn) opened :=
  .open (.open rfl rfl)

theorem opened_ask : Step opened (.ask 1 settles) asked := .ask rfl rfl

theorem asked_lock : Step asked (.lock 1) locked :=
  .take rfl fun _ held => nomatch held

theorem locked_run : Step locked (.run 1 ⟨1⟩) written := by
  have ran : settles.operation.run ⟨profiles, ⟨1⟩⟩ turn = .ok settled := by decide
  exact .run rfl (.call rfl ran)

def moves : List Move := [.open 1 turn, .ask 1 settles, .lock 1, .run 1 ⟨1⟩]

theorem trace_written : Trace Step { system := { graph := profiles } } moves written :=
  .cons opens (.cons opened_ask (.cons asked_lock (.single locked_run)))

theorem moves_foreseen (before : LockedSystem) (move : Move) (after : LockedSystem)
    (takes : Trace.Takes Step { system := { graph := profiles } } moves written before move after) :
    Foreseen before move := by
  intro slot now call block runs ready held
  subst runs
  rcases takes.of_cons fun _ step => step.determined opens with ⟨_, other⟩ | takes
  · cases other
  rcases takes.of_cons fun _ step => step.determined opened_ask with ⟨_, other⟩ | takes
  · cases other
  rcases takes.of_cons fun _ step => step.determined asked_lock with ⟨_, other⟩ | takes
  · cases other
  rcases takes.of_cons fun _ step => step.determined locked_run with ⟨rfl, same⟩ | takes
  · cases same
    cases ready
    cases held
    have target : classWriteTarget profiles turn older ∈ locked.asked 1 := by decide
    exact target
  · exact absurd takes Trace.not_takes_nil

/-- The write to the older profile alone is under its lock. -/
theorem settled_writesLocked :
    (∀ state, Trace.Visits Step { system := { graph := profiles } } moves written state →
        WritesLocked state) ∧
      ∀ before slot now after,
        Trace.Takes Step { system := { graph := profiles } } moves written before (.run slot now)
            after →
          ∀ block, after.system.blocks slot = some block →
            Under (before.locks slot) block.buffer :=
  writesLocked_of_foreseen profiles profiles_reachable moves written moves_foreseen

def joined : LockedSystem := { written with system := written.system.put 0 (some turn) }

def waiting : LockedSystem :=
  { joined.wait 0 (some (corrects, corrects.asks profiles)) with
    asked := Function.update joined.asked 0 (joined.asked 0 ++ corrects.asks profiles) }

def merged : LockedSystem :=
  { waiting with system := waiting.system.append ⟨2⟩ .operator merge }

def ready : LockedSystem :=
  { merged.wait 0 (some (corrects, [newer])) with locks := merged.locks.take 0 newer }

def cleared : LockedSystem := ready.wait 0 (some (corrects, []))

def both : LockedSystem :=
  { cleared.wait 0 none with system := cleared.system.put 0 (some corrected) }

def beside : List Move :=
  [.open 0 turn, .ask 0 corrects, .append ⟨2⟩ .operator merge, .lock 0, .lock 0, .run 0 ⟨3⟩]

theorem trace_both : Trace Step written beside both := by
  have joins : Step written (.open 0 turn) joined := .open (.open rfl rfl)
  have asks : Step joined (.ask 0 corrects) waiting := .ask rfl rfl
  have merges : Step waiting (.append ⟨2⟩ .operator merge) merged := .append .append
  have locks : Step merged (.lock 0) ready := by
    refine .take (by decide) fun owner held => ?_
    rcases Locks.mem_take.mp held with ⟨_, same⟩ | held
    · exact absurd same (by decide)
    · cases held
  have owns : Step ready (.lock 0) cleared := .own rfl (by decide)
  have ran : corrects.operation.run ⟨cleared.system.graph, ⟨3⟩⟩ turn = .ok corrected := by decide
  have runs : Step cleared (.run 0 ⟨3⟩) both := .run rfl (.call rfl ran)
  exact .cons joins (.cons asks (.cons merges (.cons locks (.cons owns (.single runs)))))

/-- A merge that shifts the class between the reading of it and the run lets two blocks write
to one memory, under the lock of one of them. -/
theorem not_writesLocked :
    Reachable profiles ∧ Trace Step { system := { graph := profiles } } (moves ++ beside) both ∧
      ¬ WritesLocked both := by
  refine ⟨profiles_reachable, trace_written.append trace_both, fun locked => ?_⟩
  have apart := locked.apart 0 1 corrected settled rfl rfl _ (List.mem_singleton_self _) _
    (List.mem_singleton_self _) older (List.mem_singleton_self _) (List.mem_singleton_self _)
  exact absurd apart (by decide)

end Shifted

end LockedSystem

end MemoryBlock

end Zuihitsu
