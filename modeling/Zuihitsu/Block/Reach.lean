/-
# What no block writes to

Only the console writes to `self`, and nobody writes content on the operator's
anchor. Each operation asks after its target has been redirected to the class it
addresses, so what it comes to is that no entry a guarded operation names lives on
the memory it may not touch. An append that is captured as a duplicate is the one
write of content that asks nothing.
-/

import Zuihitsu.Block.ReadYourWrites
import Zuihitsu.Graph.Genesis

namespace Zuihitsu

open Zuihitsu.Core Zuihitsu.Graph Zuihitsu.Library Zuihitsu.MemoryBlock

/-! ### Events that write to a memory -/

/-- The memory an event writes an entry of, or what is said of an entry. -/
def contentTarget : EventPayload → Option MemoryId
  | .memoryContentAppended id .. | .entryDescriptionMirrored id _ | .memorySuperseded id ..
  | .entryRetracted id .. | .entryAttested id .. | .attestationRetracted id ..
  | .entriesConsolidated id .. => some id
  | _ => none

/-- The entries already told that an event writes to. -/
def contentEntries : EventPayload → List EntryId
  | .memorySuperseded _ old new => [old, new]
  | .entryRetracted _ entry .. | .attestationRetracted _ entry .. => [entry]
  | .entryAttested _ entry _ _ _ _ _ source _ => entry :: source.toList
  | .entriesConsolidated _ sources _ _ => sources
  | _ => []

/-- The memory an event renames, tags, untags or sets the volatility of. -/
def handleTarget : EventPayload → Option MemoryId
  | .memoryRenamed id .. | .tagAppliedToMemory id _ | .tagRemovedFromMemory id _
  | .memoryVolatilitySet id _ => some id
  | _ => none

/-- An entry of the graph is told of a memory. -/
def LivesOn (graph : Graph) (memory : MemoryId) (entry : EntryId) : Prop :=
  ∃ row ∈ graph.entries, row.entryId = entry ∧ row.memoryId = memory

/-- An event writes content of a memory: it is recorded on it, or names an entry of it. -/
def WritesContent (graph : Graph) (memory : MemoryId) (payload : EventPayload) : Prop :=
  contentTarget payload = some memory ∨ ∃ entry ∈ contentEntries payload, LivesOn graph memory entry

/-- An event writes to a memory: its content, its name, its tags or its volatility. -/
def WritesTo (graph : Graph) (memory : MemoryId) (payload : EventPayload) : Prop :=
  WritesContent graph memory payload ∨ handleTarget payload = some memory

namespace MemoryBlock

/-- The memory a guarded write of content is addressed to. -/
def addressed : Operation → Option MemoryId
  | .append _ id .. | .supersede id .. | .revise _ id .. | .attest id .. | .retract id ..
  | .retractAttestation id .. | .consolidate _ id .. | .consolidateInto id .. => some id
  | _ => none

/-- The identities a call generates are new to the graph. -/
def GeneratesNew (graph : Graph) : Operation → Prop
  | .create fresh freshEntry .. =>
    graph.memories.contains fresh = false ∧ graph.entries.contains freshEntry = false
  | .append fresh .. | .appendDedup fresh .. | .revise fresh .. | .consolidate fresh .. =>
    graph.entries.contains fresh = false
  | _ => True

/-- A deduplicated append to a memory that no hit captures. -/
def Uncaptured (graph : Graph) (block : MemoryBlock) (memory : MemoryId) : Operation → Prop
  | .appendDedup _ id _ opts distinctFrom hits =>
    id = memory →
      findDedupTarget graph block id distinctFrom (entryTeller opts block.teller) hits = none
  | _ => True

/-! ### The guards -/

section Guards

variable {engine : Engine} {graph : Graph} {block after : MemoryBlock} {id : MemoryId}

theorem append_guarded {fresh : EntryId} {text : String} {opts : AppendOptions}
    (done : append engine fresh block id text opts = .ok after) :
    guardSelf block (classWriteTarget engine.graph block id) = .ok () ∧
      guardOperator block (classWriteTarget engine.graph block id) = .ok () := by
  simp only [append, bind_eq_ok, exists_checked] at done
  exact ⟨done.1, done.2.1⟩

theorem guarded_of_calls {call : Timestamp × Operation} (addresses : addressed call.2 = some id)
    (calls : Calls graph block call after) :
    guardSelf block (classWriteTarget graph block id) = .ok () ∧
      guardOperator block (classWriteTarget graph block id) = .ok () := by
  obtain ⟨now, op⟩ := call
  cases op with
  | append => cases addresses; exact append_guarded calls
  | revise =>
    cases addresses
    obtain ⟨_, _, first, _⟩ := revise_ok calls
    exact append_guarded first
  | supersede =>
    cases addresses
    simp only [Calls, Operation.run, supersede, bind_eq_ok, exists_checked] at calls
    exact ⟨calls.1, calls.2.1⟩
  | attest =>
    cases addresses
    simp only [Calls, Operation.run, attest, bind_eq_ok, exists_checked] at calls
    exact ⟨calls.1, calls.2.1⟩
  | retract =>
    cases addresses
    simp only [Calls, Operation.run, retract, bind_eq_ok, exists_checked] at calls
    exact ⟨calls.1, calls.2.1⟩
  | retractAttestation =>
    cases addresses
    simp only [Calls, Operation.run, retractAttestation, bind_eq_ok, exists_checked] at calls
    exact ⟨calls.1, calls.2.1⟩
  | consolidate =>
    cases addresses
    simp only [Calls, Operation.run, consolidate, bind_eq_ok, exists_checked] at calls
    exact ⟨calls.1, calls.2.1⟩
  | consolidateInto =>
    cases addresses
    simp only [Calls, Operation.run, consolidateInto, bind_eq_ok, exists_checked] at calls
    exact ⟨calls.1, calls.2.1⟩
  | _ => cases addresses

theorem not_self_of_guard {self : MemoryId} (isSelf : block.selfId = some self)
    (conversing : block.authority ≠ .operator) (passed : guardSelf block id = .ok ()) : id ≠ self := by
  rintro rfl
  simp [guardSelf, isSelf, conversing] at passed

theorem not_anchor_of_guard {anchor : MemoryId} (isAnchor : block.operatorId = some anchor)
    (passed : guardOperator block id = .ok ()) : id ≠ anchor := by
  rintro rfl
  simp [guardOperator, isAnchor] at passed

theorem captured_spec {distinctFrom : Option EntryId} {toldBy : Teller} {hits : List DedupHit}
    {memory : MemoryView} {entry : EntryView}
    (captured : findDedupTarget graph block id distinctFrom toldBy hits = some (memory, entry)) :
    (∃ hit : EntryId, graph.entryById hit = some (memory, entry)) ∧
      graph.classOf memory.id = graph.classOf (classWriteTarget graph block id) := by
  obtain ⟨hit, _, capture⟩ := List.exists_of_findSome?_eq_some captured
  unfold captures at capture
  split at capture
  · cases capture
  · simp only [Option.filter_eq_some_iff, Bool.and_eq_true, decide_eq_true_eq] at capture
    obtain ⟨found, ⟨⟨_, same⟩, _⟩, _⟩ := capture
    exact ⟨⟨hit.entry, found⟩, same⟩

theorem appendDedup_captured {fresh : EntryId} {text : String} {opts : AppendOptions}
    {distinctFrom : Option EntryId} {hits : List DedupHit}
    (done : appendDedup engine fresh block id text opts distinctFrom hits = .ok after) :
    append engine fresh block id text opts = .ok after ∨
      ∃ memory entry,
        findDedupTarget engine.graph block id distinctFrom (entryTeller opts block.teller) hits =
          some (memory, entry) ∧
        (after = block ∨ ∃ posture phrasing, after = block.pushAll
          [.entryAttested memory.id entry.entryId (entryTeller opts block.teller) block.toldIn
            engine.now posture phrasing none none]) := by
  unfold appendDedup at done
  split at done
  · rename_i memory entry captured
    simp only [corroborateAppend, bind_eq_ok, exists_const, refuseIf_ok] at done
    obtain ⟨_, _, _, posture, _, recorded⟩ := done
    refine .inr ⟨memory, entry, captured, (recordAttestation_ok recorded).2.imp_right fun pushed => ?_⟩
    exact ⟨posture, _, pushed⟩
  · exact .inl done

theorem classWriteTarget_cases (graph : Graph) (block : MemoryBlock) (id : MemoryId) :
    classWriteTarget graph block id = id ∨
      some (classWriteTarget graph block id) ≠ block.selfId ∧
        some (classWriteTarget graph block id) ≠ block.operatorId := by
  unfold classWriteTarget
  split
  · exact .inl rfl
  · split
    · exact .inl rfl
    · split
      · exact .inl rfl
      · rename_i primary _ elsewhere
        simp only [Bool.or_eq_true, decide_eq_true_eq, not_or] at elsewhere
        exact .inr ⟨elsewhere.1.2, elsewhere.1.1.2⟩

end Guards

/-! ### A memory out of reach -/

/-- A memory that a write addressed to another does not reach: it is another one, and none
of its entries is read in the other's class. -/
structure OutOfReach (graph : Graph) (memory id : MemoryId) : Prop where
  apart : id ≠ memory
  unread : ∀ row ∈ graph.entries, row.memoryId = memory → graph.inClass id row.memoryId = false

/-- What a block has buffered so far leaves a memory's content alone, and appends only
entries that are new to the graph. -/
structure Untouched (graph : Graph) (memory : MemoryId) (buffer : List EventPayload) : Prop where
  appends : ∀ payload ∈ buffer, ∀ entry, appended payload = some entry →
    graph.entries.contains entry = false
  content : ∀ payload ∈ buffer, ¬WritesContent graph memory payload

section Content

variable {engine : Engine} {graph : Graph} {block after : MemoryBlock} {id memory : MemoryId}
variable {events : List EventPayload}

theorem untouched_nil : Untouched graph memory [] := ⟨by simp, by simp⟩

theorem Untouched.buffers (untouched : Untouched graph memory block.buffer)
    (more : Untouched graph memory events) (buffers : Buffers block events after) :
    Untouched graph memory after.buffer := by
  rw [buffers.buffer]
  exact ⟨List.forall_mem_append.mpr ⟨untouched.appends, more.appends⟩,
    List.forall_mem_append.mpr ⟨untouched.content, more.content⟩⟩

theorem untouched_of_quiet (quiet : ∀ payload ∈ events, contentTarget payload = none) :
    Untouched graph memory events where
  appends payload member entry appends := by
    have none := quiet payload member
    cases payload with
    | memoryContentAppended => cases none
    | _ => cases appends
  content payload member writes := by
    have none := quiet payload member
    rcases writes with target | ⟨entry, named, _⟩
    · rw [none] at target
      cases target
    · cases payload with
      | memorySuperseded | entryRetracted | attestationRetracted | entryAttested
      | entriesConsolidated => cases none
      | _ => cases named

theorem untouched_of_elsewhere {owner : MemoryId} (apart : owner ≠ memory)
    (elsewhere : ∀ payload ∈ events, contentTarget payload = some owner ∧ appended payload = none ∧
      ∀ entry ∈ contentEntries payload, ¬LivesOn graph memory entry) :
    Untouched graph memory events where
  appends payload member entry appends := by
    rw [(elsewhere payload member).2.1] at appends
    cases appends
  content payload member writes := by
    obtain ⟨target, _, named⟩ := elsewhere payload member
    rcases writes with here | ⟨entry, names, lives⟩
    · exact apart (Option.some.inj (target.symm.trans here))
    · exact named entry names lives

theorem Untouched.not_livesOn (untouched : Untouched graph memory block.buffer)
    (out : OutOfReach graph memory id) {entry : EntryId} {live : LiveEntry}
    (found : liveEntry graph block id entry = .ok live) : ¬LivesOn graph memory entry := by
  rintro ⟨row, stored, named, owner⟩
  obtain ⟨member, same⟩ := mem_of_liveEntry found
  rcases List.mem_append.mp member with committed | pending
  · obtain ⟨view, listed, rfl⟩ := List.mem_map.mp committed
    obtain ⟨other, otherMem, rfl⟩ := List.mem_map.mp (List.mem_filter.mp listed).1
    obtain ⟨inEntries, matching⟩ := mem_entryRowsWhere.mp otherMem
    have key : row.entryId = other.entryId := named.trans same.symm
    obtain rfl : row = other := Table.eq_of_key_eq stored inEntries key
    have unread := out.unread row stored owner
    rw [Bool.and_eq_true, unread] at matching
    cases matching.1
  · obtain ⟨payload, inBuffer, read⟩ := List.mem_filterMap.mp pending
    have fresh := untouched.appends payload inBuffer _ (appended_of_livePending read)
    rw [same, ← named, Table.contains_of_mem stored] at fresh
    cases fresh

theorem livesOn_of_entryById {entry : EntryId} {owner : MemoryView} {view : EntryView}
    (found : graph.entryById entry = some (owner, view)) :
    view.entryId = entry ∧ ∀ memory, LivesOn graph memory entry ↔ memory = owner.id := by
  obtain ⟨row, stored, assembled⟩ := Option.bind_eq_some_iff.mp found
  obtain ⟨inEntries, key⟩ := Table.find_eq_some_iff.mp stored
  obtain ⟨memory, live, same⟩ := Option.map_eq_some_iff.mp assembled
  cases same
  obtain ⟨memoryRow, here, rfl⟩ := Option.map_eq_some_iff.mp live
  have named : memoryRow.id = row.memoryId :=
    (Table.find_eq_some_iff.mp (Option.filter_eq_some_iff.mp here).1).2
  refine ⟨key, fun memory => ⟨?_, ?_⟩⟩
  · rintro ⟨other, otherMem, otherKey, rfl⟩
    obtain rfl : other = row := Table.eq_of_key_eq otherMem inEntries (otherKey.trans key.symm)
    exact named.symm
  · rintro rfl
    exact ⟨row, inEntries, key, named.symm⟩

theorem Untouched.owner_apart (untouched : Untouched graph memory block.buffer) {entry : EntryId}
    {found : AttestTarget} (elsewhere : ¬LivesOn graph memory entry)
    (located : attestTarget graph block entry = .ok found) : found.memory ≠ memory := by
  unfold attestTarget at located
  split at located
  · rename_i owner view stored
    cases located
    exact fun same => elsewhere (((livesOn_of_entryById stored).2 memory).mpr same.symm)
  · split at located
    · rename_i pending
      cases located
      obtain ⟨payload, member, owns⟩ := List.exists_of_findSome?_eq_some pending
      rintro rfl
      refine untouched.content payload member (.inl ?_)
      unfold pendingOwner at owns
      split at owns
      · split at owns
        · cases owns
          rfl
        · cases owns
      · cases owns
    · cases located

theorem untouched_inlineVolatility {opts : AppendOptions} :
    Untouched graph memory (inlineVolatility id opts) :=
  untouched_of_quiet (forall_inlineVolatility fun _ => rfl)

theorem Untouched.cons {payload : EventPayload} (first : Untouched graph memory [payload])
    (rest : Untouched graph memory events) : Untouched graph memory (payload :: events) where
  appends := List.forall_mem_cons.mpr ⟨first.appends payload List.mem_cons_self, rest.appends⟩
  content := List.forall_mem_cons.mpr ⟨first.content payload List.mem_cons_self, rest.content⟩

theorem untouched_append {entry : EntryId} {assertedAt : Timestamp} {occurredAt : Option TemporalRef}
    {text : String} {toldBy : Teller} {toldIn : Option ConversationRef} {visibility : Visibility}
    (apart : id ≠ memory) (fresh : graph.entries.contains entry = false) :
    Untouched graph memory
      [.memoryContentAppended id entry assertedAt occurredAt text toldBy toldIn visibility] where
  appends := by simpa [appended] using fresh
  content := by simpa [WritesContent, contentTarget, contentEntries] using apart

theorem untouched_single {payload : EventPayload} {owner : MemoryId} (apart : owner ≠ memory)
    (target : contentTarget payload = some owner) (appends : appended payload = none)
    (named : ∀ entry ∈ contentEntries payload, ¬LivesOn graph memory entry) :
    Untouched graph memory [payload] :=
  untouched_of_elsewhere apart (List.forall_mem_singleton.mpr ⟨target, appends, named⟩)

theorem not_livesOn_of_new {entry : EntryId} (new : graph.entries.contains entry = false) :
    ¬LivesOn graph memory entry := by
  rintro ⟨row, stored, rfl, _⟩
  rw [Table.contains_of_mem stored] at new
  cases new

theorem retract_on {entry : EntryId} {reason : String} {producedBy : Option ProducedBy}
    (done : retract engine block id entry reason producedBy = .ok after) :
    ∃ live events, liveEntry engine.graph block (classWriteTarget engine.graph block id) entry =
        .ok live ∧ after = block.pushAll events ∧ ∀ event ∈ events,
          contentTarget event = some (classWriteTarget engine.graph block id) ∧
            appended event = none ∧ contentEntries event = [entry] := by
  simp only [retract, bind_eq_ok, exists_checked, exists_const, refuseIf_ok] at done
  obtain ⟨_, _, _, live, found, done⟩ := done
  split at done
  · cases done
    exact ⟨live, _, found, rfl, List.forall_mem_map.mpr fun _ _ => ⟨rfl, rfl, rfl⟩⟩
  · simp only [bind_eq_ok, exists_checked] at done
    obtain ⟨_, done⟩ := done
    cases done
    exact ⟨live, _, found, push_eq_pushAll, List.forall_mem_singleton.mpr ⟨rfl, rfl, rfl⟩⟩

theorem retractAttestation_on {entry : EntryId} {teller : Teller} {reason : String}
    {producedBy : Option ProducedBy}
    (done : retractAttestation engine block id entry teller reason producedBy = .ok after) :
    ∃ live events, liveEntry engine.graph block (classWriteTarget engine.graph block id) entry =
        .ok live ∧ after = block.pushAll events ∧ ∀ event ∈ events,
          contentTarget event = some (classWriteTarget engine.graph block id) ∧
            appended event = none ∧ contentEntries event = [entry] := by
  simp only [retractAttestation, bind_eq_ok, exists_checked, exists_const, refuseIf_ok] at done
  obtain ⟨_, _, _, live, found, _, done⟩ := done
  cases done
  exact ⟨live, _, found, rfl, List.forall_mem_map.mpr fun _ _ => ⟨rfl, rfl, rfl⟩⟩

theorem untouched_retractions {entry : EntryId} {owner : MemoryId} (apart : owner ≠ memory)
    (elsewhere : ¬LivesOn graph memory entry)
    (retractions : ∀ event ∈ events, contentTarget event = some owner ∧ appended event = none ∧
      contentEntries event = [entry]) : Untouched graph memory events := by
  refine untouched_of_elsewhere apart fun event member => ?_
  obtain ⟨target, appends, named⟩ := retractions event member
  rw [named]
  exact ⟨target, appends, List.forall_mem_singleton.mpr elsewhere⟩

theorem untouched_retirement {owner : MemoryId} {sources : List EntryId} {replacement : EntryId}
    {producedBy : Option ProducedBy} (apart : owner ≠ memory)
    (read : ∀ source ∈ sources, ¬LivesOn graph memory source)
    (endorsements : ∀ event ∈ events, contentTarget event = some owner ∧ appended event = none ∧
      ∀ entry ∈ contentEntries event, ¬LivesOn graph memory entry) :
    Untouched graph memory (events ++ [.entriesConsolidated owner sources replacement producedBy]) :=
  untouched_of_elsewhere apart (List.forall_mem_append.mpr
    ⟨endorsements, List.forall_mem_singleton.mpr ⟨rfl, rfl, read⟩⟩)

theorem contentTarget_of_mayBuffer {op : Operation} {payload : EventPayload}
    (quiet : writesContent op = false) (kind : op.mayBuffer payload = true) :
    contentTarget payload = none := by
  cases payload with
  | memoryContentAppended | entryDescriptionMirrored | memorySuperseded | entryRetracted
  | entryAttested | attestationRetracted | entriesConsolidated =>
    cases op <;> first | (cases quiet; done) | cases kind
  | _ => rfl

section Calls

variable (reach : ∀ target, guardSelf block target = .ok () → guardOperator block target = .ok () →
  OutOfReach graph memory target)
include reach

theorem Untouched.append {now : Timestamp} {fresh : EntryId} {text : String} {opts : AppendOptions}
    (untouched : Untouched graph memory block.buffer) (new : graph.entries.contains fresh = false)
    (done : append ⟨graph, now⟩ fresh block id text opts = .ok after) :
    Untouched graph memory after.buffer := by
  have out := reach _ (append_guarded done).1 (append_guarded done).2
  obtain ⟨_, _, _, _, rfl⟩ := append_ok done
  exact untouched.buffers ((untouched_append out.apart new).cons untouched_inlineVolatility)
    buffers_pushAll

theorem Untouched.step {call : Timestamp × Operation} (untouched : Untouched graph memory block.buffer)
    (known : graph.memories.contains memory = true) (new : GeneratesNew graph call.2)
    (captured : ∀ fresh id text opts distinctFrom hits view entry,
      call.2 = .appendDedup fresh id text opts distinctFrom hits →
      findDedupTarget graph block id distinctFrom (entryTeller opts block.teller) hits =
        some (view, entry) → view.id ≠ memory)
    (calls : Calls graph block call after) : Untouched graph memory after.buffer := by
  have target : ∀ id, addressed call.2 = some id →
      OutOfReach graph memory (classWriteTarget graph block id) := fun id addresses =>
    reach _ (guarded_of_calls addresses calls).1 (guarded_of_calls addresses calls).2
  obtain ⟨now, op⟩ := call
  cases op with
  | create fresh freshEntry name content opts =>
    -- the memory created is not one the graph knows
    have apart : fresh ≠ memory := by
      rintro rfl
      rw [new.1] at known
      cases known
    rcases (createWithOpts_ok calls).2 with empty | ⟨text, visibility, seeded⟩
    · exact untouched.buffers (untouched_of_quiet (by simp [contentTarget])) empty
    · refine untouched.buffers ?_ seeded
      have created : Untouched graph memory [.memoryCreated fresh name] :=
        untouched_of_quiet (by simp [contentTarget])
      have mirrored : Untouched graph memory [.entryDescriptionMirrored fresh freshEntry] :=
        untouched_single apart rfl rfl (by simp [contentEntries])
      exact created.cons ((untouched_append apart new.2).cons
        (mirrored.cons untouched_inlineVolatility))
  | append => exact untouched.append reach new calls
  | appendDedup fresh id text opts distinctFrom hits =>
    rcases appendDedup_captured calls with done | ⟨view, entry, found, rfl | ⟨posture, phrasing, rfl⟩⟩
    · exact untouched.append reach new done
    · exact untouched
    · have apart := captured fresh id text opts distinctFrom hits view entry rfl found
      obtain ⟨⟨hit, stored⟩, _⟩ := captured_spec found
      obtain ⟨named, lives⟩ := livesOn_of_entryById stored
      refine untouched.buffers (untouched_single apart rfl rfl ?_) buffers_pushAll
      intro other member here
      obtain rfl : other = entry.entryId := by simpa [contentEntries] using member
      rw [named] at here
      exact apart ((lives memory).mp here).symm
  | supersede id old new =>
    obtain ⟨⟨_, oldLive⟩, ⟨_, newLive⟩, rfl⟩ := supersede_ok calls
    have out := target id rfl
    refine untouched.buffers (untouched_single out.apart rfl rfl ?_) buffers_pushAll
    simp only [contentEntries, List.forall_mem_cons]
    exact ⟨untouched.not_livesOn out oldLive, untouched.not_livesOn out newLive, by simp⟩
  | revise fresh id old text opts =>
    obtain ⟨_, middle, first, second⟩ := revise_ok calls
    have middling := untouched.append reach new first
    obtain ⟨_, _, _, _, rfl⟩ := append_ok first
    obtain ⟨⟨_, oldLive⟩, ⟨_, newLive⟩, rfl⟩ := supersede_ok second
    have out := target id rfl
    refine middling.buffers (untouched_single out.apart rfl rfl ?_) buffers_pushAll
    simp only [contentEntries, List.forall_mem_cons]
    exact ⟨middling.not_livesOn out oldLive, middling.not_livesOn out newLive, by simp⟩
  | attest id entry opts =>
    obtain ⟨_, live, found, _, posture, located, _, _, _, rfl | rfl⟩ := attest_ok calls
    · exact untouched
    · have elsewhere := untouched.not_livesOn (target id rfl) live
      refine untouched.buffers
        (untouched_single (untouched.owner_apart elsewhere located) rfl rfl ?_) buffers_pushAll
      simpa [contentEntries] using elsewhere
  | retract id entry reason producedBy =>
    obtain ⟨live, events, found, rfl, retractions⟩ := retract_on calls
    have out := target id rfl
    exact untouched.buffers
      (untouched_retractions out.apart (untouched.not_livesOn out found) retractions) buffers_pushAll
  | retractAttestation id entry teller reason producedBy =>
    obtain ⟨live, events, found, rfl, retractions⟩ := retractAttestation_on calls
    have out := target id rfl
    exact untouched.buffers
      (untouched_retractions out.apart (untouched.not_livesOn out found) retractions) buffers_pushAll
  | consolidate fresh id sources text producedBy =>
    obtain ⟨toldBy, visibility, sourced, _, _, _, rfl⟩ := consolidate_ok calls
    have out := target id rfl
    refine untouched.buffers ((untouched_append out.apart new).cons ?_) buffers_pushAll
    have read : ∀ source ∈ sources, ¬LivesOn graph memory source := by
      intro source member
      obtain ⟨_, live, _⟩ := sourced source member
      exact untouched.not_livesOn out live
    refine untouched_retirement out.apart read (List.forall_mem_map.mpr fun group member => ?_)
    refine ⟨rfl, rfl, List.forall_mem_cons.mpr ⟨not_livesOn_of_new new, ?_⟩⟩
    -- the account of a source names the source
    obtain ⟨entry, inSources, rfl, _⟩ := mem_distinctSourceTellers member
    obtain ⟨source, listed, live⟩ := mem_sourceEntries.mp inSources
    obtain ⟨_, rfl⟩ := mem_of_liveEntry live
    exact List.forall_mem_singleton.mpr (read _ listed)
  | consolidateInto id sources replacement producedBy =>
    obtain ⟨_, carried, live, sourced, _, inSources, _, rfl⟩ := consolidateInto_ok calls
    have out := target id rfl
    have read : ∀ source ∈ sources, ¬LivesOn graph memory source := by
      intro source member
      obtain ⟨_, live⟩ := sourced source member
      exact untouched.not_livesOn out live
    refine untouched.buffers (untouched_retirement out.apart read
      (List.forall_mem_map.mpr fun entry member => ?_)) buffers_pushAll
    refine ⟨rfl, rfl, List.forall_mem_cons.mpr ⟨untouched.not_livesOn out live, ?_⟩⟩
    obtain ⟨source, listed, live⟩ := mem_sourceEntries.mp (inSources member)
    obtain ⟨_, rfl⟩ := mem_of_liveEntry live
    exact List.forall_mem_singleton.mpr (read _ listed)
  | _ =>
    obtain ⟨events, buffers, kinds⟩ := call_mayBuffer calls
    exact untouched.buffers (untouched_of_quiet fun payload member =>
      contentTarget_of_mayBuffer rfl (kinds payload member)) buffers

end Calls

end Content

/-! ### Handles -/

section Handles

variable {graph : Graph} {block after : MemoryBlock} {id self : MemoryId}
variable {events : List EventPayload}

theorem handle_inlineVolatility {opts : AppendOptions} (apart : id ≠ self) :
    ∀ payload ∈ inlineVolatility id opts, handleTarget payload ≠ some self :=
  forall_inlineVolatility fun _ => by simpa [handleTarget] using apart

theorem append_handle {now : Timestamp} {fresh : EntryId} {text : String} {opts : AppendOptions}
    (isSelf : block.selfId = some self) (conversing : block.authority ≠ .operator)
    (done : append ⟨graph, now⟩ fresh block id text opts = .ok after) :
    ∃ events, Buffers block events after ∧ ∀ payload ∈ events, handleTarget payload ≠ some self := by
  have apart := not_self_of_guard isSelf conversing (append_guarded done).1
  obtain ⟨_, _, _, _, rfl⟩ := append_ok done
  exact ⟨_, buffers_pushAll, List.forall_mem_cons.mpr ⟨nofun, handle_inlineVolatility apart⟩⟩

theorem call_handle {call : Timestamp × Operation} (isSelf : block.selfId = some self)
    (conversing : block.authority ≠ .operator) (known : graph.memories.contains self = true)
    (new : GeneratesNew graph call.2) (calls : Calls graph block call after) :
    ∃ events, Buffers block events after ∧ ∀ payload ∈ events, handleTarget payload ≠ some self := by
  obtain ⟨now, op⟩ := call
  have none : ∃ events, Buffers block events block ∧
      ∀ payload ∈ events, handleTarget payload ≠ some self := ⟨[], buffers_self, by simp⟩
  cases op with
  | create fresh freshEntry name content opts =>
    have apart : fresh ≠ self := by
      rintro rfl
      rw [new.1] at known
      cases known
    rcases (createWithOpts_ok calls).2 with empty | ⟨text, visibility, seeded⟩
    · exact ⟨_, empty, List.forall_mem_singleton.mpr (by simp [handleTarget])⟩
    · refine ⟨_, seeded, ?_⟩
      simp only [List.forall_mem_cons]
      refine ⟨?_, ?_, ?_, handle_inlineVolatility apart⟩ <;> simp [handleTarget]
  | rename =>
    rcases rename_ok calls with rfl | ⟨_, _, _, rfl⟩
    · exact none
    · simp only [Calls, Operation.run, rename, bind_eq_ok, exists_checked] at calls
      have apart := not_self_of_guard isSelf conversing calls.1
      exact ⟨_, buffers_pushAll, List.forall_mem_singleton.mpr (by simpa [handleTarget] using apart)⟩
  | append => exact append_handle isSelf conversing calls
  | appendDedup =>
    rcases appendDedup_ok calls with done | rfl | ⟨_, _, _, _, _, _, _, rfl⟩
    · exact append_handle isSelf conversing done
    · exact none
    · exact ⟨_, buffers_pushAll, List.forall_mem_singleton.mpr (by simp [handleTarget])⟩
  | revise =>
    obtain ⟨_, middle, first, second⟩ := revise_ok calls
    obtain ⟨events, buffers, apart⟩ := append_handle isSelf conversing first
    obtain ⟨_, _, rfl⟩ := supersede_ok second
    exact ⟨_, buffers.trans buffers_pushAll,
      List.forall_mem_append.mpr ⟨apart, List.forall_mem_singleton.mpr (by simp [handleTarget])⟩⟩
  | setVolatility =>
    obtain ⟨_, rfl⟩ := setVolatility_ok calls
    simp only [Calls, Operation.run, setVolatility, bind_eq_ok, exists_checked] at calls
    have apart := not_self_of_guard isSelf conversing calls.1
    exact ⟨_, buffers_pushAll, List.forall_mem_singleton.mpr (by simpa [handleTarget] using apart)⟩
  | tag =>
    obtain ⟨_, rfl⟩ := tag_ok calls
    simp only [Calls, Operation.run, tag, bind_eq_ok, exists_checked] at calls
    have apart := not_self_of_guard isSelf conversing calls.1
    exact ⟨_, buffers_pushAll, List.forall_mem_singleton.mpr (by simpa [handleTarget] using apart)⟩
  | untag =>
    obtain rfl := untag_ok calls
    simp only [Calls, Operation.run, untag, bind_eq_ok, exists_checked] at calls
    have apart := not_self_of_guard isSelf conversing calls.1
    exact ⟨_, buffers_pushAll, List.forall_mem_singleton.mpr (by simpa [handleTarget] using apart)⟩
  | _ =>
    obtain ⟨events, buffers, kinds⟩ := call_mayBuffer calls
    refine ⟨events, buffers, fun payload member => ?_⟩
    have kind := kinds payload member
    cases payload with
    | memoryRenamed | tagAppliedToMemory | tagRemovedFromMemory | memoryVolatilitySet => cases kind
    | _ => simp [handleTarget]

end Handles

/-! ### Whole blocks -/

/-- A block as it is opened on a graph, for a connector or for anyone else. -/
def OpenedOn (graph : Graph) (block : MemoryBlock) : Prop :=
  ∃ teller authority conversation turn presentSet maxEntryChars,
    block = .open graph teller authority conversation turn presentSet maxEntryChars ∨
      block = (MemoryBlock.open graph teller authority conversation turn presentSet
        maxEntryChars).authoredByConnector

/-- No other memory is of the identity class of this one. -/
def AloneInClass (graph : Graph) (memory : MemoryId) : Prop :=
  ∀ member, graph.classOf member = graph.classOf memory → member = memory

section Blocks

variable {graph : Graph} {block after : MemoryBlock} {calls : List (Timestamp × Operation)}

theorem contains_of_memoryByName {name : MemoryName} {view : MemoryView}
    (found : graph.memoryByName name = some view) : graph.memories.contains view.id = true := by
  obtain ⟨row, listed, rfl⟩ := Option.map_eq_some_iff.mp found
  exact Table.contains_of_mem (List.mem_of_find?_eq_some listed)

theorem AloneInClass.outOfReach {memory id : MemoryId} (alone : AloneInClass graph memory)
    (apart : id ≠ memory) : OutOfReach graph memory id := by
  refine ⟨apart, fun row _ owner => ?_⟩
  rw [← Bool.not_eq_true, owner]
  intro read
  obtain ⟨primary, first, second⟩ := inClass_iff.mp read
  exact apart (alone id (by simp [classOf, first, second]))

theorem AloneInClass.not_captured {memory id : MemoryId} {distinctFrom : Option EntryId}
    {toldBy : Teller} {hits : List DedupHit} {view : MemoryView} {entry : EntryView}
    (alone : AloneInClass graph memory) (isSelf : block.selfId = some memory)
    (uncaptured : id = memory → findDedupTarget graph block id distinctFrom toldBy hits = none)
    (found : findDedupTarget graph block id distinctFrom toldBy hits = some (view, entry)) :
    view.id ≠ memory := by
  rintro rfl
  have target := alone _ (captured_spec found).2.symm
  rcases classWriteTarget_cases graph block id with same | ⟨elsewhere, _⟩
  · rw [uncaptured (same.symm.trans target)] at found
    cases found
  · exact elsewhere (by rw [target, isSelf])

/-- What a block that may not touch `self` has buffered so far. -/
structure SparesSelf (graph : Graph) (memory : MemoryId) (block : MemoryBlock) : Prop where
  isSelf : block.selfId = some memory
  platform : block.authority = .platform
  untouched : Untouched graph memory block.buffer
  handle : ∀ payload ∈ block.buffer, handleTarget payload ≠ some memory

theorem SparesSelf.step {self : MemoryId} {call : Timestamp × Operation} (spares : SparesSelf graph self block)
    (known : graph.memories.contains self = true) (alone : AloneInClass graph self)
    (new : GeneratesNew graph call.2) (uncaptured : Uncaptured graph block self call.2)
    (calls : Calls graph block call after) : SparesSelf graph self after := by
  have conversing : block.authority ≠ .operator := by
    rw [spares.platform]
    exact nofun
  have untouched : Untouched graph self after.buffer := by
    refine spares.untouched.step (fun target passed _ => ?_) known new ?_ calls
    · exact alone.outOfReach (not_self_of_guard spares.isSelf conversing passed)
    · intro fresh id text opts distinctFrom hits view entry same found
      rw [same] at uncaptured
      exact alone.not_captured spares.isSelf uncaptured found
  obtain ⟨events, buffers, handle⟩ := call_handle spares.isSelf conversing known new calls
  have extended := buffers.buffer
  obtain ⟨seeds, rfl⟩ := buffers
  exact ⟨spares.isSelf, spares.platform, untouched, List.forall_mem_append.mpr ⟨spares.handle, handle⟩⟩

theorem uncaptured_later {memory : MemoryId} {call : Timestamp × Operation} {op : Operation}
    (uncaptured : Uncaptured graph block memory op) (calls : Calls graph block call after) :
    Uncaptured graph after memory op := by
  obtain ⟨_, ⟨seeds, rfl⟩, _⟩ := call_mayBuffer (show Calls _ _ (call.1, call.2) _ from calls)
  exact uncaptured

theorem SparesSelf.run {self : MemoryId} (known : graph.memories.contains self = true)
    (alone : AloneInClass graph self)
    (run : Trace (fun one call other => Calls graph one call other ∧ GeneratesNew graph call.2) block
      calls after)
    (uncaptured : ∀ call ∈ calls, Uncaptured graph block self call.2)
    (spares : SparesSelf graph self block) : SparesSelf graph self after := by
  induction run with
  | nil => exact spares
  | cons first _ ih =>
    obtain ⟨called, new⟩ := first
    obtain ⟨here, later⟩ := List.forall_mem_cons.mp uncaptured
    exact ih (fun call member => uncaptured_later (later call member) called)
      (spares.step known alone new here called)

/-- The invariant of a block under any authority: it has written no content on the anchor. -/
structure SparesAnchor (graph : Graph) (anchor : MemoryId) (block : MemoryBlock) : Prop where
  isAnchor : block.operatorId = some anchor
  untouched : Untouched graph anchor block.buffer

theorem SparesAnchor.step {anchor : MemoryId} {call : Timestamp × Operation}
    (spares : SparesAnchor graph anchor block) (known : graph.memories.contains anchor = true)
    (bare : ∀ entry, ¬LivesOn graph anchor entry) (new : GeneratesNew graph call.2)
    (calls : Calls graph block call after) : SparesAnchor graph anchor after := by
  have untouched : Untouched graph anchor after.buffer := by
    refine spares.untouched.step (fun target _ passed => ?_) known new ?_ calls
    · exact ⟨not_anchor_of_guard spares.isAnchor passed,
        fun row stored owner => absurd ⟨row, stored, rfl, owner⟩ (bare row.entryId)⟩
    · intro fresh id text opts distinctFrom hits view entry _ found
      obtain ⟨⟨hit, stored⟩, _⟩ := captured_spec found
      rintro rfl
      exact bare hit (((livesOn_of_entryById stored).2 view.id).mpr rfl)
  obtain ⟨_, ⟨seeds, rfl⟩, _⟩ := call_mayBuffer (show Calls _ _ (call.1, call.2) _ from calls)
  exact ⟨spares.isAnchor, untouched⟩

/-- However many calls a block makes, and in whatever order: under a conversation turn it
writes nothing to a `self` that is alone in its class, if no deduplicated append to `self` is
captured, and under any authority it writes no content on an operator's anchor that holds
none. -/
theorem self_and_anchor_untouched (opened : OpenedOn graph block)
    (run : Trace (fun one call other => Calls graph one call other ∧ GeneratesNew graph call.2) block
      calls after) :
    (∀ self, graph.memoryByName MemoryName.selfHandle = some self → AloneInClass graph self.id →
      block.authority = .platform → (∀ call ∈ calls, Uncaptured graph block self.id call.2) →
      ∀ payload ∈ after.buffer, ¬WritesTo graph self.id payload) ∧
    (∀ anchor, graph.memoryByName NamespacedMemoryName.operator.toMemoryName = some anchor →
      (∀ entry, ¬LivesOn graph anchor.id entry) →
      ∀ payload ∈ after.buffer, ¬WritesContent graph anchor.id payload) := by
  obtain ⟨teller, authority, conversation, turn, presentSet, maxEntryChars, here⟩ := opened
  have fields : block.buffer = [] ∧
      block.selfId = (graph.memoryByName MemoryName.selfHandle).map (·.id) ∧
      block.operatorId = (graph.memoryByName NamespacedMemoryName.operator.toMemoryName).map (·.id) := by
    rcases here with rfl | rfl <;> exact ⟨rfl, rfl, rfl⟩
  obtain ⟨empty, isSelf, isAnchor⟩ := fields
  constructor
  · intro self named alone platform uncaptured payload member
    rw [named] at isSelf
    have start : SparesSelf graph self.id block :=
      ⟨isSelf, platform, empty ▸ untouched_nil, by simp [empty]⟩
    have spares := SparesSelf.run (contains_of_memoryByName named) alone run uncaptured start
    rintro (content | handle)
    · exact spares.untouched.content payload member content
    · exact spares.handle payload member handle
  · intro anchor named bare
    rw [named] at isAnchor
    have known := contains_of_memoryByName named
    have spares : SparesAnchor graph anchor.id after :=
      run.invariant (SparesAnchor graph anchor.id)
        (fun _ _ _ ⟨called, new⟩ earlier => earlier.step known bare new called)
        ⟨isAnchor, empty ▸ untouched_nil⟩
    exact spares.untouched.content

end Blocks

end MemoryBlock

/-! Dana runs an agent, and is merged with the anchor that stands for its operator. -/

namespace Household

def agent : MemoryId := ⟨1⟩
def anchor : MemoryId := ⟨2⟩
def dana : MemoryId := ⟨3⟩
def jonas : MemoryId := ⟨4⟩

/-- The agent's seed, with what else is told, and two memories joined. -/
def householdLog (told : List EventPayload) (first second : MemoryId) : List EventPayload :=
  [.linkTypeRegistered .sameAs .sameAs .many .many true false "", .memoryCreated agent .selfHandle,
    .memoryContentAppended agent ⟨11⟩ ⟨0⟩ none "I keep the household's notes." .bootstrap none .public,
    .memoryCreated anchor ⟨"person/operator"⟩, .memoryCreated dana ⟨"person/dana"⟩,
    .memoryCreated jonas ⟨"person/jonas"⟩] ++ told ++
    [.linkCreated first second .sameAs .operator none none .public]

/-- The graph of such a log. -/
def graphOf (told : List EventPayload) (first second : MemoryId) : Graph :=
  ((commit ⟨0⟩ .bootstrap (householdLog told first second) Graph.fresh).toOption).getD Graph.fresh

def household : Graph := graphOf [] dana anchor

/-- A turn of Dana on a graph. -/
def turnOn (graph : Graph) : MemoryBlock :=
  .open graph (.participant dana) .platform none none [dana] 4000

/-- The block after some calls, as far as they succeed. -/
def blockAfter (graph : Graph) (calls : List (Timestamp × Operation)) : MemoryBlock :=
  calls.foldl (fun block call => ((call.2.run ⟨graph, call.1⟩ block).toOption).getD block) (turnOn graph)

def introducing : List (Timestamp × Operation) :=
  [(⟨1⟩, .append ⟨21⟩ dana "I keep bees" { visibility := some .public }),
    (⟨2⟩, .rename dana ⟨"person/dana_the_beekeeper"⟩)]

theorem graphOf_reachable {told : List EventPayload} {first second : MemoryId}
    (folds : commit ⟨0⟩ .bootstrap (householdLog told first second) Graph.fresh =
      .ok (graphOf told first second)) : Reachable (graphOf told first second) :=
  Reachable.fresh.commit folds

theorem turnOn_opened (graph : Graph) : OpenedOn graph (turnOn graph) :=
  ⟨_, _, _, _, _, _, .inl rfl⟩

def mistaken : Graph := graphOf [] agent jonas

def misplaced : Graph :=
  graphOf [.memoryContentAppended anchor ⟨12⟩ ⟨0⟩ none "runs the house" (.participant jonas) none .public]
    dana anchor

/-- A turn writes to the class of a merged agent through its other member, endorses the agent's
seed by repeating it, endorses what was told on the anchor through Dana, and renames it. -/
theorem guards_passed_by :
    (Reachable mistaken ∧ mistaken.classOf jonas = mistaken.classOf agent ∧
      Calls mistaken (turnOn mistaken) (⟨1⟩, .append ⟨21⟩ jonas "I keep bees" { visibility := some .public })
        (blockAfter mistaken [(⟨1⟩, .append ⟨21⟩ jonas "I keep bees" { visibility := some .public })]) ∧
      ∃ payload ∈ (blockAfter mistaken
        [(⟨1⟩, .append ⟨21⟩ jonas "I keep bees" { visibility := some .public })]).buffer,
          WritesTo mistaken jonas payload) ∧
    (Reachable misplaced ∧
      Calls misplaced (turnOn misplaced) (⟨1⟩, .attest dana ⟨12⟩ { visibility := some .public })
        (blockAfter misplaced [(⟨1⟩, .attest dana ⟨12⟩ { visibility := some .public })]) ∧
      ∃ payload ∈ (blockAfter misplaced
        [(⟨1⟩, .attest dana ⟨12⟩ { visibility := some .public })]).buffer,
          WritesContent misplaced anchor payload) ∧
    (Reachable household ∧
      Calls household (turnOn household) (⟨1⟩, .rename anchor ⟨"person/someone"⟩)
        (blockAfter household [(⟨1⟩, .rename anchor ⟨"person/someone"⟩)]) ∧
      ∃ payload ∈ (blockAfter household [(⟨1⟩, .rename anchor ⟨"person/someone"⟩)]).buffer,
        WritesTo household anchor payload) ∧
    (Calls household (turnOn household)
        (⟨1⟩, .appendDedup ⟨21⟩ agent "I keep notes" { visibility := some .public } none [⟨⟨11⟩, true⟩])
        (blockAfter household [(⟨1⟩, .appendDedup ⟨21⟩ agent "I keep notes"
          { visibility := some .public } none [⟨⟨11⟩, true⟩])]) ∧
      ∃ payload ∈ (blockAfter household [(⟨1⟩, .appendDedup ⟨21⟩ agent "I keep notes"
          { visibility := some .public } none [⟨⟨11⟩, true⟩])]).buffer,
        WritesTo household agent payload) := by
  refine ⟨⟨graphOf_reachable rfl, rfl, rfl, _, List.mem_cons_self, .inl (.inl rfl)⟩,
    ⟨graphOf_reachable rfl, rfl, _, List.mem_cons_self, .inl rfl⟩,
    ⟨graphOf_reachable rfl, rfl, _, List.mem_cons_self, .inr rfl⟩,
    rfl, _, List.mem_cons_self, .inl (.inl rfl)⟩

theorem household_classes : household.memories.rows.map (fun row => (row.id, row.classId)) =
    [(agent, agent), (anchor, anchor), (dana, anchor), (jonas, jonas)] := rfl

theorem household_told : household.entries.rows.map (·.memoryId) = [agent] := rfl

theorem agent_alone : AloneInClass household agent := by
  intro member same
  have own : household.classOf agent = agent := rfl
  rw [own, classOf, classId] at same
  cases found : household.liveRow member with
  | none => simpa [found] using same
  | some row =>
    have listed : (member, agent) ∈ household.memories.rows.map fun row => (row.id, row.classId) := by
      obtain ⟨stored, key⟩ := Table.find_eq_some_iff.mp (Option.filter_eq_some_iff.mp found).1
      have primary : row.classId = agent := by simpa [found] using same
      exact List.mem_map.mpr ⟨row, stored, Prod.ext key primary⟩
    rw [household_classes] at listed
    simpa [agent, anchor, dana, jonas] using listed

theorem anchor_bare (entry : EntryId) : ¬LivesOn household anchor entry := by
  rintro ⟨row, stored, _, owner⟩
  have listed : row.memoryId ∈ household.entries.rows.map (·.memoryId) := List.mem_map_of_mem stored
  rw [household_told, owner] at listed
  revert listed
  decide

/-- Dana's own turn keeps off both. -/
theorem untouched_introducing :
    (∀ payload ∈ (blockAfter household introducing).buffer, ¬WritesTo household agent payload) ∧
      ∀ payload ∈ (blockAfter household introducing).buffer, ¬WritesContent household anchor payload := by
  have appends : Calls household (turnOn household)
      (⟨1⟩, .append ⟨21⟩ dana "I keep bees" { visibility := some .public })
      (blockAfter household (introducing.take 1)) := rfl
  have renames : Calls household (blockAfter household (introducing.take 1))
      (⟨2⟩, .rename dana ⟨"person/dana_the_beekeeper"⟩) (blockAfter household introducing) := rfl
  have isSelf : household.memoryByName .selfHandle =
      some ⟨agent, .selfHandle, "", .medium, ⟨0⟩, []⟩ := rfl
  have isAnchor : household.memoryByName NamespacedMemoryName.operator.toMemoryName =
      some ⟨anchor, ⟨"person/operator"⟩, "", .medium, ⟨0⟩, []⟩ := rfl
  have both := self_and_anchor_untouched (turnOn_opened household)
    (.cons ⟨appends, rfl⟩ (.single ⟨renames, trivial⟩))
  exact ⟨both.1 _ isSelf agent_alone rfl (by simp [Uncaptured]), both.2 _ isAnchor anchor_bare⟩

end Household

end Zuihitsu
