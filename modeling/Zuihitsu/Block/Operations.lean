/-
# The calls of a block

The operations a block answers, as data, so that what holds of every sequence of
them can be said.
-/

import Zuihitsu.Block.Consolidate
import Zuihitsu.Block.Links

namespace Zuihitsu

open Zuihitsu.Core Zuihitsu.Graph Zuihitsu.Library

namespace MemoryBlock

/-- A call on a block, with the identities it would generate. -/
inductive Operation where
  | create (fresh : MemoryId) (freshEntry : EntryId) (name : MemoryName) (content : Option String)
      (opts : AppendOptions)
  | rename (id : MemoryId) (newName : MemoryName)
  | append (fresh : EntryId) (id : MemoryId) (text : String) (opts : AppendOptions)
  | appendDedup (fresh : EntryId) (id : MemoryId) (text : String) (opts : AppendOptions)
      (distinctFrom : Option EntryId) (hits : List DedupHit)
  | supersede (id : MemoryId) (old new : EntryId)
  | revise (fresh : EntryId) (id : MemoryId) (old : EntryId) (text : String) (opts : AppendOptions)
  | setVolatility (id : MemoryId) (level : String)
  | attest (id : MemoryId) (entry : EntryId) (opts : AppendOptions)
  | retract (id : MemoryId) (entry : EntryId) (reason : String) (producedBy : Option ProducedBy)
  | retractAttestation (id : MemoryId) (entry : EntryId) (teller : Teller) (reason : String)
      (producedBy : Option ProducedBy)
  | consolidate (fresh : EntryId) (id : MemoryId) (sources : List EntryId) (text : String)
      (producedBy : Option ProducedBy)
  | consolidateInto (id : MemoryId) (sources : List EntryId) (replacement : EntryId)
      (producedBy : Option ProducedBy)
  | createTag (name : TagName) (description : String)
  | describeTag (name : TagName) (description : String)
  | tag (id : MemoryId) (name : TagName)
  | untag (id : MemoryId) (name : TagName)
  | registerRelation (spec : RelationSpec)
  | link (fromId toId : MemoryId) (relation : RelationName) (opts : LinkOptions)
  | unlink (fromId toId : MemoryId) (relation : RelationName)
  | proposeMerge (fromId toId : MemoryId) (rationale : Option String)
  | designatePrimary (id : MemoryId) (designated : Bool)
  | rehomeLink (link : RehomedLink)
  deriving DecidableEq

/-- Run an operation on a block. -/
def Operation.run (engine : Engine) (block : MemoryBlock) :
    Operation → Except MemoryError MemoryBlock
  | create fresh freshEntry name content opts =>
    createWithOpts engine fresh freshEntry block name content opts
  | rename id newName => block.rename engine id newName
  | append fresh id text opts => block.append engine fresh id text opts
  | appendDedup fresh id text opts distinctFrom hits =>
    block.appendDedup engine fresh id text opts distinctFrom hits
  | supersede id old new => block.supersede engine id old new
  | revise fresh id old text opts => block.revise engine fresh id old text opts
  | setVolatility id level => block.setVolatility engine id level
  | attest id entry opts => block.attest engine id entry opts
  | retract id entry reason producedBy => block.retract engine id entry reason producedBy
  | retractAttestation id entry teller reason producedBy =>
    block.retractAttestation engine id entry teller reason producedBy
  | consolidate fresh id sources text producedBy =>
    block.consolidate engine fresh id sources text producedBy
  | consolidateInto id sources replacement producedBy =>
    block.consolidateInto engine id sources replacement producedBy
  | createTag name description => block.createTag engine name description
  | describeTag name description => block.describeTag engine name description
  | tag id name => block.tag engine id name
  | untag id name => block.untag id name
  | registerRelation spec => block.registerRelation spec
  | link fromId toId relation opts => block.link engine fromId toId relation opts
  | unlink fromId toId relation => block.unlink engine fromId toId relation
  | proposeMerge fromId toId rationale => block.proposeMerge fromId toId rationale
  | designatePrimary id designated => block.designatePrimary id designated
  | rehomeLink moved => .ok (block.rehomeLink moved)

/-- One call on a block against a graph, at its time, that succeeds. A call that
fails leaves the block as it was. -/
def Calls (graph : Graph) (block : MemoryBlock) (call : Timestamp × Operation)
    (after : MemoryBlock) : Prop :=
  call.2.run ⟨graph, call.1⟩ block = .ok after

/-! ### What an operation can buffer -/

/-- The kinds of event an operation buffers at most. -/
def Operation.mayBuffer : Operation → EventPayload → Bool
  | create .., .memoryCreated .. | create .., .memoryContentAppended ..
  | create .., .entryDescriptionMirrored .. | create .., .memoryVolatilitySet .. => true
  | rename .., .memoryRenamed .. => true
  | append .., .memoryContentAppended .. | append .., .memoryVolatilitySet .. => true
  | appendDedup .., .memoryContentAppended .. | appendDedup .., .memoryVolatilitySet ..
  | appendDedup .., .entryAttested .. => true
  | supersede .., .memorySuperseded .. => true
  | revise .., .memoryContentAppended .. | revise .., .memoryVolatilitySet ..
  | revise .., .memorySuperseded .. => true
  | setVolatility .., .memoryVolatilitySet .. => true
  | attest .., .entryAttested .. => true
  | retract .., .entryRetracted .. | retract .., .attestationRetracted .. => true
  | retractAttestation .., .entryRetracted .. | retractAttestation .., .attestationRetracted .. =>
    true
  | consolidate .., .memoryContentAppended .. | consolidate .., .entryAttested ..
  | consolidate .., .entriesConsolidated .. => true
  | consolidateInto .., .entryAttested .. | consolidateInto .., .entriesConsolidated .. => true
  | createTag .., .tagCreated .. => true
  | describeTag .., .tagDescriptionChanged .. => true
  | tag .., .tagAppliedToMemory .. => true
  | untag .., .tagRemovedFromMemory .. => true
  | registerRelation .., .linkTypeRegistered .. => true
  | link .., .mergeProposed .. | link .., .linkCreated .. | link .., .linkRemoved .. => true
  | unlink .., .linkRemoved .. => true
  | proposeMerge .., .mergeProposed .. => true
  | designatePrimary .., .classPrimaryDesignated .. => true
  | rehomeLink .., .linkRemoved .. | rehomeLink .., .linkCreated .. => true
  | _, _ => false

section Buffered

variable {graph : Graph} {block after : MemoryBlock} {now : Timestamp} {id : MemoryId}
variable {opts : AppendOptions} {op : Operation}

theorem mayBuffer_none :
    ∃ events, Buffers block events block ∧ ∀ payload ∈ events, op.mayBuffer payload = true :=
  ⟨[], buffers_self, List.forall_mem_nil _⟩

theorem mayBuffer_one {event : EventPayload} (kind : op.mayBuffer event = true) :
    ∃ events, Buffers block events (block.pushAll [event]) ∧
      ∀ payload ∈ events, op.mayBuffer payload = true :=
  ⟨_, buffers_pushAll, List.forall_mem_singleton.mpr kind⟩

theorem append_mayBuffer {fresh : EntryId} {text : String}
    (appends : ∀ id entry assertedAt occurredAt text toldBy toldIn visibility,
      op.mayBuffer (.memoryContentAppended id entry assertedAt occurredAt text toldBy toldIn
        visibility) = true)
    (sets : ∀ id volatility, op.mayBuffer (.memoryVolatilitySet id volatility) = true)
    (done : append ⟨graph, now⟩ fresh block id text opts = .ok after) :
    ∃ events, Buffers block events after ∧ ∀ payload ∈ events, op.mayBuffer payload = true := by
  obtain ⟨_, _, _, _, rfl⟩ := append_ok done
  exact ⟨_, buffers_pushAll, List.forall_mem_cons.mpr
    ⟨appends .., forall_inlineVolatility (sets _)⟩⟩

theorem call_mayBuffer (calls : Calls graph block (now, op) after) :
    ∃ events, Buffers block events after ∧ ∀ payload ∈ events, op.mayBuffer payload = true := by
  cases op with
  | create =>
    rcases (createWithOpts_ok calls).2 with empty | ⟨text, visibility, seeded⟩
    · exact ⟨_, empty, List.forall_mem_singleton.mpr rfl⟩
    · refine ⟨_, seeded, ?_⟩
      simp only [List.forall_mem_cons]
      exact ⟨rfl, rfl, rfl, forall_inlineVolatility fun _ => rfl⟩
  | rename =>
    rcases rename_ok calls with rfl | ⟨_, _, _, rfl⟩
    · exact mayBuffer_none
    · exact mayBuffer_one rfl
  | append =>
    exact append_mayBuffer (fun _ _ _ _ _ _ _ _ => rfl) (fun _ _ => rfl) calls
  | appendDedup =>
    -- a duplicate is endorsed instead, or already is
    rcases appendDedup_ok calls with done | rfl | ⟨_, _, _, _, _, _, _, rfl⟩
    · exact append_mayBuffer (fun _ _ _ _ _ _ _ _ => rfl) (fun _ _ => rfl) done
    · exact mayBuffer_none
    · exact mayBuffer_one rfl
  | supersede =>
    obtain ⟨_, _, rfl⟩ := supersede_ok calls
    exact mayBuffer_one rfl
  | revise fresh id old text opts =>
    obtain ⟨_, middle, first, second⟩ := revise_ok calls
    have appended : ∃ events, Buffers block events middle ∧
        ∀ payload ∈ events, (Operation.revise fresh id old text opts).mayBuffer payload = true :=
      append_mayBuffer (fun _ _ _ _ _ _ _ _ => rfl) (fun _ _ => rfl) first
    obtain ⟨events, buffers, kinds⟩ := appended
    obtain ⟨_, _, rfl⟩ := supersede_ok second
    exact ⟨_, buffers.trans buffers_pushAll, List.forall_mem_append.mpr
      ⟨kinds, List.forall_mem_singleton.mpr rfl⟩⟩
  | setVolatility =>
    obtain ⟨_, rfl⟩ := setVolatility_ok calls
    exact mayBuffer_one rfl
  | attest =>
    obtain ⟨_, _, _, _, _, _, _, _, _, rfl | rfl⟩ := attest_ok calls
    · exact mayBuffer_none
    · exact mayBuffer_one rfl
  | retract =>
    obtain ⟨_, rfl, retractions⟩ := retract_ok calls
    refine ⟨_, buffers_pushAll, fun payload member => ?_⟩
    cases payload <;> first | rfl | cases retractions _ member
  | retractAttestation =>
    obtain ⟨_, rfl, retractions⟩ := retractAttestation_ok calls
    refine ⟨_, buffers_pushAll, fun payload member => ?_⟩
    cases payload <;> first | rfl | cases retractions _ member
  | consolidate =>
    obtain ⟨_, _, _, _, _, _, rfl⟩ := consolidate_ok calls
    refine ⟨_, buffers_pushAll, ?_⟩
    simp only [List.forall_mem_cons, List.forall_mem_append, List.forall_mem_map]
    exact ⟨rfl, fun _ _ => rfl, rfl, by simp⟩
  | consolidateInto =>
    obtain ⟨_, _, _, _, _, _, _, rfl⟩ := consolidateInto_ok calls
    refine ⟨_, buffers_pushAll, ?_⟩
    simp only [List.forall_mem_cons, List.forall_mem_append, List.forall_mem_map]
    exact ⟨fun _ _ => rfl, rfl, by simp⟩
  | createTag =>
    obtain ⟨_, rfl⟩ := createTag_ok calls
    exact mayBuffer_one rfl
  | describeTag =>
    obtain rfl := describeTag_ok calls
    exact mayBuffer_one rfl
  | tag =>
    obtain ⟨_, rfl⟩ := tag_ok calls
    exact mayBuffer_one rfl
  | untag =>
    obtain rfl := untag_ok calls
    exact mayBuffer_one rfl
  | registerRelation =>
    obtain ⟨_, _, rfl⟩ := registerRelation_ok calls
    exact mayBuffer_one rfl
  | link =>
    obtain ⟨_, done⟩ := link_ok calls
    obtain ⟨_, rfl | rfl | ⟨_, _, _, _, ⟨_, rfl⟩ | rfl⟩⟩ := changeLink_ok done
    · exact mayBuffer_none
    · exact mayBuffer_one rfl
    · exact mayBuffer_one rfl
    · exact mayBuffer_one rfl
  | unlink =>
    obtain ⟨_, _, rfl⟩ := unlink_ok calls
    exact mayBuffer_one rfl
  | proposeMerge =>
    obtain rfl := proposeMerge_ok calls
    exact mayBuffer_one rfl
  | designatePrimary =>
    obtain rfl := designatePrimary_ok calls
    exact mayBuffer_one rfl
  | rehomeLink =>
    cases calls
    unfold MemoryBlock.rehomeLink
    dsimp only
    split
    · exact mayBuffer_one rfl
    · exact ⟨_, buffers_push.trans buffers_push, List.forall_mem_cons.mpr
        ⟨rfl, List.forall_mem_singleton.mpr rfl⟩⟩

end Buffered

/-! ### Which operations write content -/

/-- The operations that append, endorse or retire entries. -/
def writesContent : Operation → Bool
  | .create .. | .append .. | .appendDedup .. | .supersede .. | .revise .. | .attest .. | .retract ..
  | .retractAttestation .. | .consolidate .. | .consolidateInto .. => true
  | _ => false

end MemoryBlock

end Zuihitsu
