/-
# Vocabulary and link writes

Tags, relation types and links. A link's guard reads the label the caller typed;
which stored edge the label means is only settled when the event folds, by the
relation types registered by then.
-/

import Zuihitsu.Block.Attest

namespace Zuihitsu

open Zuihitsu.Core Zuihitsu.Graph Zuihitsu.Library

namespace MemoryBlock

/-! ### Tags -/

/-- Whether a pending event creates a tag. -/
def createsTag (name : TagName) : EventPayload → Bool
  | .tagCreated created _ => created = name
  | _ => false

/-- Whether a tag is in the vocabulary, the buffer included. -/
def tagExists (graph : Graph) (block : MemoryBlock) (name : TagName) : Bool :=
  block.buffer.any (createsTag name) || graph.tags.contains name

/-- Create a tag with a one-line purpose. -/
def createTag (engine : Engine) (block : MemoryBlock) (name : TagName) (description : String) :
    Except MemoryError MemoryBlock := do
  refuseIf (tagExists engine.graph block name = true) (.tagExists name)
  return block.push (.tagCreated name description)

/-- Change an existing tag's purpose. -/
def describeTag (engine : Engine) (block : MemoryBlock) (name : TagName) (description : String) :
    Except MemoryError MemoryBlock := do
  refuseIf (tagExists engine.graph block name = false) (.unknownTag name)
  return block.push (.tagDescriptionChanged name description)

/-- Apply a tag to a memory. -/
def tag (engine : Engine) (block : MemoryBlock) (id : MemoryId) (name : TagName) :
    Except MemoryError MemoryBlock := do
  guardSelf block id
  refuseIf (tagExists engine.graph block name = false) (.unknownTag name)
  return block.push (.tagAppliedToMemory id name)

/-- Remove a tag from a memory. -/
def untag (block : MemoryBlock) (id : MemoryId) (name : TagName) :
    Except MemoryError MemoryBlock := do
  guardSelf block id
  guardConfidentialUntag block name
  return block.push (.tagRemovedFromMemory id name)

/-! ### Relation types -/

/-- A relation type as it is asked for. -/
structure RelationSpec where
  name : String
  inverse : String
  fromCard : String
  toCard : String
  symmetric : Bool := false
  reflexive : Bool := false
  description : String := ""
  deriving DecidableEq, Repr

/-- A cardinality, or the error that names the text. -/
def parseCardinality (value : String) : Except MemoryError Cardinality :=
  match Cardinality.parse value with
  | some cardinality => .ok cardinality
  | none => .error (.badCardinality value)

/-- Register a relation type, or update the one registered under its name. -/
def registerRelation (block : MemoryBlock) (spec : RelationSpec) :
    Except MemoryError MemoryBlock := do
  let fromCard ← parseCardinality spec.fromCard
  let toCard ← parseCardinality spec.toCard
  return block.push
    (.linkTypeRegistered ⟨spec.name⟩ ⟨spec.inverse⟩ fromCard toCard spec.symmetric spec.reflexive
      spec.description)

/-- Whether a pending event registers a label, as a name or as an inverse. -/
def registersLabel (label : RelationName) : EventPayload → Bool
  | .linkTypeRegistered name inverse .. => name = label || inverse = label
  | _ => false

/-- Whether a relation is registered under either label, the buffer included. -/
def relationRegistered (graph : Graph) (block : MemoryBlock) (label : RelationName) : Bool :=
  block.buffer.any (registersLabel label) || (graph.relation label).isSome

/-! ### Links -/

/-- Raise the question whether two memories are the same person. -/
def proposeMerge (block : MemoryBlock) (fromId toId : MemoryId) (rationale : Option String) :
    Except MemoryError MemoryBlock := do
  refuseIf (fromId = toId) .mergeProposalInvalid
  guardSelfMerge block fromId toId
  return block.push (.mergeProposed fromId toId .agent rationale)

/-- Whether a memory's class has no live entries. -/
def isEmptyProfile (graph : Graph) (id : MemoryId) : Bool := (graph.classEntries id).isEmpty

/-- The write-time default of a link. -/
def defaultLinkVisibility (fromId : MemoryId) (fromName : MemoryName) (toId : MemoryId)
    (toName : MemoryName) (teller : Teller) : Visibility :=
  if fromId = toId then .public
  else
    match subjectParticipant fromName fromId, subjectParticipant toName toId, teller with
    | some fromPerson, some toPerson, .participant tellerId =>
      if tellerId = fromPerson ∧ tellerId ≠ toPerson then .privateToTeller
      else if tellerId = toPerson ∧ tellerId ≠ fromPerson then .privateToTeller
      else .attributed
    | _, _, _ => .public

/-- The visibility a link is written at. -/
def resolveLinkVisibility (block : MemoryBlock) (fromId : MemoryId) (fromName : Option MemoryName)
    (toId : MemoryId) (toName : Option MemoryName) (toldBy : Teller)
    (forced : Option ForcedVisibility) : Except MemoryError Visibility :=
  match forced with
  | some forced => .ok (forcedToVisibility forced)
  | none =>
    if block.confidentialContext then .ok .privateToTeller
    else if block.authority = .platform ∧ toldBy = .agent ∧ aboutAPerson toName toId = true then
      .error .visibilityRequired
    else
      match fromName, toName with
      | some fromName, some toName => .ok (defaultLinkVisibility fromId fromName toId toName toldBy)
      | _, _ => .ok .public

/-- Who a block's links are authored by. -/
def linkSource (block : MemoryBlock) : LinkSource :=
  match block.authority with
  | .operator => .operator
  | .platform | .agent => .agent

/-- Buffer a link or its removal, once its guards have passed and its endpoints are settled. -/
def writeLink (engine : Engine) (block : MemoryBlock) (fromId toId : MemoryId)
    (relation : RelationName) (create : Bool) (forced : Option ForcedVisibility) :
    Except MemoryError MemoryBlock :=
  if create then do
    let visibility ← resolveLinkVisibility block fromId (resolveName engine.graph block fromId) toId
      (resolveName engine.graph block toId) block.teller forced
    let posture : LinkPosture := ⟨linkSource block, some block.teller, block.toldIn, visibility⟩
    -- the link stands so already
    if engine.graph.linkBetween fromId toId relation = some posture then return block
    return block.push
      (.linkCreated fromId toId relation posture.source posture.toldBy posture.toldIn
        posture.visibility)
  else .ok (block.push (.linkRemoved fromId toId relation))

/-- Create or remove a link under a registered relation. -/
def changeLink (engine : Engine) (block : MemoryBlock) (fromId toId : MemoryId)
    (relation : RelationName) (create : Bool) (forced : Option ForcedVisibility) :
    Except MemoryError MemoryBlock := do
  refuseIf (relationRegistered engine.graph block relation = false) (.unknownRelation relation)
  if relation = .sameAs then
    guardSelfMerge block fromId toId
    match block.authority with
    | .platform =>
      -- a conversation turn can only ask for a merge
      if create then proposeMerge block fromId toId none else .error .mergeForbidden
    | .agent =>
      -- two profiles with content are a question for the operator
      if create ∧ isEmptyProfile engine.graph fromId = false ∧
          isEmptyProfile engine.graph toId = false then
        proposeMerge block fromId toId none
      else writeLink engine block fromId toId relation create forced
    | .operator => writeLink engine block fromId toId relation create forced
  else
    -- any other relation is between the primaries of the classes
    writeLink engine block (classWriteTarget engine.graph block fromId)
      (classWriteTarget engine.graph block toId) relation create forced

/-- The overrides a link accepts. -/
structure LinkOptions where
  visibility : Option VisibilityChoice := none
  exclude : Option IdSet := none
  deriving DecidableEq

/-- Link two memories under a registered relation. -/
def link (engine : Engine) (block : MemoryBlock) (fromId toId : MemoryId) (relation : RelationName)
    (opts : LinkOptions) : Except MemoryError MemoryBlock := do
  let forced ← reconcileForcedVisibility opts.visibility opts.exclude
  changeLink engine block fromId toId relation true forced

/-- Remove such a link. -/
def unlink (engine : Engine) (block : MemoryBlock) (fromId toId : MemoryId)
    (relation : RelationName) : Except MemoryError MemoryBlock :=
  changeLink engine block fromId toId relation false none

/-- Designate a memory its class's primary, or release it. -/
def designatePrimary (block : MemoryBlock) (id : MemoryId) (designated : Bool) :
    Except MemoryError MemoryBlock := do
  guardSelf block id
  return block.push (.classPrimaryDesignated id designated)

/-- A stored link to move onto its canonical endpoints, or to drop where the
primary carries the relation already. -/
structure RehomedLink where
  storedFrom : MemoryId
  storedTo : MemoryId
  canonicalFrom : MemoryId
  canonicalTo : MemoryId
  relation : RelationName
  posture : LinkPosture
  survivor : Bool
  deriving DecidableEq

/-- Move a link onto the class primary, as it stands. -/
def rehomeLink (block : MemoryBlock) (link : RehomedLink) : MemoryBlock :=
  let removed := block.push (.linkRemoved link.storedFrom link.storedTo link.relation)
  if link.survivor then removed
  else
    removed.push
      (.linkCreated link.canonicalFrom link.canonicalTo link.relation link.posture.source
        link.posture.toldBy link.posture.toldIn link.posture.visibility)

/-! ### What the vocabulary and link writes buffer -/

section Buffered

variable {engine : Engine} {block after : MemoryBlock} {id fromId toId : MemoryId}
variable {name : TagName} {relation : RelationName} {create : Bool}
variable {forced : Option ForcedVisibility}

theorem createTag_ok {description : String}
    (done : createTag engine block name description = .ok after) :
    tagExists engine.graph block name = false ∧
      after = block.pushAll [.tagCreated name description] := by
  simp only [createTag, bind_eq_ok, exists_const, refuseIf_ok, Bool.not_eq_true, pure, Except.pure,
    Except.ok.injEq] at done
  exact ⟨done.1, done.2.symm⟩

theorem describeTag_ok {description : String}
    (done : describeTag engine block name description = .ok after) :
    after = block.pushAll [.tagDescriptionChanged name description] := by
  simp only [describeTag, bind_eq_ok, exists_const, refuseIf_ok, pure, Except.pure,
    Except.ok.injEq] at done
  exact done.2.symm

theorem tag_ok (done : tag engine block id name = .ok after) :
    tagExists engine.graph block name = true ∧
      after = block.pushAll [.tagAppliedToMemory id name] := by
  simp only [tag, bind_eq_ok, exists_checked, exists_const, refuseIf_ok, Bool.not_eq_false, pure,
    Except.pure, Except.ok.injEq] at done
  exact ⟨done.2.1, done.2.2.symm⟩

theorem untag_ok (done : untag block id name = .ok after) :
    after = block.pushAll [.tagRemovedFromMemory id name] := by
  simp only [untag, bind_eq_ok, exists_checked, pure, Except.pure, Except.ok.injEq] at done
  exact done.2.2.symm

theorem registerRelation_ok {spec : RelationSpec}
    (done : registerRelation block spec = .ok after) :
    ∃ fromCard toCard, after = block.pushAll
      [.linkTypeRegistered ⟨spec.name⟩ ⟨spec.inverse⟩ fromCard toCard spec.symmetric spec.reflexive
        spec.description] := by
  simp only [registerRelation, bind_eq_ok, pure, Except.pure, Except.ok.injEq] at done
  obtain ⟨fromCard, _, toCard, _, rfl⟩ := done
  exact ⟨fromCard, toCard, rfl⟩

theorem designatePrimary_ok {designated : Bool}
    (done : designatePrimary block id designated = .ok after) :
    after = block.pushAll [.classPrimaryDesignated id designated] := by
  simp only [designatePrimary, bind_eq_ok, exists_checked, pure, Except.pure, Except.ok.injEq]
    at done
  exact done.2.symm

theorem writeLink_ok (done : writeLink engine block fromId toId relation create forced = .ok after) :
    after = block ∨
      (∃ visibility, after = block.pushAll
        [.linkCreated fromId toId relation (linkSource block) (some block.teller) block.toldIn
          visibility]) ∨
      after = block.pushAll [.linkRemoved fromId toId relation] := by
  unfold writeLink at done
  split at done
  · obtain ⟨visibility, _, done⟩ := bind_eq_ok.mp done
    dsimp only at done
    split at done
    · cases done
      exact .inl rfl
    · cases done
      exact .inr (.inl ⟨visibility, rfl⟩)
  · cases done
    exact .inr (.inr rfl)

theorem proposeMerge_ok {rationale : Option String}
    (done : proposeMerge block fromId toId rationale = .ok after) :
    after = block.pushAll [.mergeProposed fromId toId .agent rationale] := by
  simp only [proposeMerge, bind_eq_ok, exists_checked, pure, Except.pure, Except.ok.injEq] at done
  exact done.2.2.symm

/-- A change of a link is under a registered label. It buffers nothing, a merge
proposal, or the link or its removal under the typed label; and under a
conversation turn it is a link only when the label is not `same_as`. -/
theorem changeLink_ok (done : changeLink engine block fromId toId relation create forced = .ok after) :
    relationRegistered engine.graph block relation = true ∧
      (after = block ∨
        after = block.pushAll [.mergeProposed fromId toId .agent none] ∨
        (relation = .sameAs → block.authority ≠ .platform) ∧
          ∃ linkedFrom linkedTo,
            ((linkedFrom = fromId ∧ linkedTo = toId) ∨
              (linkedFrom = classWriteTarget engine.graph block fromId ∧
                linkedTo = classWriteTarget engine.graph block toId)) ∧
            ((∃ visibility, after = block.pushAll
                [.linkCreated linkedFrom linkedTo relation (linkSource block) (some block.teller)
                  block.toldIn visibility]) ∨
              after = block.pushAll [.linkRemoved linkedFrom linkedTo relation])) := by
  simp only [changeLink, bind_eq_ok, exists_const, refuseIf_ok, Bool.not_eq_false] at done
  obtain ⟨registered, done⟩ := done
  refine ⟨registered, ?_⟩
  split at done
  · simp only [bind_eq_ok, exists_checked] at done
    obtain ⟨_, done⟩ := done
    split at done
    · split at done
      · exact .inr (.inl (proposeMerge_ok done))
      · cases done
    · rename_i agent
      split at done
      · exact .inr (.inl (proposeMerge_ok done))
      · rcases writeLink_ok done with same | linked
        · exact .inl same
        · exact .inr (.inr ⟨fun _ => by simp [agent], fromId, toId, .inl ⟨rfl, rfl⟩, linked⟩)
    · rename_i operator
      rcases writeLink_ok done with same | linked
      · exact .inl same
      · exact .inr (.inr ⟨fun _ => by simp [operator], fromId, toId, .inl ⟨rfl, rfl⟩, linked⟩)
  · rename_i other
    rcases writeLink_ok done with same | linked
    · exact .inl same
    · exact .inr (.inr ⟨fun same => absurd same other, _, _, .inr ⟨rfl, rfl⟩, linked⟩)

theorem link_ok {opts : LinkOptions}
    (done : link engine block fromId toId relation opts = .ok after) :
    ∃ forced, changeLink engine block fromId toId relation true forced = .ok after := by
  obtain ⟨forced, _, changed⟩ := bind_eq_ok.mp done
  exact ⟨forced, changed⟩

theorem unlink_ok (done : unlink engine block fromId toId relation = .ok after) :
    ∃ unlinkedFrom unlinkedTo,
      after = block.pushAll [.linkRemoved unlinkedFrom unlinkedTo relation] := by
  simp only [unlink, changeLink, bind_eq_ok, writeLink, Bool.false_eq_true, if_false, false_and] at done
  obtain ⟨_, _, done⟩ := done
  split at done
  · simp only [bind_eq_ok, exists_checked] at done
    obtain ⟨_, done⟩ := done
    split at done
    · cases done
    · exact ⟨fromId, toId, (Except.ok.inj done).symm⟩
    · exact ⟨fromId, toId, (Except.ok.inj done).symm⟩
  · exact ⟨_, _, (Except.ok.inj done).symm⟩

end Buffered

end MemoryBlock

end Zuihitsu
