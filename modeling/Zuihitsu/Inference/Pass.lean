/-
# Link inference

The pass that makes links of what is told. For each memory that was written to it takes
a snapshot, asks the model, and reads the reply as relation types to register and as
sentences. All that comes of it is appended once, at the end, and folds over the graph
as it is by then.
-/

import Zuihitsu.Core.Text
import Zuihitsu.Graph.Applicable
import Zuihitsu.Graph.Relabelling

namespace Zuihitsu.Inference

open Zuihitsu.Core Zuihitsu.Graph Zuihitsu.Library

/-! ### Replies -/

/-- A relation type the model coins. -/
structure NewRelationSpec where
  name : String
  inverse : String
  fromCard : String
  toCard : String
  symmetric : Bool
  reflexive : Bool
  description : String := ""

/-- A sentence, subject, relation and object, with the number of the statement it is from. -/
structure InferredLink where
  entry : Nat
  subject : String
  relation : String
  object : String

/-- A reply. -/
structure LinkInferenceArgs where
  newRelations : List NewRelationSpec := []
  links : List InferredLink := []

/-- What asking the model comes to: it fails, no reply of it is usable, or one is. -/
inductive Reply where
  | failed
  | unusable
  | args (args : LinkInferenceArgs)

/-! ### What one memory's reply is read against -/

/-- The links at a memory, both of whose ends are live. -/
def linksOf (graph : Graph) (id : MemoryId) : List LinkRow :=
  graph.links.rows.filter fun link =>
    (link.fromId = id || link.toId = id) && (graph.liveRow link.fromId).isSome &&
      (graph.liveRow link.toId).isSome

/-- The registered relations, by name. -/
def allRelations (graph : Graph) : List RelationRow :=
  graph.relations.rows.insertionSort fun first second => first.name.text ≤ second.name.text

/-- The snapshot of one memory. -/
structure InferenceContext where
  memory : MemoryView
  entries : List EntryView
  existingLinks : List LinkRow
  relations : List RelationRow

/-- The snapshot the pass takes of a memory, if it is live and something public is told of it. -/
def contextOf (graph : Graph) (id : MemoryId) : Option InferenceContext :=
  (graph.memoryById id).bind fun memory =>
    let publicEntries := (graph.classEntries id).filter (·.visibility = .public)
    if publicEntries.isEmpty then none
    else
      some
        { memory, entries := publicEntries, existingLinks := linksOf graph id,
          relations := allRelations graph }

/-- The relations a reply's sentences may use, with their inverses: the registered ones, and
those it proposes under new names. -/
def usableRelations (context : InferenceContext) (specs : List NewRelationSpec) :
    List (String × String) :=
  specs.foldl (fun usable spec =>
    let label := asciiLowercase spec.name
    if usable.any (·.1 = label) then usable else usable ++ [(label, asciiLowercase spec.inverse)])
    (context.relations.map fun row => (row.name.text, row.inverse.text))

/-- The registration of a proposed relation. The identity relation, one that is registered,
and one whose cardinalities do not parse are dropped. -/
def registration (context : InferenceContext) (spec : NewRelationSpec) : Option EventPayload :=
  let label := asciiLowercase spec.name
  if label = RelationName.sameAs.text then none
  else if context.relations.any (·.name.text = label) then none
  else
    (Cardinality.parse spec.fromCard).bind fun fromCard =>
      (Cardinality.parse spec.toCard).map fun toCard =>
        .linkTypeRegistered ⟨label⟩ ⟨asciiLowercase spec.inverse⟩ fromCard toCard spec.symmetric
          spec.reflexive spec.description

/-- The first usable relation a label is of, and whether it is the inverse of it. -/
def usableLabel (usable : List (String × String)) (label : String) : Option (String × Bool) :=
  usable.findSome? fun (name, inverse) =>
    if label = name then some (name, false)
    else if label = inverse then some (name, true)
    else none

/-- What a sentence names beside the memory, which has to stand on exactly one end of it. -/
def targetLabel (name : MemoryName) (link : InferredLink) : Option String :=
  match decide (link.subject = name.text), decide (link.object = name.text) with
  | true, false => some link.object
  | false, true => some link.subject
  | _, _ => none

/-- A sentence that is taken: its ends and label as it gives them, and the relation it is
linked under, with the ends turned where its label is that relation's inverse. -/
structure LinkDraft where
  subject : MemoryId
  label : RelationName
  object : MemoryId
  relation : RelationName
  viaInverse : Bool
  visibility : Visibility

/-- The ends a taken sentence is linked with. -/
def LinkDraft.fromId (draft : LinkDraft) : MemoryId :=
  if draft.viaInverse then draft.object else draft.subject

def LinkDraft.toId (draft : LinkDraft) : MemoryId :=
  if draft.viaInverse then draft.subject else draft.object

/-- The link of a taken sentence. -/
def LinkDraft.event (draft : LinkDraft) : EventPayload :=
  .linkCreated draft.fromId draft.toId draft.relation .inferred none none draft.visibility

/-- Whether the snapshot has a link of the very ends and relation. -/
def InferenceContext.has (context : InferenceContext) (draft : LinkDraft) : Bool :=
  context.existingLinks.any fun existing =>
    existing.fromId = draft.fromId && existing.toId = draft.toId && existing.relation = draft.relation

/-- The visibility of the statement a sentence is from. -/
def sourceVisibility (context : InferenceContext) (link : InferredLink) : Visibility :=
  if link.entry = 0 then .public
  else ((context.entries[link.entry - 1]?).map (·.visibility)).getD .public

/-- A sentence with its handles resolved, the memory the reply is about on one of its ends. -/
def sentenceDraft (id : MemoryId) (context : InferenceContext) (link : InferredLink)
    (target : MemoryId) (canonical : String) (viaInverse : Bool) : LinkDraft where
  subject := if link.subject = context.memory.name.text then id else target
  label := ⟨asciiLowercase link.relation⟩
  object := if link.subject = context.memory.name.text then target else id
  relation := ⟨canonical⟩
  viaInverse := viaInverse
  visibility := sourceVisibility context link

/-- What is made of a sentence of a reply about a memory, over the graph as it is once the
reply is there. -/
def draftLink (id : MemoryId) (context : InferenceContext) (usable : List (String × String))
    (graph : Graph) (link : InferredLink) : Option LinkDraft :=
  let label := asciiLowercase link.relation
  -- an identity is not the pass's to propose
  if label = RelationName.sameAs.text then none
  else
    (usableLabel usable label).bind fun (canonical, viaInverse) =>
      (targetLabel context.memory.name link).bind fun target =>
        (graph.memoryByName ⟨target⟩).bind fun memory =>
          let draft := sentenceDraft id context link memory.id canonical viaInverse
          if context.has draft then none else some draft

/-! ### The pass -/

/-- What the pass reads for one memory: the graph of its snapshot, the reply, and the graph
its sentences' handles are resolved over. -/
structure Reading where
  id : MemoryId
  seen : Graph
  reply : Reply
  resolving : Graph

/-- The registrations a reply makes. -/
def Reading.registrations (reading : Reading) : List EventPayload :=
  match contextOf reading.seen reading.id, reading.reply with
  | some context, .args args => args.newRelations.filterMap (registration context)
  | _, _ => []

/-- The sentences of a reply that are taken. -/
def Reading.drafts (reading : Reading) : List LinkDraft :=
  match contextOf reading.seen reading.id, reading.reply with
  | some context, .args args =>
    args.links.filterMap
      (draftLink reading.id context (usableRelations context args.newRelations) reading.resolving)
  | _, _ => []

/-- The events of one memory: the record of the inference, unless there was nothing to ask
about or the model failed, the registrations, and the links. -/
def Reading.events (reading : Reading) : List EventPayload :=
  match contextOf reading.seen reading.id, reading.reply with
  | none, _ | _, .failed => []
  | some _, _ =>
    .linksInferred reading.id ::
      (reading.registrations ++ reading.drafts.map LinkDraft.event)

/-- What the pass appends for what it reads, memory by memory. -/
def inferLinks (readings : List Reading) : List EventPayload :=
  readings.flatMap Reading.events

/-- A graph moves on by events of other writers. -/
def Evolves (before after : Graph) : Prop := ∃ events, Trace Folds before events after

/-- The pass reads one memory after the other while other writers fold events: before a
snapshot, between it and the reading of the reply, and before the pass appends. -/
inductive Observes : Graph → List Reading → Graph → Prop
  | done {before after : Graph} (last : Evolves before after) : Observes before [] after
  | reads {before after : Graph} {reading : Reading} {readings : List Reading}
      (first : Evolves before reading.seen) (asked : Evolves reading.seen reading.resolving)
      (rest : Observes reading.resolving readings after) : Observes before (reading :: readings) after

/-- The pass reads a graph that nobody else writes to. -/
def still (graph : Graph) (replies : List (MemoryId × Reply)) : List Reading :=
  replies.map fun (id, reply) => ⟨id, graph, reply, graph⟩

theorem still_observes {graph : Graph} {replies : List (MemoryId × Reply)} :
    Observes graph (still graph replies) graph := by
  have stays : Evolves graph graph := ⟨[], .nil graph⟩
  induction replies with
  | nil => exact .done stays
  | cons reply rest ih => exact .reads stays stays ih

end Zuihitsu.Inference
