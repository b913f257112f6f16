/-
# What a conversation turn does to the identity classes

A turn proposes merges and never makes one: the guard of a link turns a typed
`same_as` into a proposal. The fold goes by the relation the label means, and a
turn may register labels. The main result says that this is the only way: as long
as no link is written under another label that the registry resolves to `same_as`,
the commit of a turn leaves every class as it was.
-/

import Zuihitsu.Block.Operations
import Zuihitsu.Block.Standing
import Zuihitsu.Graph.Classes
import Zuihitsu.Graph.Genesis

namespace Zuihitsu

open Zuihitsu.Core Zuihitsu.Graph Zuihitsu.Library Zuihitsu.MemoryBlock

/-! ### The class column through a commit -/

namespace Graph

/-- The stored class of a memory, deleted or not. -/
def classColumn (graph : Graph) (id : MemoryId) : Option MemoryId :=
  (graph.memoryRow id).map (·.classId)

/-- The memories of a graph are partitioned into the same classes by another one. -/
def SamePartition (before after : Graph) : Prop :=
  ∀ first second, before.memories.contains first = true → before.memories.contains second = true →
    (after.classColumn first = after.classColumn second ↔
      before.classColumn first = before.classColumn second)

section Column

variable {event : Event} {before after : Graph} {id : MemoryId}

theorem classColumn_apply (applied : apply event before = .ok after)
    (kept : recomputes event before = false) (known : before.memories.contains id = true) :
    after.classColumn id = before.classColumn id := by
  have found := Table.find_isSome_iff.mpr (Table.contains_iff.mp known)
  obtain ⟨row, found⟩ := Option.isSome_iff_exists.mp found
  have here : before.memoryRow id = some row := found
  simp only [classColumn, memoryRow_apply applied, here, Option.map_some, Option.some_or]
  rw [memoryChange, kept]
  exact congrArg some (memoryColumns_classId event row)

end Column

end Graph

/-! ### What a turn buffers -/

/-- Whether an event neither links, unlinks nor designates. -/
def sparesClasses (payload : EventPayload) : Bool :=
  (linkLabel payload).isNone && !designatesPrimary payload

theorem recomputes_of_sparesClasses {event : Event} {before : Graph}
    (spares : sparesClasses event.payload = true) : recomputes event before = false := by
  simp only [sparesClasses, Bool.and_eq_true, Option.isNone_iff_eq_none, Bool.not_eq_true'] at spares
  rw [recomputes_eq, spares.1, spares.2]
  rfl

theorem classColumn_commit {recordedAt : Timestamp} {source : EventSource}
    {payloads : List EventPayload} {before after : Graph} {id : MemoryId}
    (committed : commit recordedAt source payloads before = .ok after)
    (spares : ∀ payload ∈ payloads, sparesClasses payload = true)
    (known : before.memories.contains id = true) :
    after.classColumn id = before.classColumn id := by
  have through : after.memories.contains id = true ∧ after.classColumn id = before.classColumn id :=
    commit_induction
      (motive := fun graph => graph.memories.contains id = true ∧
        graph.classColumn id = before.classColumn id)
      (fun payload member _ _ applied ⟨there, same⟩ =>
        ⟨contains_memory_apply there applied,
          (classColumn_apply applied (recomputes_of_sparesClasses (spares payload member)) there).trans
            same⟩)
      committed ⟨known, rfl⟩
  exact through.2

/-- The label an operation links or unlinks under. -/
def operationLabel : Operation → Option RelationName
  | .link _ _ label _ | .unlink _ _ label => some label
  | _ => none

/-- The operations a conversation turn may call: the designation of a primary is the
console's, and links are only moved onto a primary by the sweep. -/
def isTurnWrite : Operation → Bool
  | .designatePrimary .. | .rehomeLink .. => false
  | _ => true

section Turn

variable {graph : Graph} {block after : MemoryBlock} {call : Timestamp × Operation}

theorem changeLink_spares {engine : Engine} {fromId toId : MemoryId} {label : RelationName}
    {create : Bool} {forced : Option ForcedVisibility} (platform : block.authority = .platform)
    (done : changeLink engine block fromId toId label create forced = .ok after) :
    ∃ events, Buffers block events after ∧
      ((∀ payload ∈ events, sparesClasses payload = true) ∨
        label ≠ .sameAs ∧ ∃ payload, events = [payload] ∧ designatesPrimary payload = false ∧
          linkLabel payload = some label) := by
  obtain ⟨_, rfl | rfl | ⟨unguarded, linkedFrom, linkedTo, _, linked⟩⟩ := changeLink_ok done
  · exact ⟨[], buffers_self, .inl (by simp)⟩
  · exact ⟨_, buffers_pushAll, .inl (by simp [sparesClasses, designatesPrimary, linkLabel])⟩
  · have other : label ≠ .sameAs := fun same => unguarded same platform
    rcases linked with ⟨visibility, rfl⟩ | rfl
    · exact ⟨_, buffers_pushAll, .inr ⟨other, _, rfl, rfl, rfl⟩⟩
    · exact ⟨_, buffers_pushAll, .inr ⟨other, _, rfl, rfl, rfl⟩⟩

theorem sparesClasses_of_mayBuffer {op : Operation} {payload : EventPayload}
    (turn : isTurnWrite op = true) (unlinked : operationLabel op = none)
    (kind : op.mayBuffer payload = true) : sparesClasses payload = true := by
  cases op with
  | link | unlink => cases unlinked
  | designatePrimary | rehomeLink => cases turn
  | _ =>
    cases payload with
    | linkCreated | linkRemoved | classPrimaryDesignated => cases kind
    | _ => rfl

theorem call_spares (turn : isTurnWrite call.2 = true) (unlinked : operationLabel call.2 = none)
    (calls : Calls graph block call after) :
    ∃ events, Buffers block events after ∧ ∀ payload ∈ events, sparesClasses payload = true := by
  obtain ⟨events, buffers, kinds⟩ := call_mayBuffer calls
  exact ⟨events, buffers,
    fun payload member => sparesClasses_of_mayBuffer turn unlinked (kinds payload member)⟩

/-! ### Whole turns -/

/-- The registry as it stands when an event buffered next folds. -/
def registryOf (graph : Graph) (block : MemoryBlock) : Table RelationRow.name :=
  block.buffer.foldl registryAfter graph.relations

/-- A call that links and unlinks under no label but `same_as` itself that means it. -/
def TypesSameAs (graph : Graph) (block : MemoryBlock) (op : Operation) : Prop :=
  ∀ label ∈ operationLabel op, canonicalLabel (registryOf graph block) label = .sameAs →
    label = .sameAs

instance (graph : Graph) (block : MemoryBlock) (op : Operation) :
    Decidable (TypesSameAs graph block op) :=
  inferInstanceAs (Decidable (∀ label ∈ operationLabel op, _ → _))

/-- The invariant of a turn: what its buffer leaves has the classes as they were. -/
structure SparesGraph (graph : Graph) (block : MemoryBlock) : Prop where
  platform : block.authority = .platform
  column : ∀ recordedAt source left, commit recordedAt source block.buffer graph = .ok left →
    ∀ id, graph.memories.contains id = true → left.classColumn id = graph.classColumn id

theorem SparesGraph.step (spares : SparesGraph graph block) (turn : isTurnWrite call.2 = true)
    (typed : TypesSameAs graph block call.2) (calls : Calls graph block call after) :
    SparesGraph graph after := by
  have buffered : ∃ events, Buffers block events after ∧
      ((∀ payload ∈ events, sparesClasses payload = true) ∨
        ∃ payload label, events = [payload] ∧ designatesPrimary payload = false ∧
          linkLabel payload = some label ∧
          canonicalLabel (registryOf graph block) label ≠ .sameAs) := by
    cases linking : operationLabel call.2 with
    | none =>
      obtain ⟨events, buffers, quiet⟩ := call_spares turn linking calls
      exact ⟨events, buffers, .inl quiet⟩
    | some label =>
      have changed : ∃ fromId toId create forced,
          changeLink ⟨graph, call.1⟩ block fromId toId label create forced = .ok after := by
        obtain ⟨now, op⟩ := call
        cases op <;> cases linking
        · obtain ⟨forced, changed⟩ := link_ok calls
          exact ⟨_, _, _, forced, changed⟩
        · exact ⟨_, _, _, _, calls⟩
      obtain ⟨_, _, _, _, changed⟩ := changed
      obtain ⟨events, buffers, quiet | ⟨other, payload, single, undesignated, linked⟩⟩ :=
        changeLink_spares spares.platform changed
      · exact ⟨events, buffers, .inl quiet⟩
      · exact ⟨events, buffers, .inr ⟨payload, label, single, undesignated, linked,
          fun identity => other (typed label linking identity)⟩⟩
  obtain ⟨events, buffers, outcome⟩ := buffered
  refine ⟨?_, fun recordedAt source left done id known => ?_⟩
  · obtain ⟨seeds, rfl⟩ := buffers
    exact spares.platform
  · rw [buffers.buffer] at done
    obtain ⟨middle, first, rest⟩ := commit_append_ok.mp done
    have known' := contains_memory_commit known first
    rw [← spares.column recordedAt source middle first id known]
    rcases outcome with quiet | ⟨payload, label, rfl, undesignated, linked, other⟩
    · exact classColumn_commit rest quiet known'
    · obtain ⟨last, applied, nothing⟩ := commit_cons_ok.mp rest
      cases nothing
      refine classColumn_apply applied ?_ known'
      -- the link folds by the registry the block has left so far
      rw [recomputes_eq, undesignated, linked, relations_commit first]
      unfold registryOf at other
      simpa using other

/-- A turn that commits keeps the partition of the memories that were there, whatever
it calls and in whatever order, as long as it types `same_as` where it means it. -/
theorem turn_keeps_partition (opened : block.buffer = []) (platform : block.authority = .platform)
    {calls : List (Timestamp × Operation)}
    (run : Trace (fun one call other => Calls graph one call other ∧ isTurnWrite call.2 = true ∧
      TypesSameAs graph one call.2) block calls after)
    {recordedAt : Timestamp} {source : EventSource} {left : Graph}
    (done : commit recordedAt source after.buffer graph = .ok left) : SamePartition graph left := by
  have start : SparesGraph graph block := by
    refine ⟨platform, fun recordedAt source left nothing id known => ?_⟩
    rw [opened] at nothing
    cases nothing
    rfl
  have spares : SparesGraph graph after :=
    run.invariant (SparesGraph graph)
      (fun _ _ _ ⟨calls, turn, typed⟩ earlier => earlier.step turn typed calls) start
  intro first second firstKnown secondKnown
  rw [spares.column _ _ left done first firstKnown, spares.column _ _ left done second secondKnown]

end Turn

/-! A new agent knows two people. A turn gives the identity relation a second label,
and links the two under it. -/

namespace SecondLabel

def ines : MemoryId := ⟨2⟩
def jonas : MemoryId := ⟨3⟩

def bornGraph : Graph :=
  ((commit ⟨0⟩ .bootstrap (rollout 1 ⟨1⟩ [(⟨11⟩, "I keep the harbour's notes.")] ⟨0⟩)
    Graph.fresh).toOption).getD Graph.fresh

def metGraph : Graph :=
  ((commit ⟨1⟩ .agent [.memoryCreated ines ⟨"person/ines"⟩, .memoryCreated jonas ⟨"person/jonas"⟩]
    bornGraph).toOption).getD bornGraph

theorem metGraph_reachable : Reachable metGraph := by
  have born : commit ⟨0⟩ .bootstrap (rollout 1 ⟨1⟩ [(⟨11⟩, "I keep the harbour's notes.")] ⟨0⟩)
      Graph.fresh = .ok bornGraph := rfl
  have met : commit ⟨1⟩ .agent
      [.memoryCreated ines ⟨"person/ines"⟩, .memoryCreated jonas ⟨"person/jonas"⟩] bornGraph =
        .ok metGraph := rfl
  exact (Reachable.fresh.commit born).commit met

def turn : MemoryBlock :=
  .open metGraph (.participant ines) .platform none none [ines] 4000

def relabel : RelationSpec :=
  { name := "same_as", inverse := "also_known_as", fromCard := "many", toCard := "many",
    symmetric := true }

/-- Calls with a last one that links the two under a label. -/
def callsUnder (label : RelationName) : List (Timestamp × Operation) :=
  [(⟨2⟩, .registerRelation relabel), (⟨3⟩, .link ines jonas label {})]

def relabelled : MemoryBlock := ((turn.registerRelation relabel).toOption).getD turn

/-- The turn after the link. -/
def linkedUnder (label : RelationName) : MemoryBlock :=
  ((relabelled.link ⟨metGraph, ⟨3⟩⟩ ines jonas label {}).toOption).getD relabelled

/-- The graph the turn leaves. -/
def leftUnder (label : RelationName) : Graph :=
  ((commit ⟨4⟩ .agent (linkedUnder label).buffer metGraph).toOption).getD metGraph

theorem turn_registers :
    Calls metGraph turn (⟨2⟩, .registerRelation relabel) relabelled := rfl

/-- Linked under the new label, the two are one person. -/
theorem second_label_merges :
    Reachable metGraph ∧ turn.buffer = [] ∧ turn.authority = .platform ∧
      (∀ call ∈ callsUnder ⟨"also_known_as"⟩, isTurnWrite call.2 = true) ∧
      Trace (Calls metGraph) turn (callsUnder ⟨"also_known_as"⟩) (linkedUnder ⟨"also_known_as"⟩) ∧
      commit ⟨4⟩ .agent (linkedUnder ⟨"also_known_as"⟩).buffer metGraph =
        .ok (leftUnder ⟨"also_known_as"⟩) ∧
      ¬SamePartition metGraph (leftUnder ⟨"also_known_as"⟩) := by
  refine ⟨metGraph_reachable, rfl, rfl, by decide, ?_, rfl, fun same => ?_⟩
  · have links : Calls metGraph relabelled (⟨3⟩, .link ines jonas ⟨"also_known_as"⟩ {})
        (linkedUnder ⟨"also_known_as"⟩) := rfl
    exact .cons turn_registers (.single links)
  · have merged := (same ines jonas (by decide) (by decide)).mp (by decide)
    revert merged
    decide

/-- Linked under `knows` instead, the general result keeps them apart. -/
theorem turn_keeps_partition_knows : SamePartition metGraph (leftUnder ⟨"knows"⟩) := by
  have links : Calls metGraph relabelled (⟨3⟩, .link ines jonas ⟨"knows"⟩ {})
      (linkedUnder ⟨"knows"⟩) := rfl
  have committed : commit ⟨4⟩ .agent (linkedUnder ⟨"knows"⟩).buffer metGraph =
      .ok (leftUnder ⟨"knows"⟩) := rfl
  have opened : turn.buffer = [] := rfl
  have platform : turn.authority = .platform := rfl
  have registersTyped : TypesSameAs metGraph turn (.registerRelation relabel) := by decide
  have linksTyped : TypesSameAs metGraph relabelled (.link ines jonas ⟨"knows"⟩ {}) := by decide
  exact turn_keeps_partition opened platform
    (.cons ⟨turn_registers, rfl, registersTyped⟩ (.single ⟨links, rfl, linksTyped⟩)) committed

end SecondLabel

end Zuihitsu
