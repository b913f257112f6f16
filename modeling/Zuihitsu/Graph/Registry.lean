/-
# The relation registry

Which relation a label means, by the registrations folded so far. A link is
checked against the registry when it is buffered and stored by the registry it
meets when it folds, so both are read off the same table and list of events here.
-/

import Zuihitsu.Graph.Reachable

namespace Zuihitsu.Graph

open Zuihitsu.Core Zuihitsu.Library

theorem name_registeredOver (inverse : RelationName) (fromCard toCard : Cardinality)
    (symmetric reflexive : Bool) (description : String) (old : RelationRow) :
    RelationRow.name { name := old.name, inverse, fromCard, toCard, symmetric, reflexive, description } =
      old.name :=
  rfl

/-- The registry after an event. -/
def registryAfter (relations : Table RelationRow.name) : EventPayload → Table RelationRow.name
  | .linkTypeRegistered name inverse fromCard toCard symmetric reflexive description =>
    relations.upsert { name, inverse, fromCard, toCard, symmetric, reflexive, description }
      (fun old => { name := old.name, inverse, fromCard, toCard, symmetric, reflexive, description })
      (name_registeredOver inverse fromCard toCard symmetric reflexive description)
  | _ => relations

/-- Whether a relation carries a label, as its name or as its inverse. -/
def RelationRow.carries (label : RelationName) (row : RelationRow) : Bool :=
  row.name = label || row.inverse = label

/-- Whether a registry knows a label. -/
def resolvesLabel (relations : Table RelationRow.name) (label : RelationName) : Bool :=
  relations.rows.any (RelationRow.carries label)

/-- The relation a label is stored under. -/
def canonicalLabel (relations : Table RelationRow.name) (label : RelationName) : RelationName :=
  ((relations.rows.find? (RelationRow.carries label)).map (·.name)).getD label

/-- The label an event links or unlinks under. -/
def linkLabel : EventPayload → Option RelationName
  | .linkCreated _ _ label .. | .linkRemoved _ _ label => some label
  | _ => none

/-- Whether an event designates or releases a class's primary. -/
def designatesPrimary : EventPayload → Bool
  | .classPrimaryDesignated .. => true
  | _ => false

section Registry

variable {event : Event} {before after : Graph} {recordedAt : Timestamp} {source : EventSource}
variable {payloads : List EventPayload}

theorem relations_apply (applied : apply event before = .ok after) :
    after.relations = registryAfter before.relations event.payload := by
  rw [apply_relations applied]
  cases payload : event.payload <;> simp only [relationsAfter, registryAfter, payload]

theorem relations_commit (committed : commit recordedAt source payloads before = .ok after) :
    after.relations = payloads.foldl registryAfter before.relations := by
  induction payloads generalizing before with
  | nil =>
    cases committed
    rfl
  | cons payload rest ih =>
    obtain ⟨middle, applied, remaining⟩ := commit_cons_ok.mp committed
    rw [ih remaining, relations_apply applied, List.foldl_cons]

theorem canonicalEdge_label (graph : Graph) (fromId toId : MemoryId) (label : RelationName) :
    (canonicalEdge graph fromId toId label).2.2 = canonicalLabel graph.relations label := by
  unfold canonicalEdge canonicalLabel RelationRow.carries
  cases graph.relations.rows.find? fun row => row.name = label || row.inverse = label with
  | none => rfl
  | some =>
    dsimp only
    split
    · split <;> rfl
    · split <;> rfl

theorem canonicalEdge_ends (graph : Graph) (fromId toId : MemoryId) (label : RelationName) :
    let edge := canonicalEdge graph fromId toId label
    (edge.1 = fromId ∧ edge.2.1 = toId) ∨ (edge.1 = toId ∧ edge.2.1 = fromId) := by
  unfold canonicalEdge
  cases graph.relations.rows.find? fun row => row.name = label || row.inverse = label with
  | none => exact .inl ⟨rfl, rfl⟩
  | some =>
    dsimp only
    split
    · split
      · exact .inl ⟨rfl, rfl⟩
      · exact .inr ⟨rfl, rfl⟩
    · split
      · exact .inl ⟨rfl, rfl⟩
      · exact .inr ⟨rfl, rfl⟩

theorem contains_canonicalLabel {relations : Table RelationRow.name} {label : RelationName}
    (known : resolvesLabel relations label = true) :
    relations.contains (canonicalLabel relations label) = true := by
  obtain ⟨row, member, carries⟩ := List.any_eq_true.mp known
  unfold canonicalLabel
  cases found : relations.rows.find? (RelationRow.carries label) with
  | none => exact absurd carries (List.find?_eq_none.mp found row member)
  | some => exact Table.contains_of_mem (List.mem_of_find?_eq_some found)

theorem recomputes_eq (event : Event) (before : Graph) :
    recomputes event before =
      (designatesPrimary event.payload ||
        (linkLabel event.payload).any fun label =>
          canonicalLabel before.relations label = .sameAs) := by
  cases payload : event.payload <;>
    simp only [recomputes, writesSameAs, designatesPrimary, linkLabel, payload, canonicalEdge_label,
      Option.any_some, Option.any_none, Bool.true_or, Bool.false_or]

end Registry

end Zuihitsu.Graph
