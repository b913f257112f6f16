/-
# The vector index and its batches

The index keeps one vector for each thing it can find: a memory's description, an
entry, and an entry under its memory's name. A batch of events is planned into one
operation for each vector, the last one an event asks for, and its texts are embedded
before anything is written. A text of white space alone is not embedded, and what it
was to replace stays. The main lemma says what a batch makes of each vector.
-/

import Mathlib.Data.List.Induction
import Zuihitsu.Core.Text
import Zuihitsu.Library.Cursor
import Zuihitsu.Library.Table

namespace Zuihitsu.Search

open Zuihitsu.Core Zuihitsu.Library Zuihitsu.Library.Cursor

/-! ### The index -/

/-- What a vector represents. -/
inductive VectorKey where
  | description (id : MemoryId)
  | entry (id : EntryId)
  | entryContextual (id : EntryId)
  deriving DecidableEq, Repr

/-- A stored vector, stamped with the model that made it. -/
structure VectorRecord (ε : Type) where
  id : VectorKey
  embedding : ε
  modelId : String
  deriving DecidableEq, Repr

/-- The vectors, and the position of the last event indexed. -/
structure VectorIndex (ε : Type) where
  vectors : Table (VectorRecord.id (ε := ε)) := .empty
  cursor : Nat := 0

/-- The embedding model, a function of the text. -/
structure Embedder (ε : Type) where
  embed : String → ε
  modelId : String

/-! ### Planning a batch -/

/-- One vector's change before embedding. -/
inductive Pending where
  | embed (text : String)
  | remove
  deriving DecidableEq, Repr

/-- One vector's change after embedding. -/
inductive ResolvedOp (ε : Type) where
  | upsert (record : VectorRecord ε)
  | remove (id : VectorKey)

/-- The changes of a batch, and the last position it covers. -/
structure Batch (ε : Type) where
  ops : List (ResolvedOp ε)
  lastSeq : Option Nat

/-- A text with nothing in it but white space. -/
def isBlank (text : String) : Bool := text.toList.all isWhiteSpace

/-- An entry's text under its memory's name. -/
def contextualText (handle : MemoryName) (text : String) : String := handle.text ++ ": " ++ text

/-- Both vectors of an entry, dropped. -/
def removals (entry : EntryId) : List (VectorKey × Pending) :=
  [(.entry entry, .remove), (.entryContextual entry, .remove)]

/-- The operations an event asks for, in order. -/
def planned (resolver : MemoryId → Option MemoryName) (event : Event) :
    List (VectorKey × Pending) :=
  match event.payload with
  | .memoryContentAppended id entryId _ _ text _ _ _ =>
    (.entry entryId, .embed text) ::
      match resolver id with
      | some name => [(.entryContextual entryId, .embed (contextualText name text))]
      | none => []
  | .memoryDescriptionRegenerated id newText _ => [(.description id, .embed newText)]
  | .memoryDeleted id => [(.description id, .remove)]
  | .memorySuperseded _ entry _ => removals entry
  | .entryRetracted _ entry _ _ => removals entry
  | .entriesConsolidated _ sources _ _ => sources.flatMap removals
  | _ => []

/-- One operation for each vector, the last one asked for. -/
def pendingOps (resolver : MemoryId → Option MemoryName) (events : List Event) :
    Table (Prod.fst : VectorKey × Pending → VectorKey) :=
  (events.flatMap (planned resolver)).foldl Table.insertOrReplace .empty

/-- The vector of a text, if it is not blank. -/
def vectorOf {ε : Type} (embedder : Embedder ε) (key : VectorKey) (text : String) :
    Option (VectorRecord ε) :=
  if isBlank text then none else some ⟨key, embedder.embed text, embedder.modelId⟩

/-- The write an operation asks for: a blank text asks for none. -/
def resolvedUpsert {ε : Type} (embedder : Embedder ε) :
    VectorKey × Pending → Option (ResolvedOp ε)
  | (key, .embed text) => (vectorOf embedder key text).map .upsert
  | (_, .remove) => none

/-- The removal an operation asks for. -/
def resolvedRemoval {ε : Type} : VectorKey × Pending → Option (ResolvedOp ε)
  | (key, .remove) => some (.remove key)
  | (_, .embed _) => none

/-- Embed what a stretch of log records, the index untouched. -/
def embedBatch {ε : Type} (embedder : Embedder ε) (events : List Event)
    (resolver : MemoryId → Option MemoryName) : Batch ε :=
  let ops := pendingOps resolver events
  { ops := ops.rows.filterMap (resolvedUpsert embedder) ++ ops.rows.filterMap resolvedRemoval
    lastSeq := events.getLast?.map (·.seq) }

/-- One resolved operation. -/
def applyOp {ε : Type} (vectors : Table (VectorRecord.id (ε := ε))) :
    ResolvedOp ε → Table (VectorRecord.id (ε := ε))
  | .upsert record => vectors.insertOrReplace record
  | .remove id => vectors.delete fun record => record.id = id

/-- Apply an embedded batch, and the cursor last. -/
def applyBatch {ε : Type} (index : VectorIndex ε) (batch : Batch ε) : VectorIndex ε where
  vectors := batch.ops.foldl applyOp index.vectors
  cursor := batch.lastSeq.getD index.cursor

/-! ### What a batch makes of a vector -/

/-- The last operation an event asks for on a vector. -/
def wordOn (resolver : MemoryId → Option MemoryName) (key : VectorKey) (event : Event) :
    Option Pending :=
  ((planned resolver event).reverse.find? fun op => op.1 = key).map (·.2)

/-- The vector an operation is on. -/
def ResolvedOp.key {ε : Type} : ResolvedOp ε → VectorKey
  | .upsert record => record.id
  | .remove id => id

/-- What an operation leaves of its vector. -/
def ResolvedOp.outcome {ε : Type} : ResolvedOp ε → Option (VectorRecord ε)
  | .upsert record => some record
  | .remove _ => none

section Batches

variable {ε : Type} {embedder : Embedder ε} {resolver : MemoryId → Option MemoryName}
variable {events : List Event} {key : VectorKey} {pending : Pending} {op : ResolvedOp ε}

theorem find_applyOp (vectors : Table (VectorRecord.id (ε := ε))) (op : ResolvedOp ε)
    (key : VectorKey) :
    (applyOp vectors op).find key = if op.key = key then op.outcome else vectors.find key := by
  cases op with
  | upsert record => exact Table.find_insertOrReplace vectors record key
  | remove id => exact Table.find_delete_key id key

theorem find_applyOps {ops : List (ResolvedOp ε)} {outcome : Option (VectorRecord ε)}
    (agree : ∀ op ∈ ops, op.key = key → op.outcome = outcome)
    (vectors : Table (VectorRecord.id (ε := ε))) :
    (ops.foldl applyOp vectors).find key =
      if ∃ op ∈ ops, op.key = key then outcome else vectors.find key := by
  induction ops using List.reverseRecOn with
  | nil => simp
  | append_singleton ops last ih =>
    rw [List.foldl_append, List.foldl_cons, List.foldl_nil, find_applyOp,
      ih fun op member => agree op (List.mem_append_left _ member)]
    by_cases here : last.key = key
    · have present : ∃ op ∈ ops ++ [last], op.key = key := ⟨last, by simp, here⟩
      rw [if_pos here, if_pos present]
      exact agree last (by simp) here
    · have same : (∃ op ∈ ops ++ [last], op.key = key) ↔ ∃ op ∈ ops, op.key = key := by
        simp [here]
      rw [if_neg here]
      simp only [same]

theorem find_pendingOps :
    (pendingOps resolver events).find key =
      (lastWord (wordOn resolver key) events).map fun pending => (key, pending) := by
  have named : ∀ ops : List (VectorKey × Pending), (ops.find? fun op => op.1 = key) =
      ((ops.find? fun op => op.1 = key).map (·.2)).map fun pending => (key, pending) := by
    intro ops
    cases found : ops.find? fun op => op.1 = key with
    | none => rfl
    | some op =>
      have same : op.1 = key := by simpa using List.find?_some found
      rw [← same]
      rfl
  rw [pendingOps, Table.find_replaceAll, named]
  have empty : (Table.empty : Table (Prod.fst : VectorKey × Pending → VectorKey)).find key = none :=
    rfl
  rw [List.reverse_flatMap, List.find?_flatMap, List.map_findSome?, empty, Option.or_none]
  rfl

theorem resolved_key {row : VectorKey × Pending}
    (resolved : resolvedUpsert embedder row = some op ∨ resolvedRemoval row = some op) :
    op.key = row.1 := by
  obtain ⟨key, pending⟩ := row
  cases pending with
  | embed =>
    rcases resolved with upserted | removed
    · obtain ⟨record, made, rfl⟩ := Option.map_eq_some_iff.mp upserted
      unfold vectorOf at made
      split at made
      · cases made
      · cases made
        rfl
    · cases removed
  | remove =>
    rcases resolved with upserted | removed
    · cases upserted
    · cases removed
      rfl

theorem mem_embedBatch_ops :
    op ∈ (embedBatch embedder events resolver).ops ∧ op.key = key ↔
      ∃ pending, lastWord (wordOn resolver key) events = some pending ∧
        (resolvedUpsert embedder (key, pending) = some op ∨
          resolvedRemoval (key, pending) = some op) := by
  have pended (pending : Pending) : (key, pending) ∈ pendingOps resolver events ↔
      lastWord (wordOn resolver key) events = some pending := by
    have found := @Table.find_eq_some_iff _ _ _ _ (pendingOps resolver events) key (key, pending)
    rw [find_pendingOps, Option.map_eq_some_iff] at found
    simpa using found.symm
  simp only [embedBatch, List.mem_append, List.mem_filterMap]
  constructor
  · rintro ⟨resolved, same⟩
    have source : ∃ row ∈ pendingOps resolver events,
        resolvedUpsert embedder row = some op ∨ resolvedRemoval row = some op := by
      rcases resolved with ⟨row, member, upserted⟩ | ⟨row, member, removed⟩
      · exact ⟨row, member, .inl upserted⟩
      · exact ⟨row, member, .inr removed⟩
    obtain ⟨⟨named, pending⟩, member, resolved⟩ := source
    have here : named = key := (resolved_key resolved).symm.trans same
    subst here
    exact ⟨pending, (pended pending).mp member, resolved⟩
  · rintro ⟨pending, word, resolved⟩
    refine ⟨?_, resolved_key resolved⟩
    rcases resolved with upserted | removed
    · exact .inl ⟨_, (pended pending).mpr word, upserted⟩
    · exact .inr ⟨_, (pended pending).mpr word, removed⟩

theorem find_applyBatch (index : VectorIndex ε) :
    (applyBatch index (embedBatch embedder events resolver)).vectors.find key =
      match lastWord (wordOn resolver key) events with
      | none => index.vectors.find key
      | some .remove => none
      | some (.embed text) => (vectorOf embedder key text).or (index.vectors.find key) := by
  have untouched (absent : ¬∃ op ∈ (embedBatch embedder events resolver).ops, op.key = key) :
      (applyBatch index (embedBatch embedder events resolver)).vectors.find key =
        index.vectors.find key := by
    have agree : ∀ op ∈ (embedBatch embedder events resolver).ops, op.key = key →
        op.outcome = none := fun op member same => absurd ⟨op, member, same⟩ absent
    rw [applyBatch, find_applyOps agree, if_neg absent]
  have settled (outcome : Option (VectorRecord ε)) (only : ResolvedOp ε)
      (there : only ∈ (embedBatch embedder events resolver).ops ∧ only.key = key)
      (agree : ∀ op, op ∈ (embedBatch embedder events resolver).ops ∧ op.key = key →
        op.outcome = outcome) :
      (applyBatch index (embedBatch embedder events resolver)).vectors.find key = outcome := by
    rw [applyBatch, find_applyOps (fun op member same => agree op ⟨member, same⟩),
      if_pos ⟨only, there⟩]
  cases word : lastWord (wordOn resolver key) events with
  | none =>
    refine untouched ?_
    rintro ⟨op, there⟩
    obtain ⟨pending, some', _⟩ := mem_embedBatch_ops.mp there
    rw [word] at some'
    cases some'
  | some pending =>
    have resolved (op : ResolvedOp ε) : op ∈ (embedBatch embedder events resolver).ops ∧
        op.key = key ↔ resolvedUpsert embedder (key, pending) = some op ∨
          resolvedRemoval (key, pending) = some op := by
      rw [mem_embedBatch_ops, word]
      simp
    cases pending with
    | remove =>
      refine settled none (.remove key) ((resolved _).mpr (.inr rfl)) fun op there => ?_
      rcases (resolved op).mp there with upserted | removed
      · cases upserted
      · cases removed
        rfl
    | embed text =>
      simp only [resolvedUpsert, resolvedRemoval, reduceCtorEq, or_false] at resolved
      dsimp only
      cases made : vectorOf embedder key text with
      | none =>
        refine untouched ?_
        rintro ⟨op, there⟩
        have impossible := (resolved op).mp there
        rw [made] at impossible
        cases impossible
      | some record =>
        refine settled (some record) (.upsert record) ((resolved _).mpr (by rw [made]; rfl))
          fun op there => ?_
        have only := (resolved op).mp there
        rw [made] at only
        cases only
        rfl

end Batches

end Zuihitsu.Search
