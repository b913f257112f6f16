/-
# Catching the vector index up

Catch-up runs overlap with commits and with each other: a run reads the cursor, then the
events past it, embeds them off every lock, and applies its batch and the cursor. A
stale batch puts the cursor back, and what it undid is read again, unless a run that
read further applies first. The main result says what the index holds once a run comes
to the end of the log alone: the vectors of the live entries and of the current
descriptions, if no endorsement was withdrawn that was an entry's last, none but live
memories were described, and no batch left a vector it should have replaced or skipped
an event another batch had undone.
-/

import Zuihitsu.Describe.Staleness
import Zuihitsu.Graph.Applicable
import Zuihitsu.Graph.Lookup
import Zuihitsu.Graph.Resume
import Zuihitsu.Search.Vectors

namespace Zuihitsu.Search

open Zuihitsu.Core Zuihitsu.Graph Zuihitsu.Library Zuihitsu.Library.Cursor Zuihitsu.Describe

/-! ### Runs -/

/-- A catch-up run between its reads and its write: the cursor it read, the events past
it, and the embedded batch. -/
structure Flight (ε : Type) where
  cursor : Nat
  events : List Event
  batch : Batch ε

/-- The log and its projection, the index, the runs that have read the cursor, and those
that have read the events past it. -/
structure Indexing (ε : Type) where
  log : List Event := []
  graph : Graph := Graph.fresh
  index : VectorIndex ε := {}
  opened : List Nat := []
  flights : List (Flight ε) := []

/-- What happens next: a commit, a run's reads, its write, or its end without one. -/
inductive Act (ε : Type) where
  | commit (event : Event)
  | readCursor
  | readEvents (cursor : Nat)
  | write (flight : Flight ε)
  | fail (flight : Flight ε)

/-- The events from a position on. -/
def readFrom (log : List Event) (position : Nat) : List Event :=
  log.filter fun event => position ≤ event.seq

/-- The reads of a run that found the cursor at a position. -/
def flightFrom {ε : Type} (embedder : Embedder ε) (state : Indexing ε) (cursor : Nat) : Flight ε :=
  let events := readFrom state.log (cursor + 1)
  { cursor
    events
    batch := embedBatch embedder events fun id => (state.graph.memoryById id).map (·.name) }

/-- One step of the runs and of the writers of the log. -/
inductive Steps {ε : Type} (embedder : Embedder ε) : Indexing ε → Act ε → Indexing ε → Prop
  | commit {state : Indexing ε} {event : Event} {graph : Graph}
      (folds : Folds state.graph event graph) :
      Steps embedder state (.commit event)
        { state with log := state.log ++ [event], graph }
  | readCursor (state : Indexing ε) :
      Steps embedder state .readCursor
        { state with opened := state.index.cursor :: state.opened }
  | readEvents {state : Indexing ε} {cursor : Nat} (opened : cursor ∈ state.opened) :
      Steps embedder state (.readEvents cursor)
        { state with
          opened := state.opened.erase cursor
          flights := flightFrom embedder state cursor :: state.flights }
  | write {state : Indexing ε} {flight : Flight ε} {others : List (Flight ε)}
      (reading : state.flights.Perm (flight :: others)) :
      Steps embedder state (.write flight)
        { state with index := applyBatch state.index flight.batch, flights := others }
  | fail {state : Indexing ε} {flight : Flight ε} {others : List (Flight ε)}
      (reading : state.flights.Perm (flight :: others)) :
      Steps embedder state (.fail flight) { state with flights := others }

/-- The index after one more run that nothing else comes between. -/
def caughtUp {ε : Type} (embedder : Embedder ε) (state : Indexing ε) : VectorIndex ε :=
  applyBatch state.index (flightFrom embedder state state.index.cursor).batch

/-- The index is what the projection says: of the memories that are not deleted, the vectors
of the live entries and of the descriptions, blank texts apart. -/
structure Converged {ε : Type} (embedder : Embedder ε) (graph : Graph) (index : VectorIndex ε) :
    Prop where
  entries : ∀ id, (∀ row, graph.entryRow id = some row → (graph.liveRow row.memoryId).isSome) →
    index.vectors.find (.entry id) =
      (graph.entryRow id).bind fun row =>
        if row.supersededBy.isNone then vectorOf embedder (.entry id) row.text else none
  descriptions : ∀ id, index.vectors.find (.description id) =
    (graph.liveRow id).bind fun row => vectorOf embedder (.description id) row.description

/-! ### Which runs converge -/

/-- Whether what is asked for on a vector depends on the events alone. -/
def VectorKey.plain : VectorKey → Bool
  | .entryContextual _ => false
  | _ => true

/-- The last operation an event asks for on a vector, no memory named. -/
def word (key : VectorKey) (event : Event) : Option Pending := wordOn (fun _ => none) key event

/-- The planner sees what an event ends: a withdrawn endorsement that leaves none ends no
indexed entry, and a description with something in it is of a live memory. -/
def Announced (graph : Graph) (event : Event) : Prop :=
  match event.payload with
  | .attestationRetracted _ entry teller _ _ =>
    withdrawsLast graph entry teller = true → ∀ row, graph.entryRow entry = some row →
      row.supersededBy = none → (graph.liveRow row.memoryId).isSome = true →
        isBlank row.text = true
  | .memoryDescriptionRegenerated id newText _ =>
    isBlank newText = true ∨ (graph.liveRow id).isSome = true
  | _ => True

/-- The last position a run has read. -/
def Flight.last {ε : Type} (flight : Flight ε) : Nat :=
  (flight.events.getLast?.map (·.seq)).getD flight.cursor

/-- A run's write leaves nothing behind: unless an event it has not read yet is on it, a
vector whose last text it read is blank is not there, and one it read nothing about is not
one that an event between the cursor and the run's own start is on. -/
def Lands {ε : Type} (state : Indexing ε) (flight : Flight ε) : Prop :=
  ∀ key, key.plain = true → lastWord (word key) (readFrom state.log (flight.last + 1)) = none →
    (∀ text, lastWord (word key) flight.events = some (.embed text) → isBlank text = true →
      state.index.vectors.find key = none) ∧
    (lastWord (word key) flight.events = none →
      ∀ event ∈ state.log, state.index.cursor < event.seq → event.seq ≤ flight.cursor →
        word key event = none)

/-- A step meets the conditions. -/
def Meets {ε : Type} (state : Indexing ε) : Act ε → Prop
  | .commit event => Announced state.graph event
  | .write flight => Lands state flight
  | _ => True

/-! ### What the events ask for -/

/-- What the last word on a vector means for it. -/
def means {ε : Type} (embedder : Embedder ε) (key : VectorKey) :
    Pending → Option (VectorRecord ε)
  | .embed text => vectorOf embedder key text
  | .remove => none

section Words

variable {event : Event} {id : MemoryId} {entry : EntryId}

theorem wordOn_plain {resolver : MemoryId → Option MemoryName} {key : VectorKey}
    (plain : key.plain = true) (event : Event) : wordOn resolver key event = word key event := by
  unfold word wordOn planned
  cases event.payload with
  | memoryContentAppended id entryId assertedAt occurredAt text toldBy toldIn visibility =>
    cases key with
    | entryContextual => cases plain
    | _ => cases named : resolver id <;> simp [named]
  | _ => rfl

theorem mem_removals {sources : List EntryId} {op : VectorKey × Pending} :
    op ∈ sources.flatMap removals ↔ op.2 = .remove ∧ ∃ source ∈ sources,
      op.1 = .entry source ∨ op.1 = .entryContextual source := by
  obtain ⟨key, pending⟩ := op
  simp only [List.mem_flatMap, removals, List.mem_cons, List.not_mem_nil, or_false, Prod.mk.injEq]
  constructor
  · rintro ⟨source, member, ⟨rfl, rfl⟩ | ⟨rfl, rfl⟩⟩
    · exact ⟨rfl, source, member, .inl rfl⟩
    · exact ⟨rfl, source, member, .inr rfl⟩
  · rintro ⟨rfl, source, member, rfl | rfl⟩
    · exact ⟨source, member, .inl ⟨rfl, rfl⟩⟩
    · exact ⟨source, member, .inr ⟨rfl, rfl⟩⟩

theorem find_removals (sources : List EntryId) (key : VectorKey) :
    (((sources.flatMap removals).reverse.find? fun op => op.1 = key).map (·.2)) =
      if ∃ source ∈ sources, key = .entry source ∨ key = .entryContextual source then
        some .remove else none := by
  split
  · rename_i removed
    have there : ((key, .remove) : VectorKey × Pending) ∈ sources.flatMap removals :=
      mem_removals.mpr ⟨rfl, removed⟩
    obtain ⟨op, found⟩ := Option.isSome_iff_exists.mp
      (List.find?_isSome (p := fun op => decide (op.1 = key)).mpr ⟨_, List.mem_reverse.mpr there, by simp⟩)
    have drops := (mem_removals.mp (List.mem_reverse.mp (List.mem_of_find?_eq_some found))).1
    rw [found, Option.map_some, drops]
  · rename_i spared
    rw [Option.map_eq_none_iff, List.find?_eq_none]
    intro op member same
    obtain ⟨_, source, listed, named⟩ := mem_removals.mp (List.mem_reverse.mp member)
    rw [of_decide_eq_true same] at named
    exact spared ⟨source, listed, named⟩

theorem word_entry :
    word (.entry entry) event =
      match event.payload with
      | .memoryContentAppended _ entryId _ _ text _ _ _ =>
        if entryId = entry then some (.embed text) else none
      | .memorySuperseded _ ended _ | .entryRetracted _ ended _ _ =>
        if ended = entry then some .remove else none
      | .entriesConsolidated _ sources _ _ => if entry ∈ sources then some .remove else none
      | _ => none := by
  unfold word wordOn planned
  cases event.payload with
  | memoryContentAppended id entryId assertedAt occurredAt text toldBy toldIn visibility =>
    by_cases here : entryId = entry <;> simp [here]
  | memorySuperseded id ended successor =>
    by_cases here : ended = entry <;> simp [removals, here]
  | entryRetracted memory ended reason producedBy =>
    by_cases here : ended = entry <;> simp [removals, here]
  | entriesConsolidated =>
    rw [find_removals]
    simp
  | _ => rfl

theorem word_description :
    word (.description id) event =
      match event.payload with
      | .memoryDescriptionRegenerated described newText _ =>
        if described = id then some (.embed newText) else none
      | .memoryDeleted deleted => if deleted = id then some .remove else none
      | _ => none := by
  unfold word wordOn planned
  cases event.payload with
  | memoryDescriptionRegenerated described newText producedBy =>
    by_cases here : described = id <;> simp [here]
  | memoryDeleted deleted =>
    by_cases here : deleted = id <;> simp [here]
  | entriesConsolidated =>
    rw [find_removals]
    simp
  | _ => rfl

end Words

/-! ### The events and the projection -/

/-- What the log asks for is what the projection says, of the memories not deleted. -/
structure Accounts {ε : Type} (embedder : Embedder ε) (log : List Event) (graph : Graph) :
    Prop where
  unknown : ∀ id, graph.entryRow id = none →
    (lastWord (word (.entry id)) log).bind (means embedder (.entry id)) = none
  entries : ∀ row ∈ graph.entries, (graph.liveRow row.memoryId).isSome = true →
    (lastWord (word (.entry row.entryId)) log).bind (means embedder (.entry row.entryId)) =
      if row.supersededBy.isNone then vectorOf embedder (.entry row.entryId) row.text else none
  descriptions : ∀ id,
    (lastWord (word (.description id)) log).bind (means embedder (.description id)) =
      (graph.liveRow id).bind fun row => vectorOf embedder (.description id) row.description

section Accounts

variable {ε : Type} {embedder : Embedder ε} {log : List Event} {event : Event}
variable {before after : Graph}

theorem entryChange_text (row : EntryRow) : (entryChange event before row).text = row.text := by
  unfold entryChange
  split <;> (try split) <;> rfl

theorem entryChange_unasked {row : EntryRow} (announced : Announced before event)
    (stored : row ∈ before.entries) (live : (before.liveRow row.memoryId).isSome = true)
    (unasked : word (.entry row.entryId) event = none) :
    (entryChange event before row).supersededBy.isNone = row.supersededBy.isNone ∨
      isBlank row.text = true := by
  rw [word_entry] at unasked
  unfold entryChange
  unfold Announced at announced
  cases payload : event.payload with
  | memorySuperseded id ended successor =>
    have other : ended ≠ row.entryId := by simpa [payload] using unasked
    simp [Ne.symm other]
  | entriesConsolidated id sources replacement producedBy =>
    have other : row.entryId ∉ sources := by simpa [payload] using unasked
    simp [other]
  | entryRetracted memory ended reason producedBy =>
    have other : ended ≠ row.entryId := by simpa [payload] using unasked
    simp [Ne.symm other]
  | attestationRetracted memory ended teller reason producedBy =>
    dsimp only
    split
    · rename_i last
      rw [payload] at announced
      have found : before.entryRow ended = some row :=
        Table.find_eq_some_iff.mpr ⟨stored, last.1⟩
      cases superseded : row.supersededBy with
      | none => exact .inr (announced last.2 row found superseded live)
      | some => exact .inl rfl
    · exact .inl rfl
  | _ =>
    dsimp only
    first | exact .inl rfl | (split <;> exact .inl rfl)

theorem entryChange_dropped {row : EntryRow}
    (dropped : word (.entry row.entryId) event = some .remove) :
    (entryChange event before row).supersededBy.isNone = false := by
  rw [word_entry] at dropped
  unfold entryChange
  cases payload : event.payload with
  | memorySuperseded id ended successor =>
    have here : ended = row.entryId := by simpa [payload] using dropped
    simp [here]
  | entriesConsolidated id sources replacement producedBy =>
    have here : row.entryId ∈ sources := by simpa [payload] using dropped
    simp [here]
  | entryRetracted memory ended reason producedBy =>
    have here : ended = row.entryId := by simpa [payload] using dropped
    simp [here, EntryRow.tombstone]
  | memoryContentAppended =>
    simp [payload] at dropped
  | _ =>
    rw [payload] at dropped
    cases dropped

theorem word_embed (before : Graph) {id : EntryId} {text : String} :
    word (.entry id) event = some (.embed text) ↔
      ∃ row, appendedRow event before = some row ∧ row.entryId = id ∧ row.text = text := by
  rw [word_entry]
  unfold appendedRow
  cases payload : event.payload with
  | memoryContentAppended memory entryId assertedAt occurredAt appended toldBy toldIn visibility =>
    by_cases here : entryId = id <;> simp [here, appendedEntry]
  | memorySuperseded | entryRetracted | entriesConsolidated => simp
  | _ => simp

theorem memoryChange_description (row : MemoryRow) :
    (memoryChange event before row).description =
      match event.payload with
      | .memoryDescriptionRegenerated id newText _ =>
        if row.id = id then newText else row.description
      | _ => row.description := by
  rw [memoryChange_eq]
  unfold memoryColumns
  cases event.payload <;> (try dsimp only) <;> (try split) <;> rfl

theorem liveRow_of_created (applied : apply event before = .ok after) {id : MemoryId}
    {name : MemoryName} (payload : event.payload = .memoryCreated id name) :
    before.liveRow id = none := by
  have creates : createdId event.payload = some id := by rw [payload]; rfl
  obtain ⟨row, created, rfl⟩ := exists_createdMemory creates
  have fresh := (created_of_apply applied created).1
  rw [liveRow, memoryRow, Table.find_eq_none_iff.mpr (Table.contains_eq_false_iff.mp fresh)]
  rfl

theorem description_apply (applied : apply event before = .ok after) (id : MemoryId) :
    (after.liveRow id).map (·.description) =
      match event.payload with
      | .memoryDescriptionRegenerated described newText _ =>
        (before.liveRow id).map fun row => if described = id then newText else row.description
      | .memoryDeleted deleted =>
        if deleted = id then none else (before.liveRow id).map (·.description)
      | .memoryCreated created _ =>
        if created = id then some "" else (before.liveRow id).map (·.description)
      | _ => (before.liveRow id).map (·.description) := by
  have named : ∀ row, before.liveRow id = some row → row.id = id := fun row found =>
    (Table.find_eq_some_iff.mp (Option.filter_eq_some_iff.mp found).1).2
  rw [liveRow_apply applied]
  cases payload : event.payload with
  | memoryDescriptionRegenerated described newText producedBy =>
    cases found : before.liveRow id with
    | none => simp [createdMemory, payload]
    | some row =>
      by_cases here : described = id
      · simp [Option.filter, createdMemory, memoryChange_description, payload, named row found, here]
      · simp [Option.filter, createdMemory, memoryChange_description, payload, named row found, here,
          Ne.symm here]
  | memoryDeleted deleted =>
    cases found : before.liveRow id with
    | none => simp [createdMemory, payload]
    | some =>
      by_cases here : deleted = id
      · simp [Option.filter, createdMemory, payload, here]
      · simp [Option.filter, createdMemory, memoryChange_description, payload, here]
  | memoryCreated created name =>
    cases found : before.liveRow id with
    | none =>
      by_cases here : created = id <;> simp [Option.filter, createdMemory, payload, here]
    | some =>
      have other : created ≠ id := by
        rintro rfl
        rw [liveRow_of_created applied payload] at found
        cases found
      simp [Option.filter, createdMemory, memoryChange_description, payload, other]
  | _ =>
    cases found : before.liveRow id with
    | none => simp [createdMemory, payload]
    | some => simp [Option.filter, createdMemory, memoryChange_description, payload]

theorem Accounts.fresh : Accounts embedder [] Graph.fresh where
  unknown := by
    intro id _
    rfl
  entries := by
    intro row member
    cases member
  descriptions := by
    intro id
    rfl

theorem Accounts.step (accounts : Accounts embedder log before) (reachable : Reachable before)
    (announced : Announced before event) (applied : apply event before = .ok after) :
    Accounts embedder (log ++ [event]) after where
  unknown := by
    intro id absent
    rw [entryRow, Table.find_eq_none_iff] at absent
    rw [lastWord_append, lastWord_singleton]
    cases asked : word (.entry id) event with
    | none =>
      refine accounts.unknown id (Table.find_eq_none_iff.mpr fun row member same => ?_)
      have kept := (mem_entries_apply applied).mpr (.inl ⟨row, member, rfl⟩)
      exact absent _ kept (by rw [entryChange_entryId, same])
    | some pending =>
      cases pending with
      | remove => rfl
      | embed =>
        obtain ⟨row, appended, same, _⟩ := (word_embed before).mp asked
        exact absurd same (absent row ((mem_entries_apply applied).mpr (.inr appended)))
  entries := by
    intro row member live
    rw [lastWord_append, lastWord_singleton]
    rcases (mem_entries_apply applied).mp member with ⟨old, stored, rfl⟩ | appended
    · rw [entryChange_entryId, entryChange_text]
      rw [entryChange_memoryId, liveRow_apply applied] at live
      -- its memory is not one the event creates, as it is there already
      have earlier : (before.liveRow old.memoryId).isSome = true := by
        cases found : before.liveRow old.memoryId with
        | some => rfl
        | none =>
          obtain ⟨memory, memoryMem, owner, _⟩ := reachable.dated.behind old stored
          rw [found] at live
          obtain ⟨created, made⟩ := Option.isSome_iff_exists.mp live
          obtain ⟨creates, same⟩ := Option.filter_eq_some_iff.mp made
          have fresh := (created_of_apply applied creates).1
          rw [of_decide_eq_true same, ← owner, Table.contains_of_mem memoryMem] at fresh
          cases fresh
      cases asked : word (.entry old.entryId) event with
      | none =>
        have known := accounts.entries old stored earlier
        rw [Option.none_or, known]
        rcases entryChange_unasked announced stored earlier asked with same | blank
        · rw [same]
        · simp [vectorOf, blank]
      | some pending =>
        cases pending with
        | remove =>
          rw [entryChange_dropped asked]
          rfl
        | embed =>
          obtain ⟨row, appended, same, _⟩ := (word_embed before).mp asked
          have fresh := (appended_of_apply applied appended).2.1
          rw [same, Table.contains_of_mem stored] at fresh
          cases fresh
    · have asked := (word_embed before).mpr ⟨row, appended, rfl, rfl⟩
      have standing : row.supersededBy = none := by
        unfold appendedRow at appended
        split at appended <;> cases appended
        rfl
      rw [asked, standing]
      rfl
  descriptions := by
    intro id
    have known := accounts.descriptions id
    have text : ∀ graph : Graph, ((graph.liveRow id).bind fun row =>
        vectorOf embedder (.description id) row.description) =
          ((graph.liveRow id).map (·.description)).bind (vectorOf embedder (.description id)) := by
      intro graph
      cases graph.liveRow id <;> rfl
    rw [text] at known ⊢
    rw [lastWord_append, lastWord_singleton, word_description, description_apply applied]
    unfold Announced at announced
    cases payload : event.payload with
    | memoryDescriptionRegenerated described newText producedBy =>
      rw [payload] at announced
      by_cases here : described = id
      · subst here
        cases found : before.liveRow described with
        | some => simp [means]
        | none =>
          -- nothing is embedded of a memory that is not live
          have blank : isBlank newText = true := by simpa [found] using announced
          simp [means, vectorOf, blank]
      · simp [here, known]
    | memoryDeleted deleted =>
      by_cases here : deleted = id <;> simp [here, known, means]
    | memoryCreated created name =>
      by_cases here : created = id
      · subst here
        rw [liveRow_of_created applied payload] at known
        simp [known, vectorOf, isBlank]
      · simp [here, known]
    | _ => simpa using known

end Accounts

/-! ### Reading by position -/

section Positions

variable {log : List Event} {after position : Nat}

theorem seq_of_numbered (numbered : Numbered after log) {index : Nat} {event : Event}
    (found : log[index]? = some event) : event.seq = after + index + 1 := by
  induction log generalizing after index with
  | nil => simp at found
  | cons first rest ih =>
    cases index with
    | zero =>
      cases found
      exact numbered.1
    | succ =>
      have later := ih numbered.2 (by simpa using found)
      rw [later, numbered.1]
      omega

theorem readFrom_eq_drop (numbered : Numbered after log) (position : Nat) :
    readFrom log (after + position + 1) = log.drop position := by
  induction log generalizing after position with
  | nil => simp [readFrom]
  | cons first rest ih =>
    cases position with
    | zero =>
      rw [List.drop_zero, readFrom, List.filter_eq_self]
      intro event member
      have bounds := (numbered_bounds numbered event member).1
      simp only [decide_eq_true_eq]
      omega
    | succ position =>
      have here := numbered.1
      have there := ih numbered.2 position
      have shifted : after + (position + 1) + 1 = first.seq + position + 1 := by omega
      have passed : ¬after + (position + 1) + 1 ≤ first.seq := by omega
      rw [List.drop_succ_cons, ← there, readFrom, List.filter_cons_of_neg (by simpa using passed),
        readFrom, shifted]

theorem mem_stretch {start stop : Nat} {event : Event} (numbered : Numbered 0 log)
    (member : event ∈ (log.take stop).drop start) :
    event ∈ log ∧ start < event.seq ∧ event.seq ≤ stop := by
  have read := readFrom_eq_drop (numbered_take numbered stop) start
  have upper := (numbered_bounds (numbered_take numbered stop) event
    (List.mem_of_mem_drop member)).2
  have length := List.length_take_le stop log
  rw [← read, readFrom, List.mem_filter, decide_eq_true_eq] at member
  exact ⟨List.mem_of_mem_take member.1, by omega, by omega⟩

theorem last_of_stretch {start stop : Nat} (numbered : Numbered 0 log) (within : stop ≤ log.length)
    (some' : start < stop) :
    ((log.take stop).drop start).getLast?.map (·.seq) = some stop := by
  have length : (log.take stop).length = stop := by rw [List.length_take, Nat.min_eq_left within]
  have ends : (log.take stop)[stop - 1]? = log[stop - 1]? := by
    rw [List.getElem?_take_of_lt (by omega)]
  rw [List.getLast?_drop, length, if_neg (by omega), List.getLast?_eq_getElem?, length, ends,
    List.getElem?_eq_getElem (by omega), Option.map_some,
    seq_of_numbered numbered (List.getElem?_eq_getElem (by omega))]
  congr 1
  omega

end Positions

/-! ### The run lemma -/

/-- What every run of steps that meet the conditions keeps. -/
structure Sound {ε : Type} (embedder : Embedder ε) (state : Indexing ε) : Prop where
  reachable : Reachable state.graph
  numbered : Numbered 0 state.log
  head : state.graph.head = state.log.length
  cursor : state.index.cursor ≤ state.log.length
  opened : ∀ cursor ∈ state.opened, cursor ≤ state.log.length
  flights : ∀ flight ∈ state.flights, ∃ stop resolver, flight.cursor ≤ stop ∧
    stop ≤ state.log.length ∧ flight.events = (state.log.take stop).drop flight.cursor ∧
    flight.batch = embedBatch embedder flight.events resolver
  abreast : ∀ key : VectorKey, key.plain = true →
    Abreast (word key) (means embedder key) state.log state.index.cursor
      (state.index.vectors.find key)
  accounts : Accounts embedder state.log state.graph

section Runs

variable {ε : Type} {embedder : Embedder ε} {state after : Indexing ε} {act : Act ε}
variable {flight : Flight ε}

theorem Sound.fresh : Sound embedder ({} : Indexing ε) where
  reachable := .fresh
  numbered := trivial
  head := rfl
  cursor := le_rfl
  opened := by
    intro cursor member
    cases member
  flights := by
    intro flight member
    cases member
  abreast := by
    intro key _
    exact .fresh
  accounts := .fresh

theorem Sound.flightFrom_reads (sound : Sound embedder state) (cursor : Nat) :
    (flightFrom embedder state cursor).events =
      (state.log.take state.log.length).drop cursor := by
  have read := readFrom_eq_drop sound.numbered cursor
  rw [Nat.zero_add] at read
  rw [List.take_length]
  exact read

theorem cursor_applyBatch {log : List Event} (numbered : Numbered 0 log) {stop : Nat}
    {resolver : MemoryId → Option MemoryName} (ordered : flight.cursor ≤ stop)
    (within : stop ≤ log.length) (read : flight.events = (log.take stop).drop flight.cursor)
    (index : VectorIndex ε) :
    (applyBatch index (embedBatch embedder flight.events resolver)).cursor =
      if flight.cursor = stop then index.cursor else stop := by
  show (flight.events.getLast?.map (·.seq)).getD index.cursor = _
  rw [read]
  split
  · rename_i same
    rw [same, List.drop_eq_nil_of_le (List.length_take_le _ _)]
    rfl
  · rename_i different
    rw [last_of_stretch numbered within (by omega)]
    rfl

theorem Sound.abreast_write (sound : Sound embedder state) (lands : Lands state flight)
    {stop : Nat} {resolver : MemoryId → Option MemoryName} (ordered : flight.cursor ≤ stop)
    (within : stop ≤ state.log.length)
    (read : flight.events = (state.log.take stop).drop flight.cursor)
    (planned : flight.batch = embedBatch embedder flight.events resolver) {key : VectorKey}
    (plain : key.plain = true) :
    Abreast (word key) (means embedder key) state.log (applyBatch state.index flight.batch).cursor
      ((applyBatch state.index flight.batch).vectors.find key) := by
  have events : readFrom state.log (stop + 1) = state.log.drop stop := by
    have past := readFrom_eq_drop sound.numbered stop
    rwa [Nat.zero_add] at past
  rw [planned, find_applyBatch, funext (wordOn_plain plain)]
  rw [cursor_applyBatch sound.numbered ordered within read]
  split
  · -- nothing was read, so nothing is written
    rename_i same
    have nothing : flight.events = [] := by
      rw [read, ← same]
      exact List.drop_eq_nil_of_le (List.length_take_le _ _)
    rw [nothing]
    exact sound.abreast key plain
  · rename_i different
    have last : flight.events.getLast?.map (·.seq) = some stop := by
      rw [read]
      exact last_of_stretch sound.numbered within (by omega)
    have landed := lands key plain
    rw [Flight.last, last, Option.getD_some, events] at landed
    rw [read] at landed ⊢
    refine (sound.abreast key plain).finish ordered ?_ ?_
    · intro silent pending said
      rw [said]
      cases pending with
      | remove => rfl
      | embed text =>
        dsimp only [means]
        cases made : vectorOf embedder key text with
        | some => rfl
        | none =>
          -- a blank text leaves what was there, which is nothing
          have blank : isBlank text = true := by
            by_contra full
            simp [vectorOf, full] at made
          exact (landed silent).1 text said blank
    · intro silent unsaid
      rw [unsaid]
      refine ⟨rfl, lastWord_eq_none.mpr fun event member => ?_⟩
      obtain ⟨logged, past, upTo⟩ := mem_stretch sound.numbered member
      exact (landed silent).2 unsaid event logged past upTo

/-- A step that meets the conditions. -/
def Checked {ε : Type} (embedder : Embedder ε) (before : Indexing ε) (act : Act ε)
    (after : Indexing ε) : Prop :=
  Steps embedder before act after ∧ Meets before act

theorem Sound.step (sound : Sound embedder state) (checked : Checked embedder state act after) :
    Sound embedder after := by
  obtain ⟨steps, meets⟩ := checked
  cases steps with
  | @commit event graph folds =>
    have next : event.seq = state.log.length + 1 := by rw [folds.1, sound.head]
    have grown : (state.log ++ [event]).length = state.log.length + 1 := by simp
    exact
      { reachable := sound.reachable.step folds
        numbered := numbered_append.mpr ⟨sound.numbered, by rw [next, Nat.zero_add], trivial⟩
        head := by
          show graph.head = _
          rw [head_of_apply folds.2, next, grown]
        cursor := by
          show state.index.cursor ≤ (state.log ++ [event]).length
          have within := sound.cursor
          omega
        opened := by
          intro cursor member
          have within := sound.opened cursor member
          show cursor ≤ (state.log ++ [event]).length
          omega
        flights := by
          intro flight member
          obtain ⟨stop, resolver, ordered, within, read, planned⟩ := sound.flights flight member
          refine ⟨stop, resolver, ordered, ?_, ?_, planned⟩
          · show stop ≤ (state.log ++ [event]).length
            omega
          · show flight.events = ((state.log ++ [event]).take stop).drop flight.cursor
            rw [List.take_append_of_le_length within]
            exact read
        abreast := by
          intro key plain
          exact (sound.abreast key plain).concat event sound.cursor
        accounts := sound.accounts.step sound.reachable meets folds.2 }
  | readCursor =>
    refine { sound with opened := ?_ }
    intro cursor member
    rcases List.mem_cons.mp member with rfl | earlier
    · exact sound.cursor
    · exact sound.opened cursor earlier
  | @readEvents cursor opened =>
    refine { sound with opened := ?_, flights := ?_ }
    · intro other member
      exact sound.opened other (List.mem_of_mem_erase member)
    · intro flight member
      rcases List.mem_cons.mp member with rfl | earlier
      · exact ⟨state.log.length, _, sound.opened cursor opened, le_rfl,
          sound.flightFrom_reads cursor, rfl⟩
      · exact sound.flights flight earlier
  | @write flight others reading =>
    obtain ⟨stop, resolver, ordered, within, read, planned⟩ :=
      sound.flights flight (reading.mem_iff.mpr List.mem_cons_self)
    refine { sound with cursor := ?_, flights := ?_, abreast := ?_ }
    · show (applyBatch state.index flight.batch).cursor ≤ state.log.length
      rw [planned, cursor_applyBatch sound.numbered ordered within read]
      split
      · exact sound.cursor
      · exact within
    · intro other member
      exact sound.flights other (reading.mem_iff.mpr (List.mem_cons_of_mem _ member))
    · intro key plain
      exact sound.abreast_write meets ordered within read planned plain
  | @fail flight others reading =>
    refine { sound with flights := ?_ }
    intro other member
    exact sound.flights other (reading.mem_iff.mpr (List.mem_cons_of_mem _ member))

end Runs

/-- Once a catch-up run reads and writes alone, the index is what the projection says, in
every run whose steps meet the conditions. -/
theorem index_converges {ε : Type} {embedder : Embedder ε} {acts : List (Act ε)}
    {state : Indexing ε} (run : Trace (Checked embedder) {} acts state)
    (lands : Lands state (flightFrom embedder state state.index.cursor)) :
    Converged embedder state.graph (caughtUp embedder state) := by
  have sound : Sound embedder state := run.invariant (Sound embedder)
    (fun _ _ _ checked sound => sound.step checked) .fresh
  have read := sound.flightFrom_reads state.index.cursor
  -- the run ends at the head of the log, where every vector is settled
  have settled : ∀ key : VectorKey, key.plain = true →
      (caughtUp embedder state).vectors.find key =
        (lastWord (word key) state.log).bind (means embedder key) := by
    intro key plain
    have abreast := sound.abreast_write lands sound.cursor le_rfl read rfl plain
    have cursor : (caughtUp embedder state).cursor = state.log.length := by
      have moved := @cursor_applyBatch ε embedder (flightFrom embedder state state.index.cursor)
        state.log sound.numbered state.log.length
        (fun id => (state.graph.memoryById id).map (·.name)) sound.cursor le_rfl read state.index
      refine moved.trans ?_
      split
      · rename_i same
        exact same
      · rfl
    rw [caughtUp] at cursor ⊢
    rw [cursor] at abreast
    exact abreast.settled
  constructor
  · intro id live
    rw [settled (.entry id) rfl]
    cases found : state.graph.entryRow id with
    | none => exact sound.accounts.unknown id found
    | some row =>
      obtain ⟨stored, rfl⟩ := Table.find_eq_some_iff.mp found
      exact sound.accounts.entries row stored (live row found)
  · intro id
    rw [settled (.description id) rfl]
    exact sound.accounts.descriptions id

/-! ### A withdrawn entry that stays indexed -/

namespace Withdrawn

def someone : MemoryId := ⟨1⟩

def preference : EntryId := ⟨2⟩

def embedder : Embedder String := ⟨id, "embed-1"⟩

def creation : Event := ⟨1, ⟨0⟩, .agent, .memoryCreated someone ⟨"person/someone"⟩⟩

def noting : Event :=
  ⟨2, ⟨0⟩, .agent,
    .memoryContentAppended someone preference ⟨0⟩ none "Prefers tea." .agent none .public⟩

def withdrawing : Event :=
  ⟨3, ⟨0⟩, .agent, .attestationRetracted someone preference .agent "Misheard." none⟩

/-- What folding a log leaves. -/
def folded (log : List Event) : Graph := ((foldLog apply log Graph.fresh).toOption).getD Graph.fresh

def noted : Indexing String := ⟨[creation, noting], folded [creation, noting], {}, [0], []⟩

def withdrawn : Indexing String :=
  ⟨[creation, noting, withdrawing], folded [creation, noting, withdrawing], {}, [], []⟩

theorem index_keeps_withdrawn :
    Trace (Steps embedder) {} [.commit creation, .commit noting, .commit withdrawing] withdrawn ∧
      ¬Converged embedder withdrawn.graph (caughtUp embedder withdrawn) := by
  constructor
  · refine .cons (@Steps.commit _ _ {} creation (folded [creation]) ⟨rfl, rfl⟩) ?_
    refine .cons (@Steps.commit _ _ _ noting (folded [creation, noting]) ⟨rfl, rfl⟩) ?_
    exact .single (.commit ⟨rfl, rfl⟩)
  · intro converged
    have shown := converged.entries preference (by decide)
    revert shown
    decide

theorem index_converges_noted : Converged embedder noted.graph (caughtUp embedder noted) := by
  have run : Trace (Checked embedder) {} [.commit creation, .readCursor, .commit noting] noted := by
    refine .cons ⟨@Steps.commit _ _ {} creation (folded [creation]) ⟨rfl, rfl⟩, trivial⟩ ?_
    refine .cons ⟨.readCursor _, trivial⟩ ?_
    exact .single ⟨@Steps.commit _ _ _ noting (folded [creation, noting]) ⟨rfl, rfl⟩, trivial⟩
  refine index_converges run fun key plain _ => ⟨fun text said blank => ?_, fun _ => ?_⟩
  · -- the only text read is not blank
    have read : (flightFrom embedder noted noted.index.cursor).events = [creation, noting] := rfl
    have words : lastWord (word key) [creation, noting] =
        (word key noting).or (word key creation) := by
      rw [← List.singleton_append, lastWord_append, lastWord_singleton, lastWord_singleton]
    rw [read, words] at said
    cases key with
    | description => simp [word_description, creation, noting] at said
    | entry =>
      simp only [word_entry, creation, noting, Option.or_none, Option.ite_none_right_eq_some,
        Option.some.injEq, Pending.embed.injEq] at said
      have full : isBlank "Prefers tea." = false := by decide
      rw [← said.2, full] at blank
      cases blank
    | entryContextual => cases plain
  · intro event _ past upTo
    have before : event.seq ≤ 0 := upTo
    have after : 0 < event.seq := past
    omega

end Withdrawn

end Zuihitsu.Search
