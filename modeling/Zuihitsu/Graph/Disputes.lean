/-
# Disputed entries

An arbitration that credits no entry marks its competing entries as disputed, one row for each
entry, in place of what the memory had marked before. The row of an entry names one memory only, so
where two memories of a class arbitrate over the same entries the later one takes them over, and
the dispute of the earlier one is gone from its reads though both accounts are live.
-/

import Zuihitsu.Graph.Reads
import Zuihitsu.Graph.Resume
import Mathlib.Data.Finset.Card

namespace Zuihitsu.Graph

open Zuihitsu.Core Zuihitsu.Library

/-- The arbitration of a memory that an event is. -/
def arbitrationOf (memory : MemoryId) (event : Event) :
    Option (List EntryId × ArbitrationResolution) :=
  match event.payload with
  | .beliefArbitrated arbitrated competing resolution _ =>
    if arbitrated = memory then some (competing, resolution) else none
  | _ => none

/-- The latest arbitration of a memory in a log, and what comes after it. -/
def latestArbitration (memory : MemoryId) :
    List Event → Option ((List EntryId × ArbitrationResolution) × List Event)
  | [] => none
  | event :: later =>
    match latestArbitration memory later with
    | some found => some found
    | none => (arbitrationOf memory event).map (·, later)

/-- An entry that is not superseded. -/
def Unsuperseded (graph : Graph) (entry : EntryId) : Prop :=
  (graph.entryRow entry).any (·.supersededBy.isNone) = true

instance (graph : Graph) (entry : EntryId) : Decidable (Unsuperseded graph entry) :=
  inferInstanceAs (Decidable (_ = _))

/-- The competing entries of an arbitration that are live. -/
def liveCompeting (graph : Graph) (competing : List EntryId) : Finset EntryId :=
  competing.toFinset.filter (Unsuperseded graph)

/-- The entries a memory's latest arbitration leaves disputed. -/
def openDispute (graph : Graph) (log : List Event) (memory : MemoryId) : Finset EntryId :=
  match latestArbitration memory log with
  | none => ∅
  | some ((competing, resolution), _) =>
    let live := liveCompeting graph competing
    if resolution.credited = [] ∧ 2 ≤ live.card then live else ∅

/-- An arbitration that credits none takes an entry for its memory. -/
def Takes (event : Event) (entry : EntryId) : Prop :=
  ∃ memory competing resolution producedBy,
    event.payload = .beliefArbitrated memory competing resolution producedBy ∧
      resolution.credited = [] ∧ entry ∈ competing

/-- Since a memory's latest arbitration, if it left a dispute, no live entry of it was taken by an
arbitration of another memory. -/
def Undisturbed (graph : Graph) (log : List Event) (memory : MemoryId) : Prop :=
  ∀ competing resolution later,
    latestArbitration memory log = some ((competing, resolution), later) →
      resolution.credited = [] → 2 ≤ (liveCompeting graph competing).card →
        ∀ entry ∈ liveCompeting graph competing, ∀ event ∈ later, ¬Takes event entry

/-! ### The marks a log leaves -/

section Marks

variable {before after graph : Graph} {event : Event} {log : List Event}
variable {memory arbitrated : MemoryId} {entry : EntryId} {competing : List EntryId}
variable {resolution : ArbitrationResolution} {producedBy : Option ProducedBy}

/-- An entry is marked as disputed for a memory. -/
def Marked (graph : Graph) (memory : MemoryId) (entry : EntryId) : Prop :=
  ∃ row ∈ graph.disputes, row.entryId = entry ∧ row.memoryId = memory

/-- An entry's mark by the log: it competes in the memory's latest arbitration, which credited
none, and no later arbitration has taken it. -/
def MarkedBy (log : List Event) (memory : MemoryId) (entry : EntryId) : Prop :=
  ∃ competing resolution later,
    latestArbitration memory log = some ((competing, resolution), later) ∧
      resolution.credited = [] ∧ entry ∈ competing ∧ ∀ event ∈ later, ¬Takes event entry

theorem latestArbitration_concat (log : List Event) :
    latestArbitration memory (log ++ [event]) =
      ((arbitrationOf memory event).map (·, [])).or
        ((latestArbitration memory log).map fun found => (found.1, found.2 ++ [event])) := by
  induction log with
  | nil => cases found : arbitrationOf memory event <;> simp [latestArbitration, found]
  | cons first log ih =>
    rw [List.cons_append, latestArbitration, ih, latestArbitration]
    cases arbitrationOf memory event with
    | some => rfl
    | none =>
      cases latestArbitration memory log with
      | some => rfl
      | none => cases arbitrationOf memory first <;> rfl

theorem mem_replaceDisputes {rows : List EntryId} {statement : String}
    {table : Table DisputeRow.entryId} :
    (∃ row ∈ (rows.map fun entry => (⟨entry, arbitrated, statement⟩ : DisputeRow)).foldl
        Table.insertOrReplace table, row.entryId = entry ∧ row.memoryId = memory) ↔
      (entry ∈ rows ∧ arbitrated = memory) ∨
        (entry ∉ rows ∧ ∃ row ∈ table, row.entryId = entry ∧ row.memoryId = memory) := by
  induction rows generalizing table with
  | nil => simp
  | cons first rest ih =>
    rw [List.map_cons, List.foldl_cons, ih]
    simp only [Table.mem_insertOrReplace, List.mem_cons, not_or]
    constructor
    · rintro (⟨member, owned⟩ | ⟨absent, row, ⟨held, other⟩ | rfl, rfl, owner⟩)
      · exact .inl ⟨.inr member, owned⟩
      · exact .inr ⟨⟨other, absent⟩, row, held, rfl, owner⟩
      · exact .inl ⟨.inl rfl, owner⟩
    · rintro (⟨rfl | member, owned⟩ | ⟨⟨other, absent⟩, row, held, rfl, owner⟩)
      · by_cases member : entry ∈ rest
        · exact .inl ⟨member, owned⟩
        · exact .inr ⟨member, _, .inr rfl, rfl, owned⟩
      · exact .inl ⟨member, owned⟩
      · exact .inr ⟨absent, row, .inl ⟨held, other⟩, rfl, owner⟩

theorem marked_arbitration
    (payload : event.payload = .beliefArbitrated arbitrated competing resolution producedBy)
    (applied : apply event before = .ok after) :
    Marked after memory entry ↔
      (resolution.credited = [] ∧ entry ∈ competing ∧ arbitrated = memory) ∨
        (arbitrated ≠ memory ∧ (resolution.credited = [] → entry ∉ competing) ∧
          Marked before memory entry) := by
  obtain ⟨projected, ran, rfl⟩ := apply_ok.mp applied
  simp only [project, payload] at ran
  obtain ⟨cleared, first, rest⟩ := Script.run_exec_ok.mp ran
  cases first
  have kept : (∃ row ∈ before.disputes.delete (·.memoryId = arbitrated),
      row.entryId = entry ∧ row.memoryId = memory) ↔
        arbitrated ≠ memory ∧ Marked before memory entry := by
    simp only [Table.mem_delete, decide_eq_false_iff_not]
    constructor
    · rintro ⟨row, ⟨member, other⟩, same, rfl⟩
      exact ⟨Ne.symm other, row, member, same, rfl⟩
    · rintro ⟨other, row, member, same, rfl⟩
      exact ⟨row, ⟨member, Ne.symm other⟩, same, rfl⟩
  split_ifs at rest with none
  all_goals rw [List.isEmpty_iff] at none
  · obtain ⟨_, rfl⟩ := run_replaceDisputes.mp rest
    change (∃ row ∈ List.foldl _ _ _, _) ↔ _
    rw [mem_replaceDisputes, kept]
    tauto
  · rw [Script.run_done] at rest
    cases rest
    change (∃ row ∈ Table.delete _ _, _) ↔ _
    rw [kept]
    tauto

theorem marked_other
    (other : ∀ arbitrated competing resolution producedBy,
      event.payload ≠ .beliefArbitrated arbitrated competing resolution producedBy)
    (applied : apply event before = .ok after) :
    Marked after memory entry ↔ Marked before memory entry := by
  have same : after.disputes = before.disputes := by
    refine (apply_frame applied).disputes ?_
    cases payload : event.payload <;> simp [footprint]
    exact other _ _ _ _ payload
  rw [Marked, Marked, same]

theorem markedBy_concat_arbitration
    (payload : event.payload = .beliefArbitrated arbitrated competing resolution producedBy) :
    MarkedBy (log ++ [event]) memory entry ↔
      (resolution.credited = [] ∧ entry ∈ competing ∧ arbitrated = memory) ∨
        (arbitrated ≠ memory ∧ (resolution.credited = [] → entry ∉ competing) ∧
          MarkedBy log memory entry) := by
  have takes : Takes event entry ↔ resolution.credited = [] ∧ entry ∈ competing := by
    simp [Takes, payload]
  by_cases owned : arbitrated = memory
  · have own : arbitrationOf memory event = some (competing, resolution) := by
      simp [arbitrationOf, payload, owned]
    simp [MarkedBy, latestArbitration_concat, own, owned]
  · have other : arbitrationOf memory event = none := by
      simp [arbitrationOf, payload, owned]
    simp only [MarkedBy, latestArbitration_concat, other, Option.map_none, Option.none_or,
      Option.map_eq_some_iff, owned, and_false, false_or, ne_eq, not_false_eq_true, true_and]
    constructor
    · rintro ⟨_, _, _, ⟨⟨⟨_, _⟩, later⟩, found, same⟩, uncredited, member, untaken⟩
      cases same
      refine ⟨fun none among => untaken event (by simp) (takes.mpr ⟨none, among⟩), _, _, later,
        found, uncredited, member, fun other within => untaken other (List.mem_append_left _ within)⟩
    · rintro ⟨spared, _, _, later, found, uncredited, member, untaken⟩
      refine ⟨_, _, later ++ [event], ⟨_, found, rfl⟩, uncredited, member, ?_⟩
      refine List.forall_mem_append.mpr ⟨untaken, List.forall_mem_singleton.mpr fun taken => ?_⟩
      exact spared (takes.mp taken).1 (takes.mp taken).2

theorem markedBy_concat_other
    (other : ∀ arbitrated competing resolution producedBy,
      event.payload ≠ .beliefArbitrated arbitrated competing resolution producedBy) :
    MarkedBy (log ++ [event]) memory entry ↔ MarkedBy log memory entry := by
  have none : arbitrationOf memory event = none := by
    rw [arbitrationOf]
    split
    · rename_i arbitrated competing resolution producedBy payload
      exact absurd payload (other _ _ _ _)
    · rfl
  have untaken : ¬Takes event entry := by
    rintro ⟨_, _, _, _, payload, _⟩
    exact other _ _ _ _ payload
  simp only [MarkedBy, latestArbitration_concat, none, Option.map_none, Option.none_or,
    Option.map_eq_some_iff]
  constructor
  · rintro ⟨_, _, _, ⟨⟨⟨_, _⟩, later⟩, found, same⟩, uncredited, member, apart⟩
    cases same
    exact ⟨_, _, later, found, uncredited, member, fun other within =>
      apart other (List.mem_append_left _ within)⟩
  · rintro ⟨_, _, later, found, uncredited, member, apart⟩
    exact ⟨_, _, later ++ [event], ⟨_, found, rfl⟩, uncredited, member,
      List.forall_mem_append.mpr ⟨apart, List.forall_mem_singleton.mpr untaken⟩⟩

theorem marked_iff (run : Trace Folds Graph.fresh log graph) :
    Marked graph memory entry ↔ MarkedBy log memory entry := by
  refine run.history (fun log graph => Marked graph memory entry ↔ MarkedBy log memory entry)
    ?_ ?_
  · constructor
    · rintro ⟨row, member, _⟩
      exact absurd member List.not_mem_nil
    · rintro ⟨_, _, _, found, _⟩
      cases found
  · rintro taken before event after _ ⟨_, applied⟩ same
    by_cases arbitrates : ∃ arbitrated competing resolution producedBy,
        event.payload = .beliefArbitrated arbitrated competing resolution producedBy
    · obtain ⟨arbitrated, competing, resolution, producedBy, payload⟩ := arbitrates
      rw [marked_arbitration payload applied, markedBy_concat_arbitration payload, same]
    · simp only [not_exists] at arbitrates
      rw [marked_other arbitrates applied, markedBy_concat_other arbitrates, same]

theorem toFinset_disputedEntries (graph : Graph) (memory : MemoryId) :
    ∃ live : Finset EntryId,
      (∀ entry, entry ∈ live ↔ Marked graph memory entry ∧ Unsuperseded graph entry) ∧
      (graph.disputedEntries memory).toFinset = if 2 ≤ live.card then live else ∅ := by
  generalize rows : (graph.disputes.rows.filter fun row =>
    row.memoryId = memory && (graph.entryRow row.entryId).any (·.supersededBy.isNone)) = found
  have once : (found.map (·.entryId)).Nodup := by
    rw [← rows]
    exact graph.disputes.nodup.sublist (List.filter_sublist.map DisputeRow.entryId)
  refine ⟨(found.map (·.entryId)).toFinset, fun entry => ?_, ?_⟩
  · rw [List.mem_toFinset, ← rows, Marked]
    simp only [List.mem_map, List.mem_filter, Bool.and_eq_true, decide_eq_true_eq, Table.mem_def,
      Unsuperseded]
    constructor
    · rintro ⟨row, ⟨member, owner, live⟩, rfl⟩
      exact ⟨⟨row, member, rfl, owner⟩, live⟩
    · rintro ⟨⟨row, member, rfl, owner⟩, live⟩
      exact ⟨row, ⟨member, owner, live⟩, rfl⟩
  · rw [disputedEntries, rows, List.toFinset_card_of_nodup once]
    split <;> rfl

end Marks

/-- On every log, what is shown disputed of a memory is what its latest arbitration leaves open
just where nothing has disturbed that. -/
theorem disputedEntries_iff {log : List Event} {graph : Graph}
    (run : Trace Folds Graph.fresh log graph) (memory : MemoryId) :
    (graph.disputedEntries memory).toFinset = openDispute graph log memory ↔
      Undisturbed graph log memory := by
  obtain ⟨live, marks, shown⟩ := toFinset_disputedEntries graph memory
  simp only [marked_iff run, MarkedBy] at marks
  rw [shown, openDispute, Undisturbed]
  cases latest : latestArbitration memory log with
  | none =>
    simp only [latest, reduceCtorEq, false_and, exists_false, iff_false] at marks
    have empty : live = ∅ := Finset.eq_empty_of_forall_notMem marks
    simp [empty]
  | some found =>
    obtain ⟨⟨competing, resolution⟩, later⟩ := found
    simp only [latest, Option.some.injEq, Prod.mk.injEq] at marks ⊢
    by_cases uncredited : resolution.credited = []
    · have within : ∀ entry, entry ∈ live ↔
          entry ∈ liveCompeting graph competing ∧ ∀ event ∈ later, ¬Takes event entry := by
        intro entry
        rw [marks, liveCompeting, Finset.mem_filter, List.mem_toFinset]
        constructor
        · rintro ⟨⟨_, _, _, ⟨⟨rfl, rfl⟩, rfl⟩, _, member, untaken⟩, here⟩
          exact ⟨⟨member, here⟩, untaken⟩
        · rintro ⟨⟨member, here⟩, untaken⟩
          exact ⟨⟨_, _, _, ⟨⟨rfl, rfl⟩, rfl⟩, uncredited, member, untaken⟩, here⟩
      have subset : live ⊆ liveCompeting graph competing := fun entry member =>
        ((within entry).mp member).1
      by_cases two : 2 ≤ (liveCompeting graph competing).card
      · have left : (if resolution.credited = [] ∧ 2 ≤ (liveCompeting graph competing).card then
            liveCompeting graph competing else ∅) = liveCompeting graph competing :=
          if_pos ⟨uncredited, two⟩
        rw [left]
        constructor
        · -- what is shown is not empty, so it is what is marked
          intro same _ _ _ together _ _ entry member
          obtain ⟨⟨rfl, rfl⟩, rfl⟩ := together
          have whole : live = liveCompeting graph competing := by
            split_ifs at same
            · exact same
            · rw [← same] at two
              cases two
          exact ((within entry).mp (whole ▸ member)).2
        · intro undisturbed
          have whole : live = liveCompeting graph competing := by
            refine subset.antisymm fun entry member => (within entry).mpr ⟨member, ?_⟩
            exact undisturbed _ _ _ ⟨⟨rfl, rfl⟩, rfl⟩ uncredited two entry member
          rw [whole, if_pos two]
      · have few : ¬2 ≤ live.card := fun more => two (more.trans (Finset.card_le_card subset))
        rw [if_neg few, if_neg fun both => two both.2]
        refine iff_of_true rfl fun _ _ _ together _ two' => ?_
        obtain ⟨⟨rfl, rfl⟩, rfl⟩ := together
        exact absurd two' two
    · have empty : live = ∅ := by
        refine Finset.eq_empty_of_forall_notMem fun entry member => ?_
        obtain ⟨⟨_, _, _, ⟨⟨rfl, rfl⟩, rfl⟩, none, _⟩, _⟩ := (marks entry).mp member
        exact uncredited none
      rw [empty, if_neg (by simp), if_neg fun both => uncredited both.1]
      refine iff_of_true rfl fun _ _ _ together none => ?_
      obtain ⟨⟨rfl, rfl⟩, rfl⟩ := together
      exact absurd none uncredited

theorem trace_commit {recordedAt : Timestamp} {source : EventSource}
    {payloads : List EventPayload} {graph result : Graph}
    (committed : commit recordedAt source payloads graph = .ok result) :
    Trace Folds graph (stamp graph.head recordedAt source payloads) result := by
  induction payloads generalizing graph with
  | nil =>
    cases committed
    exact .nil _
  | cons payload payloads ih =>
    obtain ⟨after, first, rest⟩ := commit_cons_ok.mp committed
    have later := ih rest
    rw [head_of_apply first] at later
    exact .cons ⟨rfl, first⟩ later

/-! Two stubs of one person, and two accounts of where she lives. -/

namespace Rivals

def person : MemoryId := ⟨1⟩

def stub : MemoryId := ⟨2⟩

def setting : List EventPayload :=
  [.linkTypeRegistered .sameAs .sameAs .many .many true false "one identity",
    .memoryCreated person ⟨"person/mia"⟩, .memoryCreated stub ⟨"person/mia_k"⟩,
    .linkCreated stub person .sameAs .agent none none .public,
    .memoryContentAppended person ⟨3⟩ ⟨0⟩ none "mia lives in lyon" .agent none .public,
    .memoryContentAppended person ⟨4⟩ ⟨0⟩ none "mia lives in turin" .agent none .public,
    .beliefArbitrated person [⟨3⟩, ⟨4⟩] ⟨[], "two accounts of where mia lives"⟩ none]

def again : EventPayload :=
  .beliefArbitrated stub [⟨3⟩, ⟨4⟩] ⟨[], "two accounts of where mia lives"⟩ none

def graphOf (payloads : List EventPayload) : Graph :=
  (commit ⟨0⟩ .agent payloads Graph.fresh).toOption.getD Graph.fresh

def logOf (payloads : List EventPayload) : List Event := stamp 0 ⟨0⟩ .agent payloads

theorem folds {payloads : List EventPayload}
    (committed : (commit ⟨0⟩ .agent payloads Graph.fresh).toOption.isSome = true) :
    Trace Folds Graph.fresh (logOf payloads) (graphOf payloads) := by
  cases result : commit ⟨0⟩ .agent payloads Graph.fresh with
  | ok =>
    rw [graphOf, result]
    exact trace_commit result
  | error =>
    rw [result] at committed
    cases committed

/-- Once the other stub has arbitrated too, the conflict is not shown on the person. -/
theorem stub_takes_dispute :
    Trace Folds Graph.fresh (logOf (setting ++ [again])) (graphOf (setting ++ [again])) ∧
      (graphOf (setting ++ [again])).disputedEntries person = [] ∧
      openDispute (graphOf (setting ++ [again])) (logOf (setting ++ [again])) person =
        {⟨3⟩, ⟨4⟩} := by
  have committed : (commit ⟨0⟩ .agent (setting ++ [again]) Graph.fresh).toOption.isSome = true ∧
      (graphOf (setting ++ [again])).disputedEntries person = [] ∧
      openDispute (graphOf (setting ++ [again])) (logOf (setting ++ [again])) person =
        {⟨3⟩, ⟨4⟩} := by decide +kernel
  exact ⟨folds committed.1, committed.2⟩

/-- Before that it is, since nothing has come after the person's own arbitration. -/
theorem dispute_shown :
    ((graphOf setting).disputedEntries person).toFinset =
      openDispute (graphOf setting) (logOf setting) person := by
  refine (disputedEntries_iff (folds (by decide +kernel)) person).mpr ?_
  intro competing resolution later latest
  have last : latestArbitration person (logOf setting) =
      some (([⟨3⟩, ⟨4⟩], ⟨[], "two accounts of where mia lives"⟩), []) := by decide +kernel
  cases latest.symm.trans last
  exact fun _ _ _ _ _ none => absurd none List.not_mem_nil

end Rivals

end Zuihitsu.Graph
