/-
# One relation, two labels

A link is asserted and removed under its relation's name or under its inverse, and
stored once. Which row a label means is read off the registry as it stands when
the label is used, so a registration in between can leave the stored row behind.
-/

import Zuihitsu.Graph.Registry
import Zuihitsu.Graph.Reads

namespace Zuihitsu.Graph

open Zuihitsu.Core Zuihitsu.Library

/-! ### The ends a registration gives a link -/

/-- Two ends in ascending order. -/
def sortEnds (fromId toId : MemoryId) : MemoryId × MemoryId :=
  if fromId ≤ toId then (fromId, toId) else (toId, fromId)

namespace RelationRow

/-- The direction a label gives its ends, under the relation's own name. -/
def points (row : RelationRow) (label : RelationName) (fromId toId : MemoryId) :
    MemoryId × MemoryId :=
  if label = row.name then (fromId, toId) else (toId, fromId)

/-- The ends a link under a label is stored between. -/
def ends (row : RelationRow) (label : RelationName) (fromId toId : MemoryId) :
    MemoryId × MemoryId :=
  if row.symmetric then sortEnds fromId toId else row.points label fromId toId

/-- A label and its ends name a relationship: the name with the ends as they are, the
inverse with the ends swapped, or either label in any order for a symmetric relation. -/
def Names (row : RelationRow) (first second : MemoryId) (label : RelationName)
    (fromId toId : MemoryId) : Prop :=
  (label = row.name ∧ fromId = first ∧ toId = second) ∨
    (label = row.inverse ∧ fromId = second ∧ toId = first) ∨
    (row.symmetric = true ∧ (label = row.name ∨ label = row.inverse) ∧
      ((fromId = first ∧ toId = second) ∨ (fromId = second ∧ toId = first)))

/-- A stored row records a relationship. -/
def Records (row : RelationRow) (first second : MemoryId) (link : LinkRow) : Prop :=
  link.relation = row.name ∧
    ((link.fromId = first ∧ link.toId = second) ∨
      (row.symmetric = true ∧ link.fromId = second ∧ link.toId = first))

/-- Two registrations store a link between the same ends: both are symmetric, or neither is
and the labels point the same way, or the one that is not points from the lower id. -/
def KeepsEnds (before after : RelationRow) (label : RelationName) (fromId toId : MemoryId)
    (label' : RelationName) (fromId' toId' : MemoryId) : Prop :=
  match before.symmetric, after.symmetric with
  | true, true => True
  | false, false => before.points label fromId toId = after.points label' fromId' toId'
  | true, false => (after.points label' fromId' toId').1 ≤ (after.points label' fromId' toId').2
  | false, true => (before.points label fromId toId).1 ≤ (before.points label fromId toId).2

end RelationRow

section Ends

variable {first second fromId toId fromId' toId' : MemoryId} {label label' : RelationName}
variable {before after row : RelationRow}

theorem sortEnds_comm : sortEnds fromId toId = sortEnds toId fromId := by
  unfold sortEnds
  by_cases up : fromId ≤ toId
  · by_cases down : toId ≤ fromId
    · obtain rfl : fromId = toId := by
        cases fromId
        cases toId
        exact congrArg MemoryId.mk (Nat.le_antisymm up down)
      rfl
    · rw [if_pos up, if_neg down]
  · have down : toId ≤ fromId := Nat.le_of_not_le up
    rw [if_neg up, if_pos down]

theorem sortEnds_eq_iff : sortEnds first second = (first, second) ↔ first ≤ second := by
  unfold sortEnds
  by_cases up : first ≤ second
  · exact iff_of_true (if_pos up) up
  · refine iff_of_false (fun same => ?_) up
    rw [if_neg up] at same
    have equal : second = first := (Prod.mk.inj same).1
    exact up (equal ▸ Nat.le_refl _)

theorem points_eq : row.points label fromId toId = (fromId, toId) ∨
    row.points label fromId toId = (toId, fromId) := by
  unfold RelationRow.points
  split
  · exact .inl rfl
  · exact .inr rfl

theorem sortEnds_points :
    sortEnds (row.points label fromId toId).1 (row.points label fromId toId).2 =
      sortEnds fromId toId := by
  rcases @points_eq fromId toId label row with same | same
  · rw [same]
  · rw [same]
    exact sortEnds_comm

theorem ends_eq_iff
    (pair : (fromId' = fromId ∧ toId' = toId) ∨ (fromId' = toId ∧ toId' = fromId)) :
    before.ends label fromId toId = after.ends label' fromId' toId' ↔
      before.KeepsEnds after label fromId toId label' fromId' toId' := by
  have sorted : sortEnds fromId' toId' = sortEnds fromId toId := by
    rcases pair with ⟨rfl, rfl⟩ | ⟨rfl, rfl⟩
    · rfl
    · exact sortEnds_comm
  unfold RelationRow.ends RelationRow.KeepsEnds
  cases before.symmetric with
  | true =>
    cases after.symmetric with
    | true => exact iff_of_true sorted.symm trivial
    | false =>
      change sortEnds fromId toId = after.points label' fromId' toId' ↔ _
      rw [← sorted, ← @sortEnds_points _ _ label' after]
      exact sortEnds_eq_iff
  | false =>
    cases after.symmetric with
    | true =>
      change before.points label fromId toId = sortEnds fromId' toId' ↔ _
      rw [sorted, ← @sortEnds_points _ _ label before, eq_comm]
      exact sortEnds_eq_iff
    | false => exact Iff.rfl

theorem RelationRow.Names.ends (names : row.Names first second label fromId toId) :
    (fromId = first ∧ toId = second) ∨ (fromId = second ∧ toId = first) := by
  rcases names with ⟨_, ends⟩ | ⟨_, ends⟩ | ⟨_, _, ends⟩
  · exact .inl ends
  · exact .inr ends
  · exact ends

theorem RelationRow.Names.carries (names : row.Names first second label fromId toId) :
    row.carries label = true := by
  unfold RelationRow.carries
  rcases names with ⟨rfl, _⟩ | ⟨rfl, _⟩ | ⟨_, rfl | rfl, _⟩
  · simp
  · simp
  · simp
  · simp

end Ends

/-! ### The edge over a history -/

/-- The edge an event links or unlinks, under the registry it meets. -/
def linkEdge (graph : Graph) : EventPayload → Option (MemoryId × MemoryId × RelationName)
  | .linkCreated fromId toId label .. | .linkRemoved fromId toId label =>
    some (canonicalEdge graph fromId toId label)
  | _ => none

/-- None of the events, folded from a graph, creates or removes an edge. -/
def LeavesEdge (edge : MemoryId × MemoryId × RelationName) : Graph → List Event → Prop
  | _, [] => True
  | graph, event :: rest =>
    linkEdge graph event.payload ≠ some edge ∧
      ∀ after, apply event graph = .ok after → LeavesEdge edge after rest

section History

variable {graph before after one two three : Graph} {event : Event} {events : List Event}
variable {label label' : RelationName} {fromId toId fromId' toId' first second : MemoryId}
variable {edge : MemoryId × MemoryId × RelationName} {link : LinkRow}

theorem canonicalEdge_of_relation {row : RelationRow} (found : graph.relation label = some row) :
    canonicalEdge graph fromId toId label =
      ((row.ends label fromId toId).1, (row.ends label fromId toId).2, row.name) := by
  unfold relation at found
  rw [canonicalEdge, found]
  dsimp only [RelationRow.ends, RelationRow.points, sortEnds]
  split
  · split <;> rfl
  · split <;> rfl

theorem mem_links_apply (applied : apply event before = .ok after)
    (other : linkEdge before event.payload ≠ some link.key) (stored : link ∈ before.links) :
    link ∈ after.links := by
  rw [apply_links applied]
  unfold linksAfter
  split
  · rename_i payload
    rw [payload] at other
    refine Table.mem_upsert.mpr (.inl ⟨stored, fun same => other ?_⟩)
    exact congrArg some same.symm
  · rename_i payload
    rw [payload] at other
    refine Table.mem_delete.mpr ⟨stored, decide_eq_false fun same => other ?_⟩
    exact congrArg some same.symm
  · exact stored

theorem mem_links_fold (folded : foldLog apply events before = .ok after)
    (leaves : LeavesEdge link.key before events) (stored : link ∈ before.links) :
    link ∈ after.links := by
  induction events generalizing before with
  | nil =>
    cases folded
    exact stored
  | cons event rest ih =>
    obtain ⟨middle, applied, remaining⟩ := foldLog_cons_ok.mp folded
    exact ih remaining (leaves.2 middle applied) (mem_links_apply applied leaves.1 stored)

theorem relations_contains_fold {name : RelationName}
    (folded : foldLog apply events before = .ok after)
    (registered : before.relations.contains name = true) :
    after.relations.contains name = true := by
  induction events generalizing before with
  | nil =>
    cases folded
    exact registered
  | cons event rest ih =>
    obtain ⟨middle, applied, remaining⟩ := foldLog_cons_ok.mp folded
    refine ih remaining ?_
    rw [apply_relations applied]
    unfold relationsAfter
    split
    · exact Table.contains_upsert_of_contains registered
    · exact registered

theorem stored_of_created {seq : Nat} {recordedAt : Timestamp} {source : EventSource}
    {linkSource : LinkSource} {toldBy : Option Teller} {toldIn : Option ConversationRef}
    {visibility : Visibility}
    (created : apply ⟨seq, recordedAt, source,
      .linkCreated fromId toId label linkSource toldBy toldIn visibility⟩ before = .ok after) :
    ∃ link ∈ after.links, link.key = canonicalEdge before fromId toId label ∧
      postureFromRow link = ⟨linkSource, toldBy, toldIn, visibility⟩ := by
  obtain ⟨link, member, key⟩ : ∃ link ∈ after.links,
      link.key = canonicalEdge before fromId toId label := by
    rw [apply_links created]
    exact Table.contains_iff.mp Table.contains_upsert
  refine ⟨link, member, key, ?_⟩
  rw [apply_links created] at member
  rcases Table.mem_upsert.mp member with ⟨_, different⟩ | ⟨old, _, _, rfl⟩ | ⟨_, rfl⟩
  · exact absurd key different
  · rfl
  · rfl

theorem canonicalEdge_eq_iff {row : RelationRow} (found : before.relation label = some row)
    (kept : after.relations.contains row.name = true)
    (pair : (fromId' = fromId ∧ toId' = toId) ∨ (fromId' = toId ∧ toId' = fromId)) :
    canonicalEdge after fromId' toId' label' = canonicalEdge before fromId toId label ↔
      ∃ other, after.relation label' = some other ∧ row.name = other.name ∧
        row.KeepsEnds other label fromId toId label' fromId' toId' := by
  rw [canonicalEdge_of_relation found]
  cases known : after.relation label' with
  | none =>
    -- a label nobody carries is kept as given, and the relation's name is carried
    refine iff_of_false (fun same => ?_) (fun ⟨_, impossible, _⟩ => nomatch impossible)
    have unknown : canonicalEdge after fromId' toId' label' = (fromId', toId', label') := by
      unfold relation at known
      rw [canonicalEdge, known]
    rw [unknown] at same
    obtain ⟨named, member, key⟩ := Table.contains_iff.mp kept
    have label_eq : label' = row.name := congrArg (fun edge => edge.2.2) same
    have carried := List.find?_eq_none.mp known named member
    rw [label_eq, key] at carried
    simp at carried
  | some other =>
    rw [canonicalEdge_of_relation known]
    constructor
    · intro same
      have name : other.name = row.name := congrArg (fun edge => edge.2.2) same
      refine ⟨other, rfl, name.symm, (ends_eq_iff pair).mp ?_⟩
      exact Prod.ext (congrArg Prod.fst same).symm (congrArg (fun edge => edge.2.1) same).symm
    · rintro ⟨_, same, name, keeps⟩
      cases same
      rw [(ends_eq_iff pair).mpr keeps, name]

theorem names_pair {row other : RelationRow} (names : row.Names first second label fromId toId)
    (names' : other.Names first second label' fromId' toId') :
    (fromId' = fromId ∧ toId' = toId) ∨ (fromId' = toId ∧ toId' = fromId) := by
  rcases names.ends with ⟨rfl, rfl⟩ | ⟨rfl, rfl⟩
  · exact names'.ends
  · exact names'.ends.symm

theorem relation_of_names {row : RelationRow} (member : row ∈ graph.relations)
    (names : row.Names first second label fromId toId) :
    ∃ found ∈ graph.relations, graph.relation label = some found := by
  have some : (graph.relation label).isSome = true :=
    List.find?_isSome.mpr ⟨row, member, names.carries⟩
  obtain ⟨found, known⟩ := Option.isSome_iff_exists.mp some
  exact ⟨found, List.mem_of_find?_eq_some known, known⟩

/-- A link asserted under a label of a relation is found under a label of the relation, and
removed under it for good, exactly when the registry then reads the label as it read the
first one, and stores no second row for the relationship. -/
theorem unlinked_iff {seq seq' : Nat} {recordedAt recordedAt' : Timestamp}
    {eventSource eventSource' : EventSource} {source : LinkSource} {toldBy : Option Teller}
    {toldIn : Option ConversationRef} {visibility : Visibility} {registered later : RelationRow}
    (known : registered ∈ before.relations)
    (names : registered.Names first second label fromId toId)
    (created : apply ⟨seq, recordedAt, eventSource,
      .linkCreated fromId toId label source toldBy toldIn visibility⟩ before = .ok one)
    (between : foldLog apply events one = .ok two)
    (leaves : LeavesEdge (canonicalEdge before fromId toId label) one events)
    (_later : two.relations.find registered.name = some later)
    (names' : registered.Names first second label' fromId' toId' ∨
      later.Names first second label' fromId' toId')
    (removed : apply ⟨seq', recordedAt', eventSource', .linkRemoved fromId' toId' label'⟩ two =
      .ok three) :
    (two.linkBetween fromId' toId' label' = some ⟨source, toldBy, toldIn, visibility⟩ ∧
      ∀ link ∈ three.links, link.key ≠ canonicalEdge before fromId toId label ∧
        ¬ later.Records first second link) ↔
    ∃ meant meant', before.relation label = some meant ∧ two.relation label' = some meant' ∧
      meant.name = meant'.name ∧
      meant.KeepsEnds meant' label fromId toId label' fromId' toId' ∧
      ∀ link ∈ two.links, later.Records first second link →
        link.key = canonicalEdge before fromId toId label := by
  obtain ⟨meant, inside, found⟩ := relation_of_names known names
  have unchanged : one.relations = before.relations := apply_relations created
  have kept : two.relations.contains meant.name = true := by
    refine relations_contains_fold between ?_
    rw [unchanged]
    exact Table.contains_of_mem inside
  have pair : (fromId' = fromId ∧ toId' = toId) ∨ (fromId' = toId ∧ toId' = fromId) := by
    rcases names' with earlier | now
    · exact names_pair names earlier
    · exact names_pair names now
  have meaning := @canonicalEdge_eq_iff before two label label' _ _ _ _ meant found kept pair
  obtain ⟨link, stored, key, posture⟩ := stored_of_created created
  have present : link ∈ two.links := mem_links_fold between (key ▸ leaves) stored
  have rows : three.links = two.links.delete
      (·.key = canonicalEdge two fromId' toId' label') := apply_links removed
  constructor
  · rintro ⟨_, gone⟩
    -- the stored row can only have gone through the edge the label means now
    have edge : canonicalEdge two fromId' toId' label' = canonicalEdge before fromId toId label := by
      by_contra other
      have remains : link ∈ three.links := by
        rw [rows]
        exact Table.mem_delete.mpr ⟨present, decide_eq_false fun hit =>
          other (hit.symm.trans key)⟩
      exact (gone link remains).1 key
    obtain ⟨meant', known', name, keeps⟩ := meaning.mp edge
    refine ⟨meant, meant', found, known', name, keeps, fun second within records => ?_⟩
    by_contra apart
    have remains : second ∈ three.links := by
      rw [rows, edge]
      exact Table.mem_delete.mpr ⟨within, decide_eq_false apart⟩
    exact (gone second remains).2 records
  · rintro ⟨_, meant', found', known', name, keeps, only⟩
    cases found.symm.trans found'
    have edge := meaning.mpr ⟨meant', known', name, keeps⟩
    constructor
    · have exact' : two.links.find (canonicalEdge two fromId' toId' label') = some link :=
        Table.find_eq_some_iff.mpr ⟨present, key.trans edge.symm⟩
      rw [linkBetween, exact']
      exact congrArg some posture
    · intro other remains
      rw [rows, edge] at remains
      obtain ⟨within, spared⟩ := Table.mem_delete.mp remains
      have apart : other.key ≠ canonicalEdge before fromId toId label := of_decide_eq_false spared
      exact ⟨apart, fun records => apart (only other within records)⟩

end History

/-! ### A relation that becomes symmetric -/

namespace Met

def vocabulary : List EventPayload :=
  [.linkTypeRegistered ⟨"met"⟩ ⟨"met_by"⟩ .many .many false false "",
    .memoryCreated ⟨1⟩ ⟨"person/ana"⟩, .memoryCreated ⟨2⟩ ⟨"person/ben"⟩]

def known : Graph :=
  ((commit ⟨0⟩ .agent vocabulary Graph.fresh).toOption).getD Graph.fresh

/-- The relation as it is registered at first, and as it is registered again. -/
def registered (symmetric : Bool) : RelationRow :=
  { name := ⟨"met"⟩, inverse := ⟨"met_by"⟩, fromCard := .many, toCard := .many, symmetric,
    reflexive := false, description := "" }

def created : Event :=
  ⟨4, ⟨1⟩, .agent, .linkCreated ⟨2⟩ ⟨1⟩ ⟨"met"⟩ .agent none none .public⟩

def registeredAgain (symmetric : Bool) : Event :=
  ⟨5, ⟨2⟩, .agent, .linkTypeRegistered ⟨"met"⟩ ⟨"met_by"⟩ .many .many symmetric false ""⟩

def removed (fromId toId : MemoryId) (label : RelationName) : Event :=
  ⟨6, ⟨3⟩, .agent, .linkRemoved fromId toId label⟩

/-- A graph after an event. -/
def after (event : Event) (graph : Graph) : Graph := ((apply event graph).toOption).getD graph

/-- Once the relation is symmetric, the link is looked for the other way round and stays. -/
theorem stranded_by_registration :
    Reachable known ∧ registered false ∈ known.relations ∧
      (registered false).Names ⟨2⟩ ⟨1⟩ ⟨"met"⟩ ⟨2⟩ ⟨1⟩ ∧
      apply created known = .ok (after created known) ∧
      foldLog apply [registeredAgain true] (after created known) =
        .ok (after (registeredAgain true) (after created known)) ∧
      apply (removed ⟨2⟩ ⟨1⟩ ⟨"met"⟩) (after (registeredAgain true) (after created known)) =
        .ok (after (removed ⟨2⟩ ⟨1⟩ ⟨"met"⟩)
          (after (registeredAgain true) (after created known))) ∧
      ∃ link ∈ (after (removed ⟨2⟩ ⟨1⟩ ⟨"met"⟩)
          (after (registeredAgain true) (after created known))).links,
        (registered true).Records ⟨2⟩ ⟨1⟩ link := by
  have told : commit ⟨0⟩ .agent vocabulary Graph.fresh = .ok known := rfl
  refine ⟨Reachable.fresh.commit told, by decide, .inl ⟨rfl, rfl, rfl⟩, rfl, rfl, rfl, ?_⟩
  exact ⟨_, List.mem_cons_self, rfl, .inl ⟨rfl, rfl⟩⟩

/-- Registered again as it was, the link goes under the inverse label. -/
theorem unlinked_by_inverse :
    (after (registeredAgain false) (after created known)).linkBetween ⟨1⟩ ⟨2⟩ ⟨"met_by"⟩ =
        some ⟨.agent, none, none, .public⟩ ∧
      ∀ link ∈ (after (removed ⟨1⟩ ⟨2⟩ ⟨"met_by"⟩)
          (after (registeredAgain false) (after created known))).links,
        link.key ≠ canonicalEdge known ⟨2⟩ ⟨1⟩ ⟨"met"⟩ ∧
          ¬ (registered false).Records ⟨2⟩ ⟨1⟩ link := by
  have spared : LeavesEdge (canonicalEdge known ⟨2⟩ ⟨1⟩ ⟨"met"⟩) (after created known)
      [registeredAgain false] := ⟨nofun, fun _ _ => trivial⟩
  refine (unlinked_iff (show registered false ∈ known.relations by decide)
    (.inl ⟨rfl, rfl, rfl⟩) (show apply created known = .ok (after created known) from rfl)
    (show foldLog apply [registeredAgain false] (after created known) = .ok _ from rfl) spared
    (show _ = some (registered false) from rfl) (.inl (.inr (.inl ⟨rfl, rfl, rfl⟩)))
    (show apply (removed ⟨1⟩ ⟨2⟩ ⟨"met_by"⟩) _ = .ok _ from rfl)).mpr ?_
  refine ⟨registered false, registered false, rfl, rfl, rfl, rfl, fun link stored _ => ?_⟩
  rw [List.mem_singleton.mp stored]
  rfl

end Met

end Zuihitsu.Graph
