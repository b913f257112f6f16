/-
# Link visibility

The posture logic of entries applied to edges. A directed link is guarded against
its stored target and a symmetric one against both endpoints, the teller's own
class apart. The write-time default looks at the endpoints as the caller gave them:
a participant's assertion about another person is private, whichever end of it the
participant takes. The main result says when the guard makes good on that default.
-/

import Zuihitsu.Block.Links
import Zuihitsu.Graph.Registry
import Zuihitsu.Visibility.Presence

namespace Zuihitsu

open Zuihitsu.Core Zuihitsu.Graph Zuihitsu.Library Zuihitsu.MemoryBlock

/-- The fields of a link that the predicate reasons over. -/
structure LinkVis where
  fromId : MemoryId
  toId : MemoryId
  visibility : Visibility
  toldBy : Option Teller
  toldIn : Option ConversationRef

/-- The fields of a stored link that the predicate reasons over. -/
def Graph.LinkRow.linkVis (row : LinkRow) : LinkVis :=
  ⟨row.fromId, row.toId, row.visibility, row.toldBy, row.toldIn⟩

section Predicate

variable {ε : Type} (classOf : ClassOf ε)

/-- Whether a present subject suppresses a link. -/
def linkSubjectBlocks (fromId toId : MemoryId) (symmetric : Bool) (teller : Teller)
    (presentSet : List MemoryId) : Except ε Bool :=
  let subjects := if symmetric then [fromId, toId] else [toId]
  subjects.anyM fun subject => do
    if ← tellerIs classOf subject teller then return false
    isPresent classOf subject presentSet

/-- The verdict on a link, with its reason. A link nobody is on record for is the
agent's. -/
def linkExplain (link : LinkVis) (symmetric : Bool) (presentSet : List MemoryId) :
    Except ε VisibilityDecision :=
  let teller := link.toldBy.getD .agent
  match link.visibility with
  | .public => .ok .public
  | .attributed => .ok .attributed
  | .privateToTeller => do
    if !(← tellerPresent classOf teller presentSet) then return .tellerAbsent
    if ← linkSubjectBlocks classOf link.fromId link.toId symmetric teller presentSet then
      return .subjectPresent
    return .tellerPresent
  | .exclude excluded => do
    if !(← tellerPresent classOf teller presentSet) then return .tellerAbsent
    if !(← noExcludeePresent classOf excluded presentSet) then return .excludeePresent
    if ← linkSubjectBlocks classOf link.fromId link.toId symmetric teller presentSet then
      return .subjectPresent
    return .notExcluded

/-- Whether a link may surface to the participants present. -/
def linkVisible (link : LinkVis) (symmetric : Bool) (presentSet : List MemoryId) :
    Except ε Bool := do
  return (← linkExplain classOf link symmetric presentSet).isVisible

end Predicate

/-- Whether the relation a link is stored under is symmetric, as the link readers ask. -/
def relationSymmetric (graph : Graph) (relation : RelationName) : Bool :=
  ((graph.relation relation).map (·.symmetric)).getD false

/-- A stored link surfaces to an audience, as the link readers of a graph decide it. -/
def LinkShown (graph : Graph) (row : LinkRow) (presentSet : List MemoryId) : Prop :=
  linkVisible (blockClassOf graph) row.linkVis (relationSymmetric graph row.relation) presentSet =
    .ok true

/-! ### The guard of a private link -/

section Guard

variable {graph : Graph} {presentSet : List MemoryId} {teller : MemoryId}

theorem tellerIs_eq (graph : Graph) (subject teller : MemoryId) :
    tellerIs (blockClassOf graph) subject (.participant teller) =
      .ok (decide (graph.classOf teller = graph.classOf subject)) := rfl

theorem linkSubjectBlocks_eq (graph : Graph) (fromId toId : MemoryId) (symmetric : Bool)
    (teller : MemoryId) (presentSet : List MemoryId) :
    linkSubjectBlocks (blockClassOf graph) fromId toId symmetric (.participant teller) presentSet =
      .ok (decide (∃ subject ∈ if symmetric then [fromId, toId] else [toId],
        graph.classOf teller ≠ graph.classOf subject ∧
          ∃ present ∈ presentSet, graph.classOf present = graph.classOf subject)) := by
  unfold linkSubjectBlocks
  simp only [tellerIs_eq, isPresent_eq, bind, Except.bind, pure, Except.pure]
  induction (if symmetric then [fromId, toId] else [toId]) with
  | nil => rfl
  | cons subject rest ih =>
    simp only [List.anyM, bind, Except.bind, pure, Except.pure, List.exists_mem_cons_iff]
    by_cases own : graph.classOf teller = graph.classOf subject
    · simp only [own, decide_true, if_true, ne_eq, not_true_eq_false, false_and, false_or]
      simpa only [own] using ih
    · by_cases here : ∃ present ∈ presentSet, graph.classOf present = graph.classOf subject
      · simp [own, here]
      · simp only [own, here, decide_false, Bool.false_eq_true, if_false, and_false, false_or]
        exact ih

theorem linkShown_iff {row : LinkRow} (told : row.toldBy = some (.participant teller))
    (closed : row.visibility = .privateToTeller) :
    LinkShown graph row presentSet ↔
      (∃ present ∈ presentSet, graph.classOf present = graph.classOf teller) ∧
        ∀ subject ∈ if relationSymmetric graph row.relation then [row.fromId, row.toId]
            else [row.toId],
          graph.classOf teller ≠ graph.classOf subject →
            ∀ present ∈ presentSet, graph.classOf present ≠ graph.classOf subject := by
  simp only [LinkShown, linkVisible, linkExplain, LinkRow.linkVis, told, closed, Option.getD_some,
    tellerPresent, isPresent_eq, linkSubjectBlocks_eq, bind, Except.bind, pure, Except.pure]
  by_cases heard : ∃ present ∈ presentSet, graph.classOf present = graph.classOf teller
  · by_cases blocked : ∃ subject ∈ if relationSymmetric graph row.relation then
        [row.fromId, row.toId] else [row.toId],
      graph.classOf teller ≠ graph.classOf subject ∧
        ∃ present ∈ presentSet, graph.classOf present = graph.classOf subject
    · simp only [heard, blocked, decide_true, Bool.not_true, Bool.false_eq_true, if_false, if_true,
        VisibilityDecision.isVisible, Except.ok.injEq, true_and, false_iff]
      obtain ⟨subject, among, other, present, attends, same⟩ := blocked
      exact fun clear => clear subject among other present attends same
    · simp only [heard, blocked, decide_true, decide_false, Bool.not_true, Bool.false_eq_true,
        if_false, VisibilityDecision.isVisible, true_and, true_iff]
      intro subject among other present attends same
      exact blocked ⟨subject, among, other, present, attends, same⟩
  · simp [heard, VisibilityDecision.isVisible]

end Guard

/-! ### The default against the guard -/

/-- A stored link is kept from a person: it surfaces to no audience with somebody of
their class in it. -/
def HiddenFrom (graph : Graph) (row : LinkRow) (person : MemoryId) : Prop :=
  ∀ presentSet, (∃ present ∈ presentSet, graph.classOf present = graph.classOf person) →
    ¬LinkShown graph row presentSet

section Default

variable {before after : Graph} {event : Event} {fromId toId teller other : MemoryId}
variable {fromName toName : MemoryName} {label : RelationName}

theorem defaultLinkVisibility_endpoint
    (fromPerson : subjectParticipant fromName fromId = some fromId)
    (toPerson : subjectParticipant toName toId = some toId) (distinct : fromId ≠ toId)
    (endpoint : teller = fromId ∨ teller = toId) :
    defaultLinkVisibility fromId fromName toId toName (.participant teller) = .privateToTeller := by
  rcases endpoint with rfl | rfl
  · simp [defaultLinkVisibility, fromPerson, toPerson, distinct]
  · simp [defaultLinkVisibility, fromPerson, toPerson, distinct, distinct.symm]

theorem link_recorded {source : LinkSource} {toldBy : Option Teller}
    {toldIn : Option ConversationRef} {visibility : Visibility}
    (payload : event.payload = .linkCreated fromId toId label source toldBy toldIn visibility)
    (applied : apply event before = .ok after) :
    ∃ row, after.links.find (canonicalEdge before fromId toId label) = some row ∧
      row.toldBy = toldBy ∧ row.visibility = visibility := by
  set edge := canonicalEdge before fromId toId label with edge_def
  set written : LinkRow :=
    { fromId := edge.1, toId := edge.2.1, relation := edge.2.2, source, toldBy, toldIn, visibility,
      assertedAt := event.recordedAt } with written_def
  have links : after.links =
      before.links.upsert written fun old => { old with source, toldBy, toldIn, visibility } := by
    rw [apply_links applied]
    simp only [linksAfter, payload, written_def, edge_def]
  rw [links]
  cases taken : before.links.contains edge with
  | true =>
    -- the edge was there: its posture is overwritten in place
    obtain ⟨old, member, same⟩ := Table.contains_iff.mp taken
    refine ⟨{ old with source, toldBy, toldIn, visibility }, ?_, rfl, rfl⟩
    exact Table.find_eq_some_iff.mpr ⟨Table.mem_upsert.mpr (.inr (.inl ⟨old, member, same, rfl⟩)), same⟩
  | false =>
    exact ⟨written, Table.find_eq_some_iff.mpr ⟨Table.mem_upsert.mpr (.inr (.inr ⟨taken, rfl⟩)), rfl⟩,
      rfl, rfl⟩

theorem hiddenFrom_iff {graph : Graph} {row : LinkRow}
    (told : row.toldBy = some (.participant teller)) (closed : row.visibility = .privateToTeller)
    (ends : (row.fromId = teller ∧ row.toId = other) ∨ (row.fromId = other ∧ row.toId = teller)) :
    HiddenFrom graph row other ↔
      graph.classOf teller ≠ graph.classOf other ∧
        (relationSymmetric graph row.relation = true ∨ row.toId = other) := by
  simp only [HiddenFrom, linkShown_iff told closed]
  constructor
  · intro hidden
    constructor
    · -- one person at both ends sees what they said themselves
      intro same
      refine hidden [other] ⟨other, List.mem_singleton_self _, rfl⟩
        ⟨⟨other, List.mem_singleton_self _, same.symm⟩, fun subject among different => ?_⟩
      refine absurd ?_ different
      have either : subject = row.fromId ∨ subject = row.toId := by
        split at among
        · simpa using among
        · exact .inr (by simpa using among)
      rcases ends with ⟨first, second⟩ | ⟨first, second⟩ <;> rcases either with rfl | rfl <;>
        simp [first, second, same]
    · by_contra open_
      rw [not_or] at open_
      -- the teller is at the guarded end, and is never kept from it
      have guarded : row.toId = teller := by
        rcases ends with ⟨_, second⟩ | ⟨_, second⟩
        · exact absurd second open_.2
        · exact second
      refine hidden [other, teller] ⟨other, by simp, rfl⟩ ⟨⟨teller, by simp, rfl⟩, ?_⟩
      intro subject among different
      rw [if_neg open_.1, List.mem_singleton, guarded] at among
      exact absurd (congrArg graph.classOf among.symm) different
  · rintro ⟨apart, guarded⟩ presentSet ⟨present, attends, same⟩ ⟨_, clear⟩
    have among : other ∈ if relationSymmetric graph row.relation then [row.fromId, row.toId]
        else [row.toId] := by
      rcases guarded with symmetric | target
      · rcases ends with ⟨_, second⟩ | ⟨first, _⟩
        · simp [symmetric, second]
        · simp [symmetric, first]
      · split <;> simp [target]
    exact clear other among apart present attends same

/-- A participant's link to another person, recorded at the default, is kept from that
person in every graph it is read in exactly when the two are not one person there and
the relation is symmetric, or the edge was stored as leaving the teller. -/
theorem default_link_hidden_iff {source : LinkSource} {toldIn : Option ConversationRef}
    (reader : Graph) (fromPerson : subjectParticipant fromName fromId = some fromId)
    (toPerson : subjectParticipant toName toId = some toId) (distinct : fromId ≠ toId)
    (ends : (teller = fromId ∧ other = toId) ∨ (teller = toId ∧ other = fromId))
    (payload : event.payload = .linkCreated fromId toId label source (some (.participant teller))
      toldIn (defaultLinkVisibility fromId fromName toId toName (.participant teller)))
    (applied : apply event before = .ok after) :
    ∃ row, after.links.find (canonicalEdge before fromId toId label) = some row ∧
      (HiddenFrom reader row other ↔
        reader.classOf teller ≠ reader.classOf other ∧
          (relationSymmetric reader (canonicalLabel before.relations label) = true ∨
            (canonicalEdge before fromId toId label).1 = teller)) := by
  obtain ⟨row, found, told, posture⟩ := link_recorded payload applied
  have closed : row.visibility = .privateToTeller := by
    rw [posture]
    exact defaultLinkVisibility_endpoint fromPerson toPerson distinct
      (ends.imp (fun first => first.1) fun second => second.1)
  have key := (Table.find_eq_some_iff.mp found).2
  have first : row.fromId = (canonicalEdge before fromId toId label).1 := congrArg Prod.fst key
  have second : row.toId = (canonicalEdge before fromId toId label).2.1 :=
    congrArg (·.2.1) key
  have relation : row.relation = canonicalLabel before.relations label := by
    rw [← canonicalEdge_label before fromId toId label]
    exact congrArg (·.2.2) key
  have stored := canonicalEdge_ends before fromId toId label
  -- the edge runs between the two, one way or the other
  have between : (row.fromId = teller ∧ row.toId = other) ∨
      (row.fromId = other ∧ row.toId = teller) := by
    rw [first, second]
    rcases ends with ⟨rfl, rfl⟩ | ⟨rfl, rfl⟩
    · exact stored
    · exact stored.symm
  have apart : teller ≠ other := by
    rcases ends with ⟨rfl, rfl⟩ | ⟨rfl, rfl⟩
    · exact distinct
    · exact distinct.symm
  have leaves : row.toId = other ↔ (canonicalEdge before fromId toId label).1 = teller := by
    rw [← first]
    rcases between with ⟨leaving, entering⟩ | ⟨leaving, entering⟩
    · simp [leaving, entering]
    · simp [leaving, entering, apart, apart.symm]
  refine ⟨row, found, ?_⟩
  rw [hiddenFrom_iff told closed between, leaves, relation]

end Default

/-! One person says who mentors them, under the relation's inverse label. -/

namespace Mentored

def vocabulary : List EventPayload :=
  [.linkTypeRegistered ⟨"mentors"⟩ ⟨"mentored_by"⟩ .many .many false false "",
    .memoryCreated ⟨1⟩ ⟨"person/ana"⟩, .memoryCreated ⟨2⟩ ⟨"person/ben"⟩]

def known : Graph :=
  ((commit ⟨0⟩ .agent vocabulary Graph.fresh).toOption).getD Graph.fresh

/-- Ana's assertion about Ben, at its default, under a label. -/
def assertion (label : RelationName) : Event :=
  ⟨4, ⟨1⟩, .agent, .linkCreated ⟨1⟩ ⟨2⟩ label .agent (some (.participant ⟨1⟩)) none
    (defaultLinkVisibility ⟨1⟩ ⟨"person/ana"⟩ ⟨2⟩ ⟨"person/ben"⟩ (.participant ⟨1⟩))⟩

/-- The graph after the link. -/
def linked (label : RelationName) : Graph :=
  ((Graph.apply (assertion label) known).toOption).getD known

/-- The link is private, and it surfaces to Ana and Ben together. -/
theorem inverse_label_shown :
    Reachable known ∧ (assertion ⟨"mentored_by"⟩).seq = known.head + 1 ∧
      Graph.apply (assertion ⟨"mentored_by"⟩) known = .ok (linked ⟨"mentored_by"⟩) ∧
      ∃ row, (linked ⟨"mentored_by"⟩).links.find
          (canonicalEdge known ⟨1⟩ ⟨2⟩ ⟨"mentored_by"⟩) = some row ∧
        row.visibility = .privateToTeller ∧ ¬HiddenFrom (linked ⟨"mentored_by"⟩) row ⟨2⟩ := by
  have told : commit ⟨0⟩ .agent vocabulary Graph.fresh = .ok known := rfl
  refine ⟨Reachable.fresh.commit told, rfl, rfl, _, rfl, rfl, fun hidden => ?_⟩
  exact hidden [⟨1⟩, ⟨2⟩] ⟨⟨2⟩, by decide, rfl⟩ rfl

/-- Under the relation's own name the link is kept from Ben, as the general result has
it. -/
theorem default_link_hidden_iff_mentors :
    ∃ row, (linked ⟨"mentors"⟩).links.find (canonicalEdge known ⟨1⟩ ⟨2⟩ ⟨"mentors"⟩) = some row ∧
      (HiddenFrom (linked ⟨"mentors"⟩) row ⟨2⟩ ↔
        (linked ⟨"mentors"⟩).classOf ⟨1⟩ ≠ (linked ⟨"mentors"⟩).classOf ⟨2⟩ ∧
          (relationSymmetric (linked ⟨"mentors"⟩)
              (canonicalLabel known.relations ⟨"mentors"⟩) = true ∨
            (canonicalEdge known ⟨1⟩ ⟨2⟩ ⟨"mentors"⟩).1 = ⟨1⟩)) := by
  have applied : Graph.apply (assertion ⟨"mentors"⟩) known = .ok (linked ⟨"mentors"⟩) := rfl
  exact default_link_hidden_iff _ (by decide) (by decide) (by decide) (.inl ⟨rfl, rfl⟩) rfl applied

end Mentored

end Zuihitsu
