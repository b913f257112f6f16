/-
# Identities behind a deleted primary

A class is named after its primary, which is chosen among all its memories, deleted or
not, and is not chosen again when the primary is deleted. The search and the link
readers report a class under its name alone. So a class with live members is reported
exactly while the memory it is named after is live.
-/

import Zuihitsu.Search.Blend
import Zuihitsu.Visibility.Presence

namespace Zuihitsu.Search

open Zuihitsu.Core Zuihitsu.Graph Zuihitsu.Library Zuihitsu.MemoryBlock

/-- The memory a class is named after is live. -/
def PrimaryLive (graph : Graph) (member : MemoryId) : Prop :=
  (graph.memoryById (graph.classOf member)).isSome = true

/-- A hit is for the class of a memory, and carries a live memory of it. -/
def HitFor (graph : Graph) (member : MemoryId) (hit : SearchHit) : Prop :=
  graph.memoryById hit.memory.id = some hit.memory ∧
    graph.classOf hit.memory.id = graph.classOf member

/-- What the fetched candidates hold of a memory: its description, an entry of it that the
audience may see, or a lexical match. -/
inductive FoundOn {ε : Type} (engine : SearchEngine ε) (graph : Graph) (query : SearchQuery ε)
    (index : VectorIndex ε) (limit : Nat) (member : MemoryId) : Prop
  | description {score : Rat}
      (fetched : ⟨.description member, score⟩ ∈
        searchVectors engine.similarity index query.embedding (overFetch limit))
  | entry {id : EntryId} {score : Rat} {memory : MemoryView} {entry : EntryView}
      (fetched : ⟨.entry id, score⟩ ∈
        searchVectors engine.similarity index query.embedding (overFetch limit))
      (stored : graph.entryById id = some (memory, entry)) (held : memory.id = member)
      (shown : entryShown graph query.presentSet memory entry = true)
  | lexical {hit : LexicalMatch} (fetched : hit ∈ lexicalHits engine graph query limit)
      (held : hit.id = member)

/-- A link handed back stands for an edge: it runs the same way under the same relation, to a
live memory of the class at the far end. -/
structure StandsFor (graph : Graph) (edge : LinkRow) (direction : LinkDirection) (far : MemoryId)
    (link : LinkRef) : Prop where
  relation : link.relation = edge.relation
  direction : link.direction = direction
  live : (graph.memoryById link.other).isSome = true
  far : graph.classOf link.other = graph.classOf far

/-- An edge from the class of a memory to a live memory of another class, which the audience may
see. -/
structure EdgeTo (graph : Graph) (presentSet : List MemoryId) (id : MemoryId) (edge : LinkRow)
    (direction : LinkDirection) (far : MemoryId) : Prop where
  stored : edge ∈ graph.links
  near : (match direction with
    | .outgoing => edge.fromId
    | .incoming => edge.toId) ∈ graph.classMembers id
  ends : (match direction with
    | .outgoing => edge.toId
    | .incoming => edge.fromId) = far
  live : (graph.liveRow far).isSome = true
  other : graph.classOf far ≠ graph.classOf id
  visible : presentSet = [] ∨ linkShown graph presentSet edge.relation edge.linkVis = true

section Classes

variable {graph : Graph} {id member : MemoryId}

end Classes

/-! ### Search -/

section Hits

variable {ε : Type} {engine : SearchEngine ε} {settings : SearchSettings} {now : Timestamp}
variable {graph : Graph} {query : SearchQuery ε} {index : VectorIndex ε} {limit : Nat}
variable {member : MemoryId} {hits : List ClassHit} {matches' : List LexicalMatch}

theorem mem_candidates {primary : MemoryId} :
    primary ∈ candidates graph hits matches' ↔
      (∃ hit ∈ hits, hit.primary = primary) ∨
        ∃ found ∈ matches', graph.classOf found.id = primary := by
  have keys := fun names => @mem_keys_firsts _ _ _ (id : MemoryId → MemoryId) names primary
  simp only [List.map_id] at keys
  rw [candidates, List.mem_insertionSort, keys, List.mem_append, List.mem_map, lexicalClasses, keys,
    List.mem_map]

theorem FoundOn.candidate (found : FoundOn engine graph query index limit member) :
    graph.classOf member ∈ candidates graph (classHits engine graph query index limit)
      (lexicalHits engine graph query limit) := by
  rw [mem_candidates]
  cases found with
  | description fetched =>
    refine .inl ⟨_, List.mem_filterMap.mpr ⟨_, fetched, rfl⟩, rfl⟩
  | @entry id score memory entry fetched stored held shown =>
    refine .inl ⟨⟨graph.classOf memory.id, max score 0, some (memory, entry)⟩,
      List.mem_filterMap.mpr ⟨_, fetched, ?_⟩, by rw [held]⟩
    simp [classHit, stored, shown]
  | lexical fetched held => exact .inr ⟨_, fetched, by rw [held]⟩

theorem searchHit_isSome (engine : SearchEngine ε) (settings : SearchSettings) (now : Timestamp)
    {id : MemoryId} (unscoped : query.namespacePrefix = none) :
    (searchHit engine settings now graph query hits matches' id).isSome =
      (graph.memoryById id).isSome := by
  simp only [searchHit, unscoped, Option.isSome_map]
  cases graph.memoryById id <;> simp

theorem searchHit_memory {id : MemoryId} {hit : SearchHit}
    (made : searchHit engine settings now graph query hits matches' id = some hit) :
    graph.memoryById id = some hit.memory := by
  obtain ⟨memory, found, rfl⟩ := Option.map_eq_some_iff.mp made
  exact (Option.filter_eq_some_iff.mp found).1

theorem mem_search (unreached : (search engine settings now graph query index limit).length < limit)
    {hit : SearchHit} :
    hit ∈ search engine settings now graph query index limit ↔
      ∃ id ∈ candidates graph (classHits engine graph query index limit)
          (lexicalHits engine graph query limit),
        searchHit engine settings now graph query (classHits engine graph query index limit)
          (lexicalHits engine graph query limit) id = some hit := by
  unfold search at unreached ⊢
  dsimp only at unreached ⊢
  rw [List.length_take, min_lt_iff] at unreached
  rw [List.take_of_length_le (unreached.resolve_left (lt_irrefl limit)).le, List.mem_insertionSort,
    List.mem_filterMap]

theorem reported_iff (reachable : Reachable graph) (unscoped : query.namespacePrefix = none)
    (found : FoundOn engine graph query index limit member)
    (unreached : (search engine settings now graph query index limit).length < limit) :
    (∃ hit ∈ search engine settings now graph query index limit, HitFor graph member hit) ↔
      PrimaryLive graph member := by
  constructor
  · rintro ⟨hit, returned, _, same⟩
    obtain ⟨id, candidate, made⟩ := (mem_search unreached).mp returned
    have there := searchHit_memory made
    have owner := memoryById_id there
    -- a candidate is the name of a class, and so is its own
    have named : graph.classOf id = id := by
      rcases mem_candidates.mp candidate with ⟨found, member, rfl⟩ | ⟨found, _, rfl⟩
      · obtain ⟨vector, _, kept⟩ := List.mem_filterMap.mp member
        obtain ⟨other, primary⟩ : ∃ other, found.primary = graph.classOf other := by
          unfold classHit at kept
          dsimp only at kept
          split at kept
          · cases kept
            exact ⟨_, rfl⟩
          · obtain ⟨⟨memory, entry⟩, _, kept⟩ := Option.bind_eq_some_iff.mp kept
            dsimp only at kept
            split at kept
            · cases kept
              exact ⟨_, rfl⟩
            · cases kept
          · cases kept
        rw [primary]
        exact classOf_idem reachable other
      · exact classOf_idem reachable _
    rw [owner, named] at same
    rw [PrimaryLive, ← same, there]
    rfl
  · intro live
    obtain ⟨hit, made⟩ := Option.isSome_iff_exists.mp
      ((searchHit_isSome engine settings now unscoped).trans live)
    have there := searchHit_memory made
    have owner := memoryById_id there
    refine ⟨hit, (mem_search unreached).mpr ⟨_, found.candidate, made⟩, ?_, ?_⟩
    · rwa [owner]
    · rw [owner, classOf_idem reachable]

end Hits

/-! ### Links -/

section Links

variable {graph : Graph} {presentSet : List MemoryId} {id far : MemoryId} {edge : LinkRow}
variable {direction : LinkDirection}

theorem outwardEdge_far {outward : OutwardEdge}
    (leaves : outwardEdge graph presentSet id edge = some outward) :
    ∃ other, outward.far = graph.classOf other := by
  obtain ⟨⟨_, other⟩, _, kept⟩ := Option.bind_eq_some_iff.mp leaves
  dsimp only at kept
  split at kept
  · cases kept
  · split at kept
    · cases kept
    · cases kept
      exact ⟨other, rfl⟩

namespace EdgeTo

variable (edgeTo : EdgeTo graph presentSet id edge direction far)
include edgeTo

theorem mem_classLinks : edge ∈ graph.classLinks id := by
  have near := mem_classMembers.mp edgeTo.near
  have nearLive := live_of_inClass near
  have farLive := edgeTo.live
  rw [← edgeTo.ends] at farLive
  rw [Graph.mem_classLinks]
  cases direction with
  | outgoing => exact ⟨edgeTo.stored, nearLive, farLive, .inl near⟩
  | incoming => exact ⟨edgeTo.stored, farLive, nearLive, .inr near⟩

theorem farEnd_eq : farEnd graph id edge = some (direction, far) := by
  have near := mem_classMembers.mp edgeTo.near
  have outside : graph.inClass id far = false :=
    Bool.eq_false_iff.mpr fun within => edgeTo.other (classOf_of_inClass within)
  rw [← edgeTo.ends] at outside ⊢
  unfold farEnd
  cases direction with
  | outgoing | incoming => rw [near, outside]

theorem outwardEdge_eq (reachable : Reachable graph) :
    outwardEdge graph presentSet id edge = some ⟨edge, direction, graph.classOf far⟩ := by
  have outside : graph.inClass id (graph.classOf far) = false := by
    refine Bool.eq_false_iff.mpr fun within => edgeTo.other ?_
    rw [← classOf_idem reachable far, classOf_of_inClass within]
  rw [outwardEdge, edgeTo.farEnd_eq, Option.bind_some]
  dsimp only
  rw [outside]
  rcases edgeTo.visible with nobody | shown
  · simp [nobody]
  · simp [shown]

theorem shown_iff (reachable : Reachable graph) :
    (∃ link ∈ classLinkRefs graph presentSet id, StandsFor graph edge direction far link) ↔
      PrimaryLive graph far := by
  constructor
  · rintro ⟨link, listed, stands⟩
    obtain ⟨outward, kept, made⟩ := List.mem_filterMap.mp listed
    obtain ⟨other, found, rfl⟩ := Option.map_eq_some_iff.mp made
    obtain ⟨stored, _, leaves⟩ := List.mem_filterMap.mp (mem_of_mem_firsts kept)
    obtain ⟨member, named⟩ := outwardEdge_far leaves
    have same : graph.classOf other.id = graph.classOf far := stands.far
    rw [memoryById_id found, named, classOf_idem reachable] at same
    rw [PrimaryLive, ← same, ← named, found]
    rfl
  · intro live
    have leaving := List.mem_filterMap.mpr ⟨edge, edgeTo.mem_classLinks, edgeTo.outwardEdge_eq reachable⟩
    obtain ⟨first, kept, same⟩ := List.mem_map.mp
      (mem_keys_firsts.mpr (List.mem_map_of_mem (f := OutwardEdge.key) leaving))
    obtain ⟨relation, turned, there⟩ :
        first.edge.relation = edge.relation ∧ first.direction = direction ∧
          first.far = graph.classOf far := by
      simp only [OutwardEdge.key, Prod.mk.injEq, decide_eq_decide] at same
      refine ⟨same.1, ?_, same.2.2⟩
      have both := same.2.1
      cases direction <;> cases turned : first.direction <;> simp [turned] at both ⊢
    obtain ⟨other, found⟩ := Option.isSome_iff_exists.mp live
    have listed : linkRef graph presentSet first ≠ none := by
      rw [linkRef, there, found]
      exact Option.some_ne_none _
    obtain ⟨link, made⟩ := Option.ne_none_iff_exists'.mp listed
    refine ⟨link, List.mem_filterMap.mpr ⟨first, kept, made⟩, ?_⟩
    rw [linkRef, there, found, Option.map_some, Option.some.injEq] at made
    subst made
    have named := memoryById_id found
    exact ⟨relation, turned, by rw [named, found]; rfl, by rw [named, classOf_idem reachable]⟩

end EdgeTo

/-- In every reachable graph the class of a memory that is found is reported by the search, and the
class at the far end of an edge by the links, exactly while the memory it is named after is live. -/
theorem live_identity_reported_iff (reachable : Reachable graph) (member : MemoryId) :
    (∀ (ε : Type) (engine : SearchEngine ε) (settings : SearchSettings) (now : Timestamp)
        (query : SearchQuery ε) (index : VectorIndex ε) (limit : Nat),
      query.namespacePrefix = none → FoundOn engine graph query index limit member →
        (search engine settings now graph query index limit).length < limit →
          ((∃ hit ∈ search engine settings now graph query index limit, HitFor graph member hit) ↔
            PrimaryLive graph member)) ∧
      ∀ (block : MemoryBlock) (id : MemoryId) (edge : LinkRow) (direction : LinkDirection),
        EdgeTo graph block.presentSet id edge direction member →
          ((∃ link ∈ links graph block id, StandsFor graph edge direction member link) ↔
            PrimaryLive graph member) := by
  refine ⟨?_, fun block id edge direction edgeTo => edgeTo.shown_iff reachable⟩
  intro ε engine settings now query index limit unscoped found unreached
  exact reported_iff reachable unscoped found unreached

end Links

/-! ### A merged person whose first account is deleted

Two accounts of one person are merged, another person knows the later account, and one of the two
accounts is deleted. -/

namespace Merged

def knows : RelationName := ⟨"knows"⟩

/-- The log, up to the deletion of an account. -/
def log (deleted : MemoryId) : List EventPayload :=
  [.linkTypeRegistered .sameAs .sameAs .many .many true false "",
    .linkTypeRegistered knows ⟨"known_by"⟩ .many .many false false "",
    .memoryCreated ⟨1⟩ ⟨"person/dave"⟩, .memoryCreated ⟨2⟩ ⟨"person/dave@chat"⟩,
    .memoryCreated ⟨3⟩ ⟨"person/erin"⟩, .linkCreated ⟨3⟩ ⟨2⟩ knows .agent none none .public,
    .linkCreated ⟨2⟩ ⟨1⟩ .sameAs .operator none none .public, .memoryDeleted deleted]

/-- The graph the log leaves. -/
def graph (deleted : MemoryId) : Graph :=
  ((commit ⟨0⟩ .operator (log deleted) Graph.fresh).toOption).getD Graph.fresh

theorem graph_reachable {deleted : MemoryId}
    (answers : (commit ⟨0⟩ .operator (log deleted) Graph.fresh).isOk = true) :
    Reachable (graph deleted) := by
  have committed : commit ⟨0⟩ .operator (log deleted) Graph.fresh = .ok (graph deleted) := by
    rw [graph]
    cases outcome : commit ⟨0⟩ .operator (log deleted) Graph.fresh with
    | ok => rfl
    | error =>
      rw [outcome] at answers
      cases answers
  exact Reachable.fresh.commit committed

def engine : SearchEngine Unit where
  similarity _ _ := 1
  fts5 := Rose.wholeColumns
  bm25 _ _ := 0
  exp _ := 0
  turn _ := ""

def settings : SearchSettings := ⟨1, 1, 1, 0, ⟨1, 1, 1⟩⟩

def query : SearchQuery Unit := ⟨"", (), none, [], [⟨3⟩]⟩

/-- An index that holds the description of one memory. -/
def index (described : MemoryId) : VectorIndex Unit where
  vectors := ⟨[⟨.description described, (), "model"⟩], List.nodup_singleton _⟩

def edge : LinkRow := ⟨⟨3⟩, ⟨2⟩, knows, .agent, none, none, .public, ⟨0⟩⟩

theorem found (graph : Graph) (described : MemoryId) :
    FoundOn engine graph query (index described) 10 described :=
  .description (List.mem_singleton_self (⟨.description described, 1⟩ : VectorHit))

theorem edge_stored : edge ∈ (graph ⟨1⟩).links := by decide

def turn : MemoryBlock := MemoryBlock.open (graph ⟨1⟩) .agent .platform none none [⟨3⟩] 4000

/-- The account that is left is found, and there is an edge to it, but with the primary deleted
neither the search nor the links report the person. -/
theorem deleted_primary_hides_person :
    Reachable (graph ⟨1⟩) ∧ ((graph ⟨1⟩).liveRow ⟨2⟩).isSome = true ∧
      FoundOn engine (graph ⟨1⟩) query (index ⟨2⟩) 10 ⟨2⟩ ∧ query.namespacePrefix = none ∧
      (search engine settings ⟨1⟩ (graph ⟨1⟩) query (index ⟨2⟩) 10).length < 10 ∧
      (¬∃ hit ∈ search engine settings ⟨1⟩ (graph ⟨1⟩) query (index ⟨2⟩) 10,
        HitFor (graph ⟨1⟩) ⟨2⟩ hit) ∧
      EdgeTo (graph ⟨1⟩) turn.presentSet ⟨3⟩ edge .outgoing ⟨2⟩ ∧
      ¬∃ link ∈ links (graph ⟨1⟩) turn ⟨3⟩, StandsFor (graph ⟨1⟩) edge .outgoing ⟨2⟩ link := by
  have nothing : search engine settings ⟨1⟩ (graph ⟨1⟩) query (index ⟨2⟩) 10 = [] := by decide
  have alone : links (graph ⟨1⟩) turn ⟨3⟩ = [] := by decide
  refine ⟨graph_reachable rfl, by decide, found _ _, rfl, ?_, ?_, ?_, ?_⟩
  · rw [nothing]
    decide
  · rw [nothing]
    exact fun ⟨hit, returned, _⟩ => List.not_mem_nil returned
  · exact ⟨edge_stored, by decide, rfl, by decide, by decide, .inr (by decide)⟩
  · rw [alone]
    exact fun ⟨link, listed, _⟩ => List.not_mem_nil listed

/-- From the account that is left Erin is found, and the edge from her is shown. -/
theorem live_identity_reported_iff_erin :
    (∃ hit ∈ search engine settings ⟨1⟩ (graph ⟨1⟩) query (index ⟨3⟩) 10,
      HitFor (graph ⟨1⟩) ⟨3⟩ hit) ∧
    ∃ link ∈ links (graph ⟨1⟩) turn ⟨2⟩, StandsFor (graph ⟨1⟩) edge .incoming ⟨3⟩ link := by
  have reachable : Reachable (graph ⟨1⟩) := graph_reachable rfl
  have reports := live_identity_reported_iff reachable ⟨3⟩
  have live : PrimaryLive (graph ⟨1⟩) ⟨3⟩ := by
    rw [PrimaryLive]
    decide
  refine ⟨(reports.1 Unit engine settings ⟨1⟩ query (index ⟨3⟩) 10 rfl (found _ _) ?_).mpr live, ?_⟩
  · decide
  · refine (reports.2 _ ⟨2⟩ edge .incoming ?_).mpr live
    exact ⟨edge_stored, by decide, rfl, by decide, by decide, .inr (by decide)⟩

end Merged

end Zuihitsu.Search
