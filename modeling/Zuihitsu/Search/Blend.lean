/-
# Multi-signal search

A search blends the similarity of vectors, the lexical rank, the overlap of tags and a
bonus for recency. Every signal is keyed by the primary of a hit's identity class. A
vector of an entry counts where the entry may surface to the audience, and the marker
and the snippet of a hit are drawn from such entries.

Scores are exact numbers. Of its libraries the search takes the similarity of two
embeddings, the full-text engine and its rank, the exponential, and the text of a turn.
-/

import Mathlib.Algebra.Order.Field.Rat
import Zuihitsu.Block.Edges
import Zuihitsu.Brief.Compose
import Zuihitsu.Search.Lexical
import Zuihitsu.Search.Vectors

namespace Zuihitsu.Search

open Zuihitsu.Core Zuihitsu.Graph Zuihitsu.Library Zuihitsu.MemoryBlock

/-! ### What a search is given -/

/-- The decay constant of each volatility, in days. -/
structure TauDays where
  high : Rat
  medium : Rat
  low : Rat

/-- The recency bonus and its decay. -/
structure RecencySettings where
  bonus : Rat
  tauDays : TauDays

/-- The weights of the blend. -/
structure SearchSettings where
  cosine : Rat
  bm25 : Rat
  tag : Rat
  recency : RecencySettings

/-- A search request. -/
structure SearchQuery (ε : Type) where
  text : String
  embedding : ε
  namespacePrefix : Option String
  tags : List TagName
  presentSet : List MemoryId

/-- What the search takes of its libraries. -/
structure SearchEngine (ε : Type) where
  similarity : ε → ε → Rat
  fts5 : Fts5
  bm25 : String → FtsRow → Rat
  exp : Rat → Rat
  turn : TurnId → String

/-! ### What it answers -/

/-- One salient relation on a hit. -/
structure SalientRelation where
  relation : RelationName
  direction : LinkDirection
  otherName : MemoryName
  deriving DecidableEq

/-- A ranked search result. -/
structure SearchHit where
  memory : MemoryView
  score : Rat
  marker : Option String
  snippet : Option String
  occurredAt : Option TemporalRef
  occurredAssertedAt : Option Timestamp
  relations : List SalientRelation
  moreRelations : Nat
  deriving DecidableEq

/-! ### The semantic signal -/

/-- A stored vector and its similarity to the query. -/
structure VectorHit where
  id : VectorKey
  score : Rat
  deriving DecidableEq

/-- The vectors most similar to an embedding, best first. -/
def searchVectors {ε : Type} (similarity : ε → ε → Rat) (index : VectorIndex ε) (embedding : ε)
    (limit : Nat) : List VectorHit :=
  ((index.vectors.rows.map fun record =>
    VectorHit.mk record.id (similarity embedding record.embedding)).insertionSort
      fun better worse => worse.score ≤ better.score).take limit

/-- What a surviving vector contributes to a class: its score, and the entry it is of. -/
structure ClassHit where
  primary : MemoryId
  score : Rat
  entry : Option (MemoryView × EntryView)

section Signals

variable (graph : Graph) (presentSet : List MemoryId)

/-- What a vector contributes. A description is built of public entries; an entry must
surface to the audience; contextual vectors are not for search. -/
def classHit (hit : VectorHit) : Option ClassHit :=
  let score := max hit.score 0
  match hit.id with
  | .description id => some ⟨graph.classOf id, score, none⟩
  | .entry id =>
    (graph.entryById id).bind fun (memory, entry) =>
      if entryShown graph presentSet memory entry then
        some ⟨graph.classOf memory.id, score, some (memory, entry)⟩
      else none
  | .entryContextual _ => none

/-- The best similarity of a class. -/
def cosineOf (hits : List ClassHit) (primary : MemoryId) : Option Rat :=
  let scores := (hits.filter (·.primary = primary)).map (·.score)
  if scores.isEmpty then none else some (scores.foldl max 0)

/-- A matched text cut to a legible length. -/
def clipSnippet (text : String) : String :=
  let whole := trimmed text.toList
  if 160 < whole.length then String.ofList (whole.take 160 ++ ['…']) else String.ofList whole

/-- The text of the first surviving entry of a class. -/
def entrySnippet (hits : List ClassHit) (primary : MemoryId) : Option String :=
  hits.findSome? fun hit =>
    if hit.primary = primary then hit.entry.map fun item => clipSnippet item.2.text else none

/-- The marker of an entry: its provenance, and whether it is stale. -/
def hitMarker (turnText : TurnId → String) (now : Timestamp) (memory : MemoryView)
    (entry : EntryView) : Option String :=
  let parts := (entryProvenanceMarker turnText graph presentSet memory entry).toList ++
    if isStale memory.volatility (entry.occurredSort.getD entry.assertedAt) now then
      ["[stale — no newer entry]"]
    else []
  if parts.isEmpty then none else some (" ".intercalate parts)

/-- The marker of the first surviving entry of a class that has one. -/
def entryMarker (turnText : TurnId → String) (now : Timestamp) (hits : List ClassHit)
    (primary : MemoryId) : Option String :=
  hits.findSome? fun hit =>
    if hit.primary = primary then
      hit.entry.bind fun item => hitMarker graph presentSet turnText now item.1 item.2
    else none

/-! ### The lexical signal -/

/-- A lexical hit with its raw rank, the lower the better. -/
structure LexicalMatch where
  id : MemoryId
  score : Rat
  snippet : String
  deriving DecidableEq

/-- The text of an extract, with what it elides marked. -/
def Extract.text (extract : Extract) : String :=
  (if extract.elidedBefore then "…" else "") ++ extract.window ++
    if extract.elidedAfter then "…" else ""

/-- The lexical hits of a query with their ranks. -/
def lexicalMatches (fts5 : Fts5) (bm25 : String → FtsRow → Rat) (query : String) (limit : Nat) :
    List LexicalMatch :=
  let matchQuery := buildMatch query
  if matchQuery.isEmpty then []
  else
    let rows := (fts5.ranked matchQuery graph.fts).filter fun row =>
      (graph.liveRow row.memoryId).isSome
    (rows.take limit).map fun row =>
      let hit := lexicalHit fts5 matchQuery row
      ⟨hit.id, bm25 matchQuery row, hit.snippet.text⟩

/-- The stronger of two matches, the first on a tie. -/
def stronger (best hit : LexicalMatch) : LexicalMatch := if hit.score < best.score then hit else best

/-- The strongest match of a class. -/
def lexicalBest (matches' : List LexicalMatch) (primary : MemoryId) : Option LexicalMatch :=
  match matches'.filter fun hit => graph.classOf hit.id = primary with
  | [] => none
  | first :: rest => some (rest.foldl stronger first)

/-- The classes that matched. -/
def lexicalClasses (matches' : List LexicalMatch) : List MemoryId :=
  firsts id (matches'.map fun hit => graph.classOf hit.id)

/-- The ranks of the classes normalized, the best at one. -/
def normalizeBm25 (matches' : List LexicalMatch) (primary : MemoryId) : Option Rat :=
  (lexicalBest graph matches' primary).map fun best =>
    let scores := (lexicalClasses graph matches').filterMap fun other =>
      (lexicalBest graph matches' other).map (·.score)
    let least := scores.min?.getD best.score
    let most := scores.max?.getD best.score
    if 0 < most - least then (most - best.score) / (most - least) else 1

/-- The snippet of a class: the extract of its strongest match, unless that is empty. -/
def snippetOf (hits : List ClassHit) (matches' : List LexicalMatch) (primary : MemoryId) :
    Option String :=
  match lexicalBest graph matches' primary with
  | some best =>
    if best.snippet.isEmpty then entrySnippet hits primary else some (clipSnippet best.snippet)
  | none => entrySnippet hits primary

/-! ### Tags and recency -/

/-- The fraction of the wanted tags a memory carries. -/
def tagMatch (memory : MemoryView) (tags : List TagName) : Rat :=
  if tags.isEmpty then 0
  else ((tags.filter fun tag => memory.tags.contains tag).length : Rat) / (tags.length : Rat)

/-- The decay constant of a volatility. -/
def TauDays.of (tau : TauDays) : Volatility → Rat
  | .high => tau.high
  | .medium => tau.medium
  | .low => tau.low

/-- The most recent time a class's entries speak of, or else when the memory was created. -/
def latestRelevant (memory : MemoryView) : Int :=
  (((graph.classEntries memory.id).map fun entry =>
    (entry.occurredSort.getD entry.assertedAt).millis).max?).getD memory.createdAt.millis

/-- The decay of a memory's most recent time. -/
def recencyBonus (exp : Rat → Rat) (settings : SearchSettings) (now : Timestamp)
    (memory : MemoryView) : Rat :=
  let deltaDays := (max (now.millis - latestRelevant graph memory) 0 : Rat) / millisPerDay
  exp (-(deltaDays / settings.recency.tauDays.of memory.volatility))

/-! ### What a hit carries -/

/-- The names a memory used to go by, the latest first. -/
def formerNames (id : MemoryId) : List MemoryName :=
  (graph.aliases.rows.filter (·.memoryId = id)).reverse.map (·.formerName)

/-- A marker with the names a memory used to go by. -/
def combineMarker (marker : Option String) (names : List MemoryName) : Option String :=
  if names.isEmpty then marker
  else
    let note := "[formerly " ++ ", ".intercalate (names.map (·.text)) ++ "]"
    some (match marker with
      | some existing => existing ++ " " ++ note
      | none => note)

/-- The occurrence a hit carries, with when it was asserted. -/
def visibleOccurrence (memory : MemoryView) : Option (TemporalRef × Timestamp) :=
  freshestOccurrence (entryShown graph presentSet memory)
    (fun entry occurredAt => (occurredAt, entry.assertedAt)) (graph.classEntries memory.id)

/-- How many relations a hit carries. -/
def salienceCap : Nat := 3

/-- The name of the memory a class is stored under, deleted or not. -/
def neighborName (link : NeighborLinkView) : MemoryName :=
  ((graph.memoryRow link.other).map (·.name)).getD ⟨""⟩

/-- Whether a neighbour is no person. -/
def beyondPersons (link : NeighborLinkView) : Bool :=
  (stripLeading Namespace.person.handlePrefix (neighborName graph link).text).isNone

/-- The links of a class that a hit may carry, persons first and the latest first. -/
def salientNeighbors (memory : MemoryView) : List NeighborLinkView :=
  (firsts (fun link => (link.relation, link.incoming, link.other))
    ((graph.classNeighborLinks memory.id).filter fun link =>
      presentSet.isEmpty || linkShown graph presentSet link.relation link.linkVis)).insertionSort
    fun first second => beyondPersons graph first ≤ beyondPersons graph second

/-- A link as a hit carries it. -/
def salientRelation (link : NeighborLinkView) : SalientRelation :=
  ⟨link.relation, if link.incoming then .incoming else .outgoing, neighborName graph link⟩

/-- The salient relations of a memory, and the number of those elided. -/
def salientRelations (memory : MemoryView) : List SalientRelation × Nat :=
  let neighbors := salientNeighbors graph presentSet memory
  let relations := (neighbors.take salienceCap).map (salientRelation graph)
  (relations, neighbors.length - relations.length)

end Signals

/-! ### The search -/

section Search

variable {ε : Type} (engine : SearchEngine ε) (settings : SearchSettings) (now : Timestamp)
variable (graph : Graph) (query : SearchQuery ε)

/-- The classes some signal found, by id. -/
def candidates (hits : List ClassHit) (matches' : List LexicalMatch) : List MemoryId :=
  (firsts id (hits.map (·.primary) ++ lexicalClasses graph matches')).insertionSort (· ≤ ·)

/-- The hit of a candidate, where it is a live memory under the wanted prefix. -/
def searchHit (hits : List ClassHit) (matches' : List LexicalMatch) (id : MemoryId) :
    Option SearchHit :=
  ((graph.memoryById id).filter fun memory =>
      query.namespacePrefix.all fun leading => (stripLeading leading memory.name.text).isSome).map
    fun memory =>
      let occurrence := visibleOccurrence graph query.presentSet memory
      let salient := salientRelations graph query.presentSet memory
      { memory
        score := settings.cosine * (cosineOf hits id).getD 0 +
          settings.bm25 * (normalizeBm25 graph matches' id).getD 0 +
          settings.tag * tagMatch memory query.tags +
          settings.recency.bonus * recencyBonus graph engine.exp settings now memory
        marker := combineMarker (entryMarker graph query.presentSet engine.turn now hits id)
          (formerNames graph id)
        snippet := snippetOf graph hits matches' id
        occurredAt := occurrence.map (·.1)
        occurredAssertedAt := occurrence.map (·.2)
        relations := salient.1
        moreRelations := salient.2 }

/-- How many hits of an index are fetched for a limit. -/
def overFetch (limit : Nat) : Nat := max (limit * 4) 20

/-- The vectors that contribute to a search. -/
def classHits (index : VectorIndex ε) (limit : Nat) : List ClassHit :=
  (searchVectors engine.similarity index query.embedding (overFetch limit)).filterMap
    (classHit graph query.presentSet)

/-- The lexical matches that contribute to a search. -/
def lexicalHits (limit : Nat) : List LexicalMatch :=
  lexicalMatches graph engine.fts5 engine.bm25 query.text (overFetch limit)

/-- The live memories for a query, best first. -/
def search (index : VectorIndex ε) (limit : Nat) : List SearchHit :=
  let hits := classHits engine graph query index limit
  let matches' := lexicalHits engine graph query limit
  (((candidates graph hits matches').filterMap
    (searchHit engine settings now graph query hits matches')).insertionSort
      fun better worse => worse.score ≤ better.score).take limit

end Search

end Zuihitsu.Search
