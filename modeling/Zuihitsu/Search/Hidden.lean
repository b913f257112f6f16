/-
# Searches over graphs that differ in hidden entries

A search filters the vectors of entries by the audience, and every date, marker and
snippet it hands back. Two of its signals are not blind to hidden entries: the index is
cut to a fixed number of vectors before the filter, so a hidden vector can take a visible
one's place, and the bonus for recency reads every entry of a class. Where neither shows,
the search answers the same over any two graphs and indexes that differ in hidden entries.
-/

import Zuihitsu.Brief.Differing
import Zuihitsu.Search.Blend

namespace Zuihitsu.Search

open Zuihitsu.Core Zuihitsu.Graph Zuihitsu.Library Zuihitsu.MemoryBlock

/-! ### What is compared -/

/-- Whether a vector counts: a description's, or an entry's that may surface to the audience. -/
def contributes (graph : Graph) (presentSet : List MemoryId) (key : VectorKey) : Bool :=
  (classHit graph presentSet ⟨key, 0⟩).isSome

/-- Two graphs with their indexes that differ only in entries that may not surface to an audience,
and in vectors that do not count for it. -/
structure SearchAlike {ε : Type} (presentSet : List MemoryId) (first second : Graph)
    (index other : VectorIndex ε) : Prop extends DifferHidden presentSet first second where
  names : ∀ id, (first.memoryRow id).map (·.name) = (second.memoryRow id).map (·.name)
  aliases : first.aliases = second.aliases
  fts : first.fts = second.fts
  vectors : (index.vectors.rows.filter fun record => contributes first presentSet record.id) =
    other.vectors.rows.filter fun record => contributes second presentSet record.id

/-- A hit but for its score. -/
def SearchHit.unscored (hit : SearchHit) : SearchHit := { hit with score := 0 }

/-- How long ago the most recent time is that a class's entries speak of. -/
def age (graph : Graph) (now : Timestamp) (memory : MemoryView) : Int :=
  max (now.millis - latestRelevant graph memory) 0

section Vectors

variable {presentSet : List MemoryId} {first second : Graph}

end Vectors

section Signals

variable {ε : Type} {engine : SearchEngine ε} {settings : SearchSettings} {now : Timestamp}
variable {query : SearchQuery ε} {first second : Graph} {index other : VectorIndex ε} {limit : Nat}
variable {hits : List ClassHit} {matches' : List LexicalMatch}

/-- The fetched vectors that count. -/
def fetched (engine : SearchEngine ε) (graph : Graph) (query : SearchQuery ε) (index : VectorIndex ε)
    (limit : Nat) : List VectorHit :=
  (searchVectors engine.similarity index query.embedding (overFetch limit)).filter
    fun hit => contributes graph query.presentSet hit.id

variable (alike : SearchAlike query.presentSet first second index other)
include alike

end Signals

/-! ### The search -/

/-- What hidden entries add shows in neither signal that reads them: as many of the vectors fetched
count in both graphs, and recency ranks nothing or every class found is as old in both. -/
structure NothingShows {ε : Type} (engine : SearchEngine ε) (settings : SearchSettings)
    (now : Timestamp) (query : SearchQuery ε) (limit : Nat) (first second : Graph)
    (index other : VectorIndex ε) : Prop where
  slots : (fetched engine first query index limit).length =
    (fetched engine second query other limit).length
  recency : settings.recency.bonus = 0 ∨
    (candidates first (classHits engine first query index limit)
      (lexicalHits engine first query limit)).length ≤ 1 ∨
    ∀ id ∈ candidates first (classHits engine first query index limit)
        (lexicalHits engine first query limit),
      ∀ memory, first.memoryById id = some memory → age first now memory = age second now memory

section Whole

variable {ε : Type} {engine : SearchEngine ε} {settings : SearchSettings} {now : Timestamp}
variable {query : SearchQuery ε} {first second : Graph} {index other : VectorIndex ε} {limit : Nat}

end Whole

/-! ### Two persons with one description

Erin, who is not in the room, has confided something about the second of them. -/

namespace Namesakes

def people : List EventPayload :=
  [.memoryCreated ⟨1⟩ ⟨"person/dave"⟩, .memoryCreated ⟨2⟩ ⟨"person/frank"⟩,
    .memoryCreated ⟨3⟩ ⟨"person/erin"⟩]

def quiet : Graph := ((commit ⟨0⟩ .agent people Graph.fresh).toOption).getD Graph.fresh

def aside : Event :=
  ⟨4, ⟨3 * millisPerDay⟩, .agent, .memoryContentAppended ⟨2⟩ ⟨10⟩ ⟨3 * millisPerDay⟩ none
    "is being managed out" (.participant ⟨3⟩) none .privateToTeller⟩

def confided : Graph := ((Graph.apply aside quiet).toOption).getD quiet

theorem aside_applied : Graph.apply aside quiet = .ok confided := rfl

theorem quiet_reachable : Reachable quiet := by
  have committed : commit ⟨0⟩ .agent people Graph.fresh = .ok quiet := rfl
  exact Reachable.fresh.commit committed

/-- The exponential, where it is asked for. -/
def decayed (exponent : Rat) : Rat :=
  if exponent = 0 then 1 else if exponent = -3 then 13364611 / 2 ^ 28 else 0

def engine : SearchEngine Unit where
  similarity _ _ := 1
  fts5 := Rose.wholeColumns
  bm25 _ _ := 0
  exp := decayed
  turn _ := ""

/-- Weights with a bonus for recency that decays within a day. -/
def settings (bonus : Rat) : SearchSettings := ⟨1, 1, 1, ⟨bonus, ⟨1, 1, 1⟩⟩⟩

def query : SearchQuery Unit := ⟨"", (), none, [], [⟨1⟩]⟩

def index : VectorIndex Unit where
  vectors := ⟨[⟨.description ⟨1⟩, (), "model"⟩, ⟨.description ⟨2⟩, (), "model"⟩], by decide⟩

end Namesakes

end Zuihitsu.Search
