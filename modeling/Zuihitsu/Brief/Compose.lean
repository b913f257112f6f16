/-
# Composing the brief

At the start of a session the composer assembles what the agent is told of itself,
of the room, of everyone present and of the threads it had open, under a character
budget. Every fact is filtered through the visibility predicate against the whole
present set; the cap and the budget decide only who gets a full block.

The text is kept as the list of the pieces that were pushed onto it, each with the
memory it is a block of and the facts rendered in it. Of the date and identifier
libraries the composer takes the texts of a day and of a turn, and the instants that
can be represented.
-/

import Zuihitsu.Library.Ranking
import Zuihitsu.Schedule.Recurrence
import Zuihitsu.Visibility.Markers

namespace Zuihitsu

open Zuihitsu.Core Zuihitsu.Graph Zuihitsu.Library Zuihitsu.Schedule Zuihitsu.MemoryBlock

/-! ### What the composer is given -/

/-- What the composer takes of the libraries, and whether the build checks overflows. -/
structure BriefFormats where
  turn : TurnId → String
  day : Timestamp → String
  calendar : Calendar
  overflowChecks : Bool

/-- The bounds of a brief. -/
structure BriefSettings where
  charBudget : Int
  recentFacts : Int
  keyRelationships : Int
  presentSetCap : Int
  upcomingWindowDays : Int
  maxUpcomingItems : Int

/-- Who is present, who opens the turn, the room, and what is carried into the session. -/
structure BriefRequest where
  presentSet : List MemoryId
  speakers : List MemoryId
  currentContext : Option MemoryId
  workingSet : List MemoryId
  now : Timestamp

/-! ### What it assembles -/

/-- One recent fact: its text and the markers after it. The entry it is of is not rendered. -/
structure BriefFact where
  entry : EntryId
  text : String
  markers : List String

/-- One relationship, in stored direction. -/
structure BriefRelationship where
  relation : RelationName
  source : MemoryName
  target : MemoryName
  marker : Option String

/-- What the brief says of one memory. -/
structure Brief where
  subject : MemoryName
  summary : Option String
  recentFacts : List BriefFact
  relationships : List BriefRelationship

/-- A relationship with the keys it is ranked by. -/
structure RankedRelationship where
  weight : Nat
  recency : Int
  relationship : BriefRelationship

/-- A part of the text, with the memory it is a block of and the facts rendered in it. -/
structure Piece where
  text : String
  memory : Option MemoryId := none
  facts : List BriefFact := []

/-- The composition so far: the budget that remains, the pieces, the identities that
have a block, and who was given a full one. -/
structure Packing where
  remaining : Nat
  pieces : List Piece := []
  renderedClasses : List MemoryId := []
  fullBlocks : Nat := 0
  fullParticipants : List MemoryId := []
  includedThreads : List MemoryId := []

/-- Which optional blocks the budget admitted in full. -/
structure BriefPlan where
  fullParticipants : List MemoryId
  includedThreads : List MemoryId

/-- The packed brief. -/
structure PackedBrief where
  pieces : List Piece
  plan : BriefPlan

/-- The text of a packed brief. -/
def PackedBrief.text (packed : PackedBrief) : String := String.join (packed.pieces.map (·.text))

/-! ### Markup -/

/-- The line of a fact. -/
def BriefFact.render (fact : BriefFact) : String :=
  fact.markers.foldl (fun line marker => line ++ " " ++ marker) fact.text

/-- The line of a relationship. -/
def BriefRelationship.render (relationship : BriefRelationship) : String :=
  "- " ++ relationship.source.text ++ " → " ++ relationship.relation.text ++ " → " ++
    relationship.target.text ++ ((relationship.marker.map (" " ++ ·)).getD "") ++ "\n"

/-- A section of lines between two tags, left out when there is none. -/
def taggedLines (tag : String) (lines : List String) : String :=
  if lines.isEmpty then ""
  else "<" ++ tag ++ ">\n" ++ String.join lines ++ "</" ++ tag ++ ">\n"

/-- The body of a block: summary, recent facts and relationships. -/
def Brief.renderBody (brief : Brief) : String :=
  ((brief.summary.map fun summary => "<summary>" ++ summary ++ "</summary>\n").getD "") ++
    taggedLines "recent_facts" (brief.recentFacts.map fun fact => "- " ++ fact.render ++ "\n") ++
    taggedLines "relationships" (brief.relationships.map (·.render))

/-! ### The brief of one memory -/

/-- The least 64-bit integer, the recency of what was never active. -/
def minI64 : Int := -2 ^ 63

/-- The type-weight of a relation. -/
def relationWeight (relation : RelationName) : Nat :=
  if relation.text ∈ ["created_by", "created"] then 100
  else if relation.text ∈ ["operator_of", "operated_by"] then 90
  else if relation.text ∈ ["part_of", "contains"] then 80
  else if relation.text ∈ ["member_of", "has_member"] then 75
  else if relation.text ∈ ["participates_in", "has_participant"] then 70
  else if relation.text ∈ ["located_at", "location_of"] then 60
  else if relation.text ∈ ["knows", "known_by"] then 40
  else if relation.text = "same_as" then 10
  else 50

/-- The ranking order: heavier first, then more recent, then by label and handles. -/
def RankedRelationship.ranksBefore (first second : RankedRelationship) : Bool :=
  if first.weight ≠ second.weight then second.weight < first.weight
  else if first.recency ≠ second.recency then second.recency < first.recency
  else if first.relationship.relation ≠ second.relationship.relation then
    first.relationship.relation.text < second.relationship.relation.text
  else if first.relationship.source ≠ second.relationship.source then
    first.relationship.source.text < second.relationship.source.text
  else first.relationship.target.text ≤ second.relationship.target.text

/-- An edge that leaves a class, with its far end resolved to a class. -/
structure NeighborLinkView where
  relation : RelationName
  incoming : Bool
  other : MemoryId
  linkVis : LinkVis

/-- The edges that leave the class of a memory, the latest recorded first. -/
def Graph.classNeighborLinks (graph : Graph) (id : MemoryId) : List NeighborLinkView :=
  graph.links.rows.reverse.filterMap fun row =>
    let leaves := graph.inClass id row.fromId
    if (graph.liveRow row.fromId).isSome && (graph.liveRow row.toId).isSome &&
        (leaves != graph.inClass id row.toId) then
      some ⟨row.relation, !leaves, graph.classOf (if leaves then row.toId else row.fromId),
        row.linkVis⟩
    else none

section Memory

variable (formats : BriefFormats) (graph : Graph) (settings : BriefSettings)
variable (presentSet : List MemoryId) (now : Timestamp)

/-- The handle a block is rendered under: the class primary's name. -/
def classDisplay (memory : MemoryView) : MemoryName :=
  ((graph.memoryById (graph.classOf memory.id)).map (·.name)).getD memory.name

/-- A visible entry as a fact, with its provenance and staleness markers. -/
def entryFact (memory : MemoryView) (entry : EntryView) : BriefFact where
  entry := entry.entryId
  text := entry.text
  markers :=
    (entryProvenanceMarker formats.turn graph presentSet memory entry).toList ++
      if isStale memory.volatility (entry.occurredSort.getD entry.assertedAt) now then
        ["[stale — no newer entry]"]
      else []

/-- The visible recent facts of a memory's class, in commit order. -/
def visibleRecentFacts (memory : MemoryView) : List BriefFact :=
  lastOf settings.recentFacts.toNat
    (((graph.classEntries memory.id).filter (entryShown graph presentSet memory)).map
      (entryFact formats graph presentSet now memory))

/-- The latest visible entry of a neighbour. -/
def latestVisibleEntry (neighbour : MemoryView) : Option EntryView :=
  ((graph.classEntries neighbour.id).filter (entryShown graph presentSet neighbour)).getLast?

/-- A surviving edge as a relationship of the subject, with its ranking keys. -/
def rankedRelationship (subject : MemoryName) (link : NeighborLinkView) :
    Option RankedRelationship :=
  (graph.memoryById link.other).map fun memory =>
    { weight := relationWeight link.relation
      recency := ((latestVisibleEntry graph presentSet memory).map (·.assertedAt.millis)).getD minI64
      relationship :=
        { relation := link.relation
          source := if link.incoming then memory.name else subject
          target := if link.incoming then subject else memory.name
          marker := linkMarker formats.turn link.linkVis.visibility
            (graph.tellerDisplay (link.linkVis.toldBy.getD .agent))
            (some (graph.markerRef link.linkVis.toldIn)) } }

/-- The key relationships of a memory's class. Parallel edges are collapsed after the
visibility filter. -/
def relationships (id : MemoryId) (subject : MemoryName) : List BriefRelationship :=
  let shown := (graph.classNeighborLinks id).filter fun link =>
    linkShown graph presentSet link.relation link.linkVis
  let collapsed := shown.eraseDupsBy fun first second =>
    first.relation = second.relation && first.other = second.other
  let ranked := (collapsed.filterMap (rankedRelationship formats graph presentSet subject)).insertionSort
    fun first second => first.ranksBefore second
  (ranked.take settings.keyRelationships.toNat).map (·.relationship)

/-- The brief of a memory. -/
def memoryBrief (memory : MemoryView) : Brief :=
  let subject := classDisplay graph memory
  { subject
    summary := if memory.description.isEmpty then none else some memory.description
    recentFacts := visibleRecentFacts formats graph settings presentSet now memory
    relationships := relationships formats graph settings presentSet memory.id subject }

/-- The latest entry of a participant's class, whoever may see it. -/
def latestOf (id : MemoryId) : Int :=
  (((graph.classEntries id).map (·.assertedAt.millis)).max?).getD minI64

/-- The present participants, the most recently active first. -/
def rankedPresent : List MemoryId :=
  ((presentSet.map fun id => (latestOf graph id, id)).insertionSort fun first second =>
    second.1 < first.1 || (first.1 = second.1 && first.2 ≤ second.2)).map (·.2)

/-- The instant an occurrence sorts at. -/
def occursAt (item : MemoryView × EntryView) : Int := (item.2.occurredSort.map (·.millis)).getD 0

/-- The live memories with an occurrence between two instants, soonest first. Occurrences at
one instant stay in commit order. -/
def Graph.occurrencesInWindow (first last : Timestamp) : List (MemoryView × EntryView) :=
  ((graph.entryRowsWhere fun row => row.supersededBy.isNone).filterMap fun row =>
    (graph.memoryById row.memoryId).bind fun memory =>
      row.occurrence.bounds.sort.bind fun sort =>
        if first.millis ≤ sort.millis ∧ sort.millis ≤ last.millis then
          some (memory, entryFromRow graph .live row)
        else none).insertionSort fun earlier later => occursAt earlier ≤ occursAt later

end Memory

theorem entryRowsWhere_and {graph : Graph} (matching keep : EntryRow → Bool) :
    graph.entryRowsWhere (fun row => matching row && keep row) =
      (graph.entryRowsWhere matching).filter keep := by
  have ordered : IsTrans EntryRow fun first second => first.seq ≤ second.seq :=
    ⟨fun _ _ _ => Nat.le_trans⟩
  have total : Std.Total fun first second : EntryRow => first.seq ≤ second.seq :=
    ⟨fun first second => Nat.le_total first.seq second.seq⟩
  unfold entryRowsWhere
  rw [filter_insertionSort, List.filter_filter]
  simp only [Bool.and_comm]

/-! ### Packing -/

/-- The number of characters of a text. -/
def charLen (text : String) : Nat := text.length

namespace Packing

/-- Push a piece that renders whatever remains. -/
def charge (packing : Packing) (piece : Piece) : Packing :=
  { packing with
    remaining := packing.remaining - charLen piece.text, pieces := packing.pieces ++ [piece] }

/-- Mark an identity as rendered. -/
def render (packing : Packing) (identity : MemoryId) : Packing :=
  { packing with renderedClasses := packing.renderedClasses ++ [identity] }

/-- Push the full block of a participant. -/
def placeFull (packing : Packing) (participant : MemoryId) (block : Piece) : Packing :=
  { packing.charge block with
    fullBlocks := packing.fullBlocks + 1
    fullParticipants := packing.fullParticipants ++ [participant] }

/-- Push the block of an active thread. -/
def placeThread (packing : Packing) (thread identity : MemoryId) (block : Piece) : Packing :=
  { (packing.charge block).render identity with
    includedThreads := packing.includedThreads ++ [thread] }

end Packing

section Composition

variable (formats : BriefFormats) (graph : Graph) (settings : BriefSettings)
variable (request : BriefRequest)

/-- The agent's own memory. -/
def Graph.selfMemory : Option MemoryView := graph.memoryByName MemoryName.selfHandle

/-- The full block of a memory. -/
def memoryPiece (memory : MemoryView) : Piece :=
  let brief := memoryBrief formats graph settings request.presentSet request.now memory
  { text := "## " ++ (classDisplay graph memory).text ++ "\n" ++ brief.renderBody
    memory := some memory.id
    facts := brief.recentFacts }

/-- The block of the agent's own memory, without its summary. -/
def selfPiece (memory : MemoryView) : Piece :=
  let brief := memoryBrief formats graph settings request.presentSet request.now memory
  { text := "# You\n" ++ { brief with summary := none }.renderBody ++ "\n"
    memory := some memory.id
    facts := brief.recentFacts }

/-- The block of the room: its name, whether it is confidential, and its description. -/
def roomPiece (context : MemoryView) : Piece where
  text :=
    "# Current room: " ++ roomDisplay context.name.text ++
      (if context.tags.contains .confidential then " (confidential)" else "") ++ "\n" ++
      (if context.description.isEmpty then "" else context.description ++ "\n") ++ "\n"
  memory := some context.id

/-- The name-only line of a participant. -/
def presentLine (memory : MemoryView) : Piece where
  text := "- " ++ (classDisplay graph memory).text ++ " (present)\n"
  memory := some memory.id

/-- Start with the agent's own block. -/
def composeSelf (packing : Packing) : Packing :=
  match graph.selfMemory with
  | some memory =>
    (packing.charge (selfPiece formats graph settings request memory)).render
      (graph.classOf memory.id)
  | none => packing

/-- Go on with the room. -/
def composeRoom (packing : Packing) : Packing :=
  match request.currentContext.bind graph.memoryById with
  | some context => packing.charge (roomPiece context)
  | none => packing

/-- Render a participant whose identity has no block yet: in full while the cap allows
it and, unless they opened the turn, the budget does; by name otherwise. -/
def presentBlock (memory : MemoryView) (packing : Packing) : Packing :=
  let block := memoryPiece formats graph settings request memory
  if packing.fullBlocks < settings.presentSetCap.toNat ∧
      (memory.id ∈ request.speakers ∨ charLen block.text ≤ packing.remaining) then
    packing.placeFull memory.id block
  else packing.charge (presentLine graph memory)

/-- Visit one participant. -/
def presentStep (packing : Packing) (participant : MemoryId) : Packing :=
  match graph.memoryById participant with
  | none => packing
  | some memory =>
    let identity := graph.classOf participant
    if identity ∈ packing.renderedClasses then packing
    else presentBlock formats graph settings request memory (packing.render identity)

/-- The order the participants are visited in: who opened the turn, then the others. -/
def presentOrder : List MemoryId :=
  let ranked := rankedPresent graph request.presentSet
  (ranked.filter (· ∈ request.speakers)) ++ (ranked.filter (· ∉ request.speakers))

/-- The header of the participants' section. -/
def presentHeader : Piece where
  text := "# Present\n"

/-- Go on with everyone present. -/
def composePresent (packing : Packing) : Packing :=
  if request.presentSet.isEmpty then packing
  else
    (presentOrder graph request).foldl (presentStep formats graph settings request)
      (packing.charge presentHeader)

/-- Admit the block of a thread if it has a body and fits. -/
def threadBlock (memory : MemoryView) (packing : Packing) : Packing :=
  let brief := memoryBrief formats graph settings request.presentSet request.now memory
  let block := memoryPiece formats graph settings request memory
  if (trimmed brief.renderBody.toList).isEmpty then packing
  else if charLen block.text ≤ packing.remaining then
    packing.placeThread memory.id (graph.classOf memory.id) block
  else packing

/-- Whether a memory of the working set is shown above already. -/
def shownAbove (id : MemoryId) : Bool :=
  some id = graph.selfMemory.map (·.id) || some id = request.currentContext ||
    id ∈ request.presentSet

/-- Visit one memory of the working set. -/
def threadStep (packing : Packing) (id : MemoryId) : Packing :=
  if shownAbove graph request id ∨ graph.classOf id ∈ packing.renderedClasses then packing
  else
    match graph.memoryById id with
    | none => packing
    | some memory => threadBlock formats graph settings request memory packing

/-- Go on with the active threads, under a header paid for only if one is admitted. -/
def composeThreads (packing : Packing) : Packing :=
  let header : Piece := ⟨"# Active threads\n", none, []⟩
  if request.workingSet.isEmpty ∨ packing.remaining < charLen header.text then packing
  else
    let reserved := { packing with remaining := packing.remaining - charLen header.text, pieces := [] }
    let packed := request.workingSet.foldl (threadStep formats graph settings request) reserved
    if packed.pieces.isEmpty then
      { packed with
        remaining := packed.remaining + charLen header.text, pieces := packing.pieces }
    else { packed with pieces := packing.pieces ++ header :: packed.pieces }

/-- The line of an upcoming item. -/
def upcomingLine (memory : MemoryView) (entry : EntryView) : String :=
  "- " ++ ((entry.occurredSort.map formats.day).getD "") ++ ": " ++ memory.name.text ++ " — " ++
    entry.text ++
    (((entryProvenanceMarker formats.turn graph request.presentSet memory entry).map
      (" " ++ ·)).getD "") ++ "\n"

/-- The end of the upcoming window. The outer `none` is a stopped thread. -/
def upcomingEnd : Option Timestamp :=
  (mulI64 formats.overflowChecks (max settings.upcomingWindowDays 0) millisPerDay).bind fun window =>
    formats.calendar.tryFromMillis (max (-2 ^ 63) (min (2 ^ 63 - 1) (request.now.millis + window)))

/-- The lines of the upcoming items, soonest first. -/
def upcomingLines : Option (List String) :=
  if 0 < settings.upcomingWindowDays ∧ 0 < settings.maxUpcomingItems then
    (upcomingEnd formats settings request).map fun last =>
      (((graph.occurrencesInWindow request.now last).filter fun item =>
        entryShown graph request.presentSet item.1 item.2).take settings.maxUpcomingItems.toNat).map
        fun item => upcomingLine formats graph request item.1 item.2
  else some []

/-- The leading lines that fit. -/
def fittingLines (remaining : Nat) : List String → List Piece
  | [] => []
  | line :: rest =>
    if charLen line ≤ remaining then ⟨line, none, []⟩ :: fittingLines (remaining - charLen line) rest
    else []

/-- End with the upcoming items, under a header pushed only if one fits. -/
def composeUpcoming (packing : Packing) : Option (List Piece) :=
  (upcomingLines formats graph settings request).map fun lines =>
    let header : Piece := ⟨"# Upcoming\n", none, []⟩
    if lines.isEmpty ∨ packing.remaining < charLen header.text then []
    else
      let fitting := fittingLines (packing.remaining - charLen header.text) lines
      if fitting.isEmpty then [] else header :: fitting

/-- Everything before the upcoming items. -/
def composeMemories : Packing :=
  composeThreads formats graph settings request
    (composePresent formats graph settings request
      (composeRoom graph request
        (composeSelf formats graph settings request ⟨settings.charBudget.toNat, [], [], 0, [], []⟩)))

/-- Compose the brief and pack it under the budget. `none` is a stopped thread: the upcoming
window ends past what the date library represents. -/
def composePacked : Option PackedBrief :=
  let packing := composeMemories formats graph settings request
  (composeUpcoming formats graph settings request packing).map fun upcoming =>
    ⟨packing.pieces ++ upcoming, ⟨packing.fullParticipants, packing.includedThreads⟩⟩

/-- The text of the brief. -/
def compose : Option String :=
  (composePacked formats graph settings request).map (·.text)

end Composition

/-! ### What the reads and the visits do -/

section Visits

variable {graph : Graph} {request : BriefRequest}

theorem memoryById_of_selfMemory {memory : MemoryView} (found : graph.selfMemory = some memory) :
    graph.memoryById memory.id = some memory := by
  obtain ⟨row, read, rfl⟩ := Option.map_eq_some_iff.mp found
  have stands : row.deleted = false := by
    have matched := List.find?_some read
    simp only [Bool.and_eq_true, Bool.not_eq_true'] at matched
    exact matched.2
  have live : graph.liveRow row.id = some row :=
    liveRow_eq_some.mpr ⟨List.mem_of_find?_eq_some read, rfl, stands⟩
  exact Option.map_eq_some_iff.mpr ⟨row, live, rfl⟩

theorem eq_of_found {first second : MemoryView} (one : graph.memoryById first.id = some first)
    (two : graph.memoryById second.id = some second) (same : first.id = second.id) :
    first = second := by
  rw [same, two] at one
  exact (Option.some.inj one).symm

theorem mem_presentOrder {id : MemoryId} :
    id ∈ presentOrder graph request ↔ id ∈ request.presentSet := by
  have ranked : id ∈ rankedPresent graph request.presentSet ↔ id ∈ request.presentSet := by
    simp [rankedPresent, List.mem_insertionSort]
  simp only [presentOrder, List.mem_append, List.mem_filter, ranked, decide_eq_true_eq]
  tauto

/-- What visiting a participant does: nothing, or one block for an identity that had none. -/
theorem presentStep_cases (formats : BriefFormats) (settings : BriefSettings) (packing : Packing)
    (participant : MemoryId) :
    presentStep formats graph settings request packing participant = packing ∨
      ∃ memory, graph.memoryById participant = some memory ∧
        graph.classOf participant ∉ packing.renderedClasses ∧
        (presentStep formats graph settings request packing participant =
            (packing.render (graph.classOf participant)).placeFull participant
              (memoryPiece formats graph settings request memory) ∨
          presentStep formats graph settings request packing participant =
            (packing.render (graph.classOf participant)).charge (presentLine graph memory)) := by
  unfold presentStep
  cases found : graph.memoryById participant with
  | none => exact .inl rfl
  | some memory =>
    dsimp only
    by_cases rendered : graph.classOf participant ∈ packing.renderedClasses
    · exact .inl (if_pos rendered)
    · refine .inr ⟨memory, rfl, rendered, ?_⟩
      rw [if_neg rendered, presentBlock, memoryById_id found]
      split
      · exact .inl rfl
      · exact .inr rfl

end Visits

end Zuihitsu
