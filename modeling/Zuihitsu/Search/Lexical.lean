/-
# Lexical search

The full-text index keeps a row for each memory: its name, its description, and a
content column that every former name and every entry told openly is added to. No
event takes anything out of that column again. A hit carries a window of a column,
so the main result says along which runs what a hit shows is still current.
-/

import Zuihitsu.Core.Text
import Zuihitsu.Describe.Audience
import Zuihitsu.Graph.Classes
import Zuihitsu.Graph.Resume

namespace Zuihitsu.Search

open Zuihitsu.Core Zuihitsu.Graph Zuihitsu.Library Zuihitsu.Describe

/-! ### The search -/

/-- A searched column of the index. -/
inductive Column where
  | name
  | description
  | content
  deriving DecidableEq, Repr

/-- A row's text in a column. -/
def columnText (row : FtsRow) : Column → String
  | .name => row.name.text
  | .description => row.description
  | .content => row.content

/-- A text occurs within another. -/
def Occurs (text whole : String) : Prop := text.toList <:+: whole.toList

instance (text whole : String) : Decidable (Occurs text whole) :=
  inferInstanceAs (Decidable (text.toList <:+: whole.toList))

/-- A window of a column: whether it bears match markers, and where context was elided. -/
structure Extract where
  window : String
  marked : Bool
  elidedBefore : Bool
  elidedAfter : Bool
  deriving DecidableEq, Repr

/-- The full-text engine as the search relies on it: it ranks the rows that match, and
extracts a window of the column it is asked for, or of the one that matches best. -/
structure Fts5 where
  ranked : String → List FtsRow → List FtsRow
  best : String → FtsRow → Column
  snippet : String → FtsRow → Column → Extract
  ranked_mem : ∀ query rows, ∀ row ∈ ranked query rows, row ∈ rows
  snippet_window : ∀ query row column,
    Occurs (snippet query row column).window (columnText row column)

/-- A lexical hit. -/
structure LexicalHit where
  id : MemoryId
  snippet : Extract
  contentBearing : Bool
  deriving DecidableEq, Repr

/-- The terms of a query. -/
def queryTerms (query : List Char) : List (List Char) :=
  (query.splitOnP isWhiteSpace).filter fun term => !term.isEmpty

/-- A term as a quoted phrase, its own quotes doubled. -/
def quoted (term : List Char) : List Char :=
  ['"'] ++ term.flatMap (fun char => if char = '"' then ['"', '"'] else [char]) ++ ['"']

/-- The match expression of a query. -/
def buildMatch (query : String) : String :=
  String.ofList ([' '].intercalate ((queryTerms query.toList).map quoted))

/-- The hit of a row: an extract of the content, else of the description, else of the
column that matches best. -/
def lexicalHit (fts5 : Fts5) (matchQuery : String) (row : FtsRow) : LexicalHit :=
  let content := fts5.snippet matchQuery row .content
  let description := fts5.snippet matchQuery row .description
  if content.marked then ⟨row.memoryId, content, true⟩
  else if description.marked then ⟨row.memoryId, description, true⟩
  else ⟨row.memoryId, fts5.snippet matchQuery row (fts5.best matchQuery row), false⟩

/-- The lexical hits of a query, best first, deleted memories left out. -/
def searchLexical (fts5 : Fts5) (graph : Graph) (query : String) (limit : Nat) :
    List LexicalHit :=
  let matchQuery := buildMatch query
  if matchQuery.isEmpty then []
  else
    let rows := (fts5.ranked matchQuery graph.fts).filter fun row =>
      (graph.liveRow row.memoryId).isSome
    (rows.take limit).map (lexicalHit fts5 matchQuery)

section Hits

variable {fts5 : Fts5} {graph : Graph} {query : String} {limit : Nat} {hit : LexicalHit}

theorem lexicalHit_spec (fts5 : Fts5) (matchQuery : String) (row : FtsRow) :
    (lexicalHit fts5 matchQuery row).id = row.memoryId ∧
      ∃ column, (lexicalHit fts5 matchQuery row).snippet = fts5.snippet matchQuery row column := by
  simp only [lexicalHit]
  split
  · exact ⟨rfl, .content, rfl⟩
  · split
    · exact ⟨rfl, .description, rfl⟩
    · exact ⟨rfl, fts5.best matchQuery row, rfl⟩

theorem searchLexical_spec (member : hit ∈ searchLexical fts5 graph query limit) :
    (graph.liveRow hit.id).isSome = true ∧
      ∃ row ∈ graph.fts, row.memoryId = hit.id ∧
        ∃ column, Occurs hit.snippet.window (columnText row column) := by
  simp only [searchLexical] at member
  split at member
  · cases member
  · obtain ⟨row, taken, rfl⟩ := List.mem_map.mp member
    obtain ⟨ranked, live⟩ := List.mem_filter.mp (List.mem_of_mem_take taken)
    obtain ⟨same, column, extract⟩ := lexicalHit_spec fts5 (buildMatch query) row
    rw [same, extract]
    exact ⟨live, row, fts5.ranked_mem _ _ row ranked, rfl, column, fts5.snippet_window _ _ _⟩

end Hits

/-! ### What is indexed of a memory -/

/-- What an event makes of a row of the index. -/
def indexChange (payload : EventPayload) (row : FtsRow) : FtsRow :=
  match payload with
  | .memoryRenamed id oldName newName =>
    if row.memoryId = id then FtsRow.addContent oldName.text { row with name := newName } else row
  | .memoryContentAppended id _ _ _ text _ _ visibility =>
    if row.memoryId = id ∧ visibility = .public then row.addContent text else row
  | .memoryDescriptionRegenerated id newText _ =>
    if row.memoryId = id then { row with description := newText } else row
  | _ => row

/-- The row an event adds to the index. -/
def indexedRow : EventPayload → Option FtsRow
  | .memoryCreated id name => some ⟨id, name, "", ""⟩
  | _ => none

section Index

variable {event : Event} {before after : Graph}

@[simp] theorem indexChange_memoryId (payload : EventPayload) (row : FtsRow) :
    (indexChange payload row).memoryId = row.memoryId := by
  unfold indexChange
  split <;> (try split) <;> rfl

theorem apply_fts (applied : apply event before = .ok after) :
    after.fts =
      before.fts.map (indexChange event.payload) ++ (indexedRow event.payload).toList := by
  obtain ⟨projected, ran, rfl⟩ := apply_ok.mp applied
  show projected.fts = _
  cases payload : event.payload with
  | memoryCreated id name =>
    simp only [project, payload, Script.run_exec_ok, Script.run_statement] at ran
    obtain ⟨created, inserted, last⟩ := ran
    cases last
    have same : created.fts = before.fts :=
      (insertMemory_writes _ before created inserted).fts (by decide)
    have unchanged : indexChange (.memoryCreated id name) = (fun row => row) := rfl
    simp [unchanged, indexedRow, same]
  | memoryRenamed =>
    rw [(run_memoryRenamed payload ran).2]
    exact (List.append_nil _).symm
  | memoryContentAppended id entryId assertedAt occurredAt text toldBy toldIn visibility =>
    simp only [project, payload, Script.run_read, Script.run_exec_ok] at ran
    obtain ⟨inserted, first, endorsed, second, marked, third, last⟩ := ran
    have same : marked.fts = before.fts := by
      rw [(updateMemories_writes _ _ _ endorsed marked third).fts (by decide),
        (insertAttestation_writes _ inserted endorsed second).fts (by decide),
        (insertEntry_writes _ before inserted first).fts (by decide)]
    -- the text is indexed only when it is public
    split at last
    · rename_i public'
      cases last
      have texts : indexChange (.memoryContentAppended id entryId assertedAt occurredAt text toldBy
          toldIn visibility) = fun row => if row.memoryId = id then row.addContent text else row := by
        funext row
        simp [indexChange, public']
      simp [texts, indexedRow, same]
    · rename_i closed
      cases last
      have unchanged : indexChange (.memoryContentAppended id entryId assertedAt occurredAt text toldBy
          toldIn visibility) = fun row => row := by
        funext row
        simp [indexChange, closed]
      simp [unchanged, indexedRow, same]
  | memoryDescriptionRegenerated =>
    simp only [project, payload, Script.run_exec_ok, Script.run_statement] at ran
    obtain ⟨described, first, last⟩ := ran
    cases last
    have same : described.fts = before.fts :=
      (updateMemories_writes _ _ _ before described first).fts (by decide)
    rw [same]
    exact (List.append_nil _).symm
  | _ =>
    rw [(project_frame ran).fts (by simp [footprint, payload])]
    exact ((List.append_nil _).trans (List.map_id _)).symm

end Index

/-- What an event adds to a memory's content column: a former name, or the text of an
entry told openly. -/
def indexedText (id : MemoryId) : EventPayload → Option (Option EntryId × String)
  | .memoryRenamed renamed oldName _ => if renamed = id then some (none, oldName.text) else none
  | .memoryContentAppended owner entry _ _ text _ _ visibility =>
    if owner = id ∧ visibility = .public then some (some entry, text) else none
  | _ => none

/-- What a log adds to a memory's content column. -/
def indexedTexts (id : MemoryId) (events : List Event) : List (Option EntryId × String) :=
  events.filterMap fun event => indexedText id event.payload

/-- The content column that texts make. -/
def joined (texts : List String) : String :=
  texts.foldl (fun content text => content ++ " " ++ text) ""

/-- A log accounts for the index of the graph it leaves. -/
structure Indexes (events : List Event) (graph : Graph) : Prop where
  rows : ∀ row ∈ graph.fts, ∃ memory ∈ graph.memories, memory.id = row.memoryId ∧
    row.name = memory.name ∧ row.description = memory.description ∧
    row.content = joined ((indexedTexts row.memoryId events).map (·.2))
  sources : ∀ event ∈ events, ∀ id source, indexedText id event.payload = some source →
    graph.memories.contains id = true ∧
      ∀ entry ∈ source.1, ∃ row ∈ graph.entries, row.entryId = entry ∧ row.memoryId = id ∧
        row.visibility = .public

section Indexes

variable {event : Event} {events : List Event} {before after : Graph}

theorem indexedTexts_append (id : MemoryId) (events : List Event) (event : Event) :
    indexedTexts id (events ++ [event]) =
      indexedTexts id events ++ (indexedText id event.payload).toList := by
  unfold indexedTexts
  rw [List.filterMap_append]
  cases indexed : indexedText id event.payload <;> simp [indexed]

theorem indexChange_content (payload : EventPayload) (row : FtsRow) :
    (indexChange payload row).content =
      ((indexedText row.memoryId payload).toList.map (·.2)).foldl
        (fun content text => content ++ " " ++ text) row.content := by
  cases payload with
  | memoryRenamed id oldName newName =>
    by_cases here : row.memoryId = id
    · simp [indexChange, indexedText, here, FtsRow.addContent]
    · simp [indexChange, indexedText, here, Ne.symm here]
  | memoryContentAppended id entryId assertedAt occurredAt text toldBy toldIn visibility =>
    by_cases here : row.memoryId = id ∧ visibility = .public
    · simp [indexChange, indexedText, here, FtsRow.addContent]
    · have elsewhere : ¬(id = row.memoryId ∧ visibility = .public) := fun there =>
        here ⟨there.1.symm, there.2⟩
      simp [indexChange, indexedText, here, elsewhere]
  | memoryDescriptionRegenerated =>
    simp only [indexChange, indexedText]
    split <;> rfl
  | _ => rfl

theorem indexChange_columns (event : Event) {row : FtsRow} {memory : MemoryRow}
    (same : memory.id = row.memoryId) (name : row.name = memory.name)
    (description : row.description = memory.description) :
    (indexChange event.payload row).name = (memoryColumns event memory).name ∧
      (indexChange event.payload row).description = (memoryColumns event memory).description := by
  unfold indexChange memoryColumns
  cases event.payload with
  | memoryRenamed id oldName newName =>
    by_cases here : row.memoryId = id
    · simp [same, here, FtsRow.addContent, description]
    · simp [same, here, name, description]
  | memoryContentAppended =>
    dsimp only
    constructor <;> split <;> split <;> assumption
  | memoryDescriptionRegenerated id newText producedBy =>
    by_cases here : row.memoryId = id
    · simp [same, here, name]
    · simp [same, here, name, description]
  | _ =>
    dsimp only
    first | exact ⟨name, description⟩ | (split <;> exact ⟨name, description⟩)

theorem Indexes.step (indexes : Indexes events before) (applied : apply event before = .ok after) :
    Indexes (events ++ [event]) after where
  rows := by
    intro row member
    rw [apply_fts applied, List.mem_append, List.mem_map] at member
    rcases member with ⟨old, oldMem, rfl⟩ | added
    · -- a row follows its memory's columns, and takes the text of the event last
      obtain ⟨memory, memoryMem, same, name, description, content⟩ := indexes.rows old oldMem
      obtain ⟨newName, newDescription⟩ := indexChange_columns event same name description
      refine ⟨memoryChange event before memory,
        (mem_memories_apply applied).mpr (.inl ⟨memory, memoryMem, rfl⟩), ?_, ?_, ?_, ?_⟩
      · rw [memoryChange_id, indexChange_memoryId, same]
      · rw [memoryChange_eq]
        exact newName
      · rw [memoryChange_eq]
        exact newDescription
      · rw [indexChange_content, indexChange_memoryId, indexedTexts_append, List.map_append, joined,
          List.foldl_append, content, joined]
    · -- nothing was indexed of a memory that was not there
      obtain ⟨id, name, payload, rfl⟩ : ∃ id name, event.payload = .memoryCreated id name ∧
          row = ⟨id, name, "", ""⟩ := by
        unfold indexedRow at added
        split at added
        · rename_i id name payload
          exact ⟨id, name, payload, by simpa using added⟩
        · cases added
      have created : createdMemory event = some
          { id, name, createdAt := event.recordedAt, classId := id, lastContentSeq := event.seq } := by
        simp only [createdMemory, payload]
      obtain ⟨fresh, _⟩ := created_of_apply applied created
      refine ⟨_, (mem_memories_apply applied).mpr (.inr created), rfl, rfl, rfl, ?_⟩
      have earlier : indexedTexts id events = [] := by
        refine List.filterMap_eq_nil_iff.mpr fun other member => ?_
        cases indexed : indexedText id other.payload with
        | none => rfl
        | some source =>
          have known := (indexes.sources other member id source indexed).1
          rw [show before.memories.contains id = false from fresh] at known
          cases known
      rw [indexedTexts_append, earlier, payload]
      rfl
  sources := by
    intro other member id source indexed
    rcases List.mem_append.mp member with earlier | last
    · -- what was indexed stays told, and its memory stays there
      obtain ⟨known, entries⟩ := indexes.sources other earlier id source indexed
      refine ⟨contains_memory_apply known applied, fun entry named => ?_⟩
      obtain ⟨row, rowMem, rfl, rfl, open_⟩ := entries entry named
      exact ⟨_, (mem_entries_apply applied).mpr (.inl ⟨row, rowMem, rfl⟩), by simp, by simp,
        by simp [open_]⟩
    · obtain rfl := List.mem_singleton.mp last
      unfold indexedText at indexed
      split at indexed
      · rename_i renamed oldName newName payload
        split at indexed
        · rename_i same
          cases indexed
          subst same
          obtain ⟨projected, ran, _⟩ := apply_ok.mp applied
          refine ⟨contains_memory_apply (run_memoryRenamed payload ran).1 applied, ?_⟩
          rintro entry ⟨⟩
        · cases indexed
      · rename_i owner entry assertedAt occurredAt text toldBy toldIn visibility payload
        split at indexed
        · rename_i here
          obtain ⟨rfl, rfl⟩ := here
          cases indexed
          have appends : appendedRow other before = some (appendedEntry other before owner entry
              assertedAt occurredAt text toldBy toldIn .public) := by
            simp only [appendedRow, payload]
          refine ⟨contains_memory_apply (appended_of_apply applied appends).1 applied, ?_⟩
          rintro _ ⟨⟩
          exact ⟨_, (mem_entries_apply applied).mpr (.inr appends), rfl, rfl, rfl⟩
        · cases indexed
      · cases indexed

theorem indexes_run (run : Trace Folds before events after) {earlier : List Event}
    (indexes : Indexes earlier before) : Indexes (earlier ++ events) after := by
  induction run generalizing earlier with
  | nil => simpa using indexes
  | cons first _ ih => simpa using ih (indexes.step first.2)

end Indexes

/-! ### What a hit may show -/

/-- An entry whose text is current: it is live, and somebody endorses it openly. -/
def Current (graph : Graph) (entry : EntryId) : Prop :=
  (∃ row ∈ graph.entries.rows, row.entryId = entry ∧ row.supersededBy = none) ∧
    ∃ row ∈ graph.attestations.rows, row.entryId = entry ∧ row.retractedReason = none ∧
      row.posture = .public

instance (graph : Graph) (entry : EntryId) : Decidable (Current graph entry) :=
  inferInstanceAs (Decidable (_ ∧ _))

/-- The content column a memory would have if only what is current had been indexed. -/
def currentContent (graph : Graph) (events : List Event) (id : MemoryId) : String :=
  joined (((indexedTexts id events).filter fun source =>
    source.1.all fun entry => Current graph entry).map (·.2))

/-- A text a memory has in its entries, and only in those that are not current: neither
its name nor its description has it, nor the current content. -/
def OnlyInDead (graph : Graph) (events : List Event) (id : MemoryId) (text : String) : Prop :=
  (∃ row ∈ graph.entries, row.memoryId = id ∧ ¬Current graph row.entryId ∧ Occurs text row.text) ∧
    (∀ memory ∈ graph.memories, memory.id = id →
      ¬Occurs text memory.name.text ∧ ¬Occurs text memory.description) ∧
    ¬Occurs text (currentContent graph events id)

/-- No hit of a search shows text that its memory has only in entries no longer current. -/
def HitsCurrent (fts5 : Fts5) (graph : Graph) (events : List Event) (query : String)
    (limit : Nat) : Prop :=
  ∀ hit ∈ searchLexical fts5 graph query limit, ∀ text, Occurs text hit.snippet.window →
    ¬OnlyInDead graph events hit.id text

/-- A step that leaves the entries on offer current: none is retired, and none loses its
one public endorsement. -/
def KeepsOffers (before : Graph) (event : Event) (after : Graph) : Prop :=
  Folds before event after ∧ ¬ClosesOffered before event.payload ∧
    ∀ entry, Offered before entry → ¬Retires before entry event.payload

section Currency

variable {event : Event} {events : List Event} {before after graph : Graph} {entry : EntryId}

theorem current_iff : Current graph entry ↔ IsLive graph entry ∧ PubliclyEndorsed graph entry := by
  refine and_congr Iff.rfl ?_
  constructor
  · rintro ⟨row, member, owner, live, open_⟩
    exact ⟨row.teller, standing_eq_some.mpr
      ⟨row, member, by rw [AttestationRow.key, owner], live, open_⟩⟩
  · rintro ⟨teller, stands⟩
    obtain ⟨row, member, key, live, open_⟩ := standing_eq_some.mp stands
    exact ⟨row, member, congrArg Prod.fst key, live, open_⟩

/-- Every entry told openly of a live memory is current. -/
def OffersCurrent (graph : Graph) : Prop :=
  ∀ row ∈ graph.entries, row.visibility = .public →
    (graph.liveRow row.memoryId).isSome = true → Current graph row.entryId

theorem OffersCurrent.endorsed (current : OffersCurrent graph) (offered : Offered graph entry) :
    PubliclyEndorsed graph entry := by
  obtain ⟨row, member, rfl, _, open_, memoryLive⟩ := offered
  exact (current_iff.mp (current row member open_ memoryLive)).2

theorem OffersCurrent.step (current : OffersCurrent before) (reachable : Reachable before)
    (keeps : KeepsOffers before event after) : OffersCurrent after := by
  obtain ⟨folds, unclosed, unretired⟩ := keeps
  have endorsed := (endorsed_step_iff reachable folds fun _ => current.endorsed).mpr unclosed
  obtain ⟨_, applied⟩ := folds
  intro row member open_ memoryLive
  -- whatever is live after the step is on offer there, and so endorsed
  suffices live : row.supersededBy = none from
    current_iff.mpr ⟨⟨row, member, rfl, live⟩,
      endorsed row.entryId ⟨row, member, rfl, live, open_, memoryLive⟩⟩
  rcases (mem_entries_apply applied).mp member with ⟨old, oldMem, rfl⟩ | appends
  · rw [entryChange_visibility] at open_
    rw [entryChange_memoryId] at memoryLive
    have wasLive := memory_live_before reachable applied oldMem memoryLive
    obtain ⟨⟨same, sameMem, sameId, live⟩, _⟩ := current_iff.mp (current old oldMem open_ wasLive)
    rw [Table.eq_of_key_eq sameMem oldMem sameId] at live
    exact (entryChange_live_iff live).mpr
      (unretired old.entryId ⟨old, oldMem, rfl, live, open_, wasLive⟩)
  · exact appendedRow_live appends

theorem offersCurrent_run (run : Trace KeepsOffers before events after)
    (reachable : Reachable before) (current : OffersCurrent before) : OffersCurrent after := by
  have both : Reachable before ∧ OffersCurrent before := ⟨reachable, current⟩
  refine (run.invariant (fun graph => Reachable graph ∧ OffersCurrent graph) ?_ both).2
  rintro one event two keeps ⟨reached, held⟩
  exact ⟨reached.step keeps.1, held.step reached keeps⟩

theorem currentContent_eq (indexes : Indexes events graph) (current : OffersCurrent graph)
    {id : MemoryId} (live : (graph.liveRow id).isSome = true) :
    currentContent graph events id = joined ((indexedTexts id events).map (·.2)) := by
  have all : ∀ source ∈ indexedTexts id events,
      (source.1.all fun entry => decide (Current graph entry)) = true := by
    intro source member
    obtain ⟨event, eventMem, indexed⟩ := List.mem_filterMap.mp member
    obtain ⟨_, entries⟩ := indexes.sources event eventMem id source indexed
    cases named : source.1 with
    | none => rfl
    | some entry =>
      obtain ⟨row, rowMem, rfl, owner, open_⟩ := entries entry named
      rw [← owner] at live
      simpa using current row rowMem open_ live
  rw [currentContent, List.filter_eq_self.mpr all]

end Currency

/-- Along a run that retires no entry on offer, and takes the one public endorsement of
none, every lexical hit shows what is current. What begins such a run is one, so this
holds in every graph it visits. -/
theorem lexical_hits_current {events : List Event} {graph : Graph}
    (run : Trace KeepsOffers Graph.fresh events graph) (fts5 : Fts5) (query : String)
    (limit : Nat) :
    HitsCurrent fts5 graph events query limit := by
  have folds : Trace Folds Graph.fresh events graph := run.mono fun _ _ _ keeps => keeps.1
  have start : Indexes [] Graph.fresh := by
    refine ⟨?_, ?_⟩
    · intro row member
      cases member
    · intro event member
      cases member
  have indexes : Indexes events graph := indexes_run folds start
  have current : OffersCurrent graph := by
    refine offersCurrent_run run .fresh ?_
    intro row member
    cases member
  rintro hit member text shown ⟨_, columns, content⟩
  obtain ⟨live, row, rowMem, same, column, window⟩ := searchLexical_spec member
  obtain ⟨memory, memoryMem, owner, name, description, indexed⟩ := indexes.rows row rowMem
  have occurs : Occurs text (columnText row column) := shown.trans window
  obtain ⟨unnamed, undescribed⟩ := columns memory memoryMem (owner.trans same)
  -- the window is of one of the three columns, and the text occurs in none
  cases column with
  | name => exact unnamed (by rw [← name]; exact occurs)
  | description => exact undescribed (by rw [← description]; exact occurs)
  | content =>
    rw [currentContent_eq indexes current live, ← same, ← indexed] at content
    exact content occurs

/-! A retracted fact is still found by its words. -/

namespace Rose

def wholeColumns : Fts5 where
  ranked _ rows := rows
  best _ _ := .content
  snippet _ row column := ⟨columnText row column, column = .content, false, false⟩
  ranked_mem _ _ _ member := member
  snippet_window _ _ _ := List.infix_refl _

def planting : Event := ⟨1, ⟨0⟩, .agent, .memoryCreated ⟨1⟩ ⟨"topic/garden"⟩⟩

def telling : Event :=
  ⟨2, ⟨1⟩, .agent,
    .memoryContentAppended ⟨1⟩ ⟨1⟩ ⟨1⟩ none "the rose is red" .agent none .public⟩

def retraction : Event := ⟨3, ⟨2⟩, .agent, .entryRetracted ⟨1⟩ ⟨1⟩ "it is white" none⟩

def planted : Graph := ((Graph.apply planting Graph.fresh).toOption).getD Graph.fresh

def rosy : Graph := ((Graph.apply telling planted).toOption).getD planted

def bare : Graph := ((Graph.apply retraction rosy).toOption).getD rosy

theorem planting_folds : Folds Graph.fresh planting planted := ⟨rfl, rfl⟩

theorem telling_folds : Folds planted telling rosy := ⟨rfl, rfl⟩

theorem retraction_folds : Folds rosy retraction bare := ⟨rfl, rfl⟩

def gardenRow : FtsRow := ⟨⟨1⟩, ⟨"topic/garden"⟩, "", "" ++ " " ++ "the rose is red"⟩

/-- A search for the rose still shows what was retracted. -/
theorem retracted_text_found :
    Trace Folds Graph.fresh [planting, telling, retraction] bare ∧
      ¬HitsCurrent wholeColumns bare [planting, telling, retraction] "rose" 10 := by
  refine ⟨.cons planting_folds (.cons telling_folds (.single retraction_folds)), fun current => ?_⟩
  refine current (lexicalHit wholeColumns (buildMatch "rose") gardenRow) ?_ "the rose is red" ?_
    ⟨?_, ?_, ?_⟩
  · have asked : (buildMatch "rose").isEmpty = false := by decide
    have stored : bare.fts = [gardenRow] := rfl
    have live : (bare.liveRow gardenRow.memoryId).isSome = true := by decide
    simp [searchLexical, asked, wholeColumns, stored, live]
  · show _ <:+: ("" ++ " " ++ "the rose is red").toList
    rw [String.toList_append]
    exact (List.suffix_append _ _).isInfix
  · have dead : ∃ row ∈ bare.entries, row.memoryId = ⟨1⟩ ∧ ¬Current bare row.entryId ∧
        row.text = "the rose is red" := by decide
    obtain ⟨row, member, owner, dead, text⟩ := dead
    exact ⟨row, member, owner, dead, by rw [text]; exact List.infix_refl _⟩
  · intro memory member _
    have columns : ∀ memory ∈ bare.memories, memory.name.text = "topic/garden" ∧
        memory.description = "" := by decide
    obtain ⟨name, description⟩ := columns memory member
    rw [name, description]
    constructor
    · -- no letter h is in the name
      intro occurs
      have letter : 'h' ∈ "topic/garden".toList := occurs.subset (by decide)
      revert letter
      decide
    · decide
  · have none : (indexedTexts ⟨1⟩ [planting, telling, retraction]).filter (fun source =>
        source.1.all fun entry => Current bare entry) = [] := by decide
    have empty : currentContent bare [planting, telling, retraction] ⟨1⟩ = "" := by
      rw [currentContent, none]
      rfl
    rw [show (lexicalHit wholeColumns (buildMatch "rose") gardenRow).id = ⟨1⟩ from rfl, empty]
    decide

/-- Before the retraction the search shows nothing but what is current, as the general
result has it. -/
theorem lexical_hits_current_rose :
    HitsCurrent wholeColumns rosy [planting, telling] "rose" 10 := by
  have spares : ∀ before event after, Folds before event after → narrowed event.payload = none →
      (∀ entry, ¬Retires before entry event.payload) → KeepsOffers before event after := by
    rintro before event after folds unnarrowed unretired
    refine ⟨folds, ?_, fun entry _ => unretired entry⟩
    rintro ⟨entry, teller, _, _, narrows, _⟩
    rw [unnarrowed] at narrows
    cases narrows
  have planted := spares _ _ _ planting_folds rfl fun _ => not_false
  have told := spares _ _ _ telling_folds rfl fun _ => not_false
  exact lexical_hits_current (.cons planted (.single told)) wholeColumns "rose" 10

end Rose

end Zuihitsu.Search
