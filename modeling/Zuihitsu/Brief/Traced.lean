/-
# The trace of a brief

Beside the brief stands its derivation: for every memory the composer considered, the
verdict on each of its entries and whether it reached the text. The trace walks the
history of each memory with reads of its own and takes over from the composer only who
was given a full block. The main result says exactly when its marks are the facts that
the text holds.
-/

import Zuihitsu.Brief.Compose

namespace Zuihitsu

open Zuihitsu.Core Zuihitsu.Graph Zuihitsu.Library Zuihitsu.MemoryBlock

/-- The role a memory played in the brief. -/
inductive SectionKind where
  | selfBrief
  | currentRoom
  | participant
  | activeThread
  deriving DecidableEq, Repr

/-- One entry's fate. The entry's id is not part of the source's record. -/
structure EntryTrace where
  entry : EntryId
  text : String
  visibility : Visibility
  decision : VisibilityDecision
  inBrief : Bool

/-- One memory's contribution. The memory's id is not part of the source's record. -/
structure BriefSectionTrace where
  id : MemoryId
  kind : SectionKind
  memory : MemoryName
  confidential : Bool
  entries : List EntryTrace

/-- A brief with its derivation. -/
structure BriefTrace where
  text : String
  sections : List BriefSectionTrace

section Trace

variable (formats : BriefFormats) (graph : Graph) (settings : BriefSettings)
variable (request : BriefRequest)

/-- The positions in the history of the entries that surface. -/
def visiblePositions (memory : MemoryView) : List Nat :=
  ((graph.classHistory memory.id).zipIdx.filter fun item =>
    entryShown graph request.presentSet memory item.1).map (·.2)

/-- The fate of the entry at a position. Where the block was rendered, the last few of the
surfacing entries are marked. -/
def entryTrace (memory : MemoryView) (surfaced : Bool) (item : EntryView × Nat) : EntryTrace where
  entry := item.1.entryId
  text := item.1.text
  visibility := item.1.visibility
  decision := entryDecision graph request.presentSet memory item.1
  inBrief := surfaced && decide (item.2 ∈
    lastOf settings.recentFacts.toNat (visiblePositions graph request memory))

/-- Trace one memory's contribution. -/
def sectionTrace (kind : SectionKind) (memory : MemoryView) (surfaced : Bool) :
    BriefSectionTrace where
  id := memory.id
  kind := kind
  memory := memory.name
  confidential := false
  entries := (graph.classHistory memory.id).zipIdx.map
    (entryTrace graph settings request memory surfaced)

/-- The section of the current room. -/
def roomTrace (context : MemoryView) : BriefSectionTrace :=
  { sectionTrace graph settings request .currentRoom context true with
    confidential := context.tags.contains .confidential }

/-- The sections of a trace, in composition order. -/
def tracedSections (plan : BriefPlan) : List BriefSectionTrace :=
  (graph.selfMemory.toList.map fun memory =>
      sectionTrace graph settings request .selfBrief memory true) ++
    ((request.currentContext.bind graph.memoryById).toList.map (roomTrace graph settings request)) ++
    (((presentOrder graph request).filterMap graph.memoryById).map fun memory =>
      sectionTrace graph settings request .participant memory
        (memory.id ∈ plan.fullParticipants)) ++
    (((request.workingSet.filter fun id => !shownAbove graph request id).filterMap
        graph.memoryById).map fun memory =>
      sectionTrace graph settings request .activeThread memory (memory.id ∈ plan.includedThreads))

/-- Compose the brief and its trace. -/
def composeTraced : Option BriefTrace :=
  (composePacked formats graph settings request).map fun packed =>
    ⟨packed.text, tracedSections graph settings request packed.plan⟩

end Trace

/-- The text holds a block of a memory with an entry among the facts rendered in it. -/
def PackedBrief.Renders (packed : PackedBrief) (memory : MemoryId) (entry : EntryId) : Prop :=
  ∃ piece ∈ packed.pieces, piece.memory = some memory ∧ ∃ fact ∈ piece.facts, fact.entry = entry

instance (packed : PackedBrief) (memory : MemoryId) (entry : EntryId) :
    Decidable (packed.Renders memory entry) :=
  inferInstanceAs (Decidable (∃ piece ∈ packed.pieces,
    piece.memory = some memory ∧ ∃ fact ∈ piece.facts, fact.entry = entry))

/-- The marks of a trace are the facts that the text holds. -/
def BriefTrace.Agrees (trace : BriefTrace) (packed : PackedBrief) : Prop :=
  ∀ part ∈ trace.sections, ∀ line ∈ part.entries,
    line.inBrief = true ↔ packed.Renders part.id line.entry

/-! ### What the text holds -/

/-- Every fact in the pieces is of one of the memories told, and each of these has a block
with its facts. -/
structure Accounts (factsOf : MemoryId → List BriefFact) (told : List MemoryId)
    (pieces : List Piece) : Prop where
  sound : ∀ piece ∈ pieces, piece.facts = [] ∨
    ∃ id ∈ told, piece.memory = some id ∧ piece.facts = factsOf id
  complete : ∀ id ∈ told, ∃ piece ∈ pieces, piece.memory = some id ∧ piece.facts = factsOf id

section Accounts

variable {factsOf : MemoryId → List BriefFact} {told more : List MemoryId}
variable {pieces others : List Piece}

theorem accounts_nil : Accounts factsOf [] [] :=
  ⟨fun _ => nofun, fun _ => nofun⟩

theorem accounts_plain {piece : Piece} (plain : piece.facts = []) : Accounts factsOf [] [piece] :=
  ⟨List.forall_mem_singleton.mpr (.inl plain), fun _ => nofun⟩

theorem accounts_block {piece : Piece} {id : MemoryId} (block : piece.memory = some id)
    (facts : piece.facts = factsOf id) : Accounts factsOf [id] [piece] :=
  ⟨List.forall_mem_singleton.mpr (.inr ⟨id, List.mem_singleton_self _, block, facts⟩),
    List.forall_mem_singleton.mpr ⟨piece, List.mem_singleton_self _, block, facts⟩⟩

theorem Accounts.append (first : Accounts factsOf told pieces)
    (second : Accounts factsOf more others) : Accounts factsOf (told ++ more) (pieces ++ others) where
  sound := by
    intro piece member
    rcases List.mem_append.mp member with here | there
    · exact (first.sound piece here).imp_right fun ⟨id, among, block⟩ =>
        ⟨id, List.mem_append_left _ among, block⟩
    · exact (second.sound piece there).imp_right fun ⟨id, among, block⟩ =>
        ⟨id, List.mem_append_right _ among, block⟩
  complete := by
    intro id member
    rcases List.mem_append.mp member with here | there
    · obtain ⟨piece, among, block⟩ := first.complete id here
      exact ⟨piece, List.mem_append_left _ among, block⟩
    · obtain ⟨piece, among, block⟩ := second.complete id there
      exact ⟨piece, List.mem_append_right _ among, block⟩

theorem Accounts.plain (accounts : Accounts factsOf told pieces) {piece : Piece}
    (plain : piece.facts = []) : Accounts factsOf told (pieces ++ [piece]) := by
  simpa using accounts.append (accounts_plain plain)

theorem Accounts.renders_iff (accounts : Accounts factsOf told pieces) {plan : BriefPlan}
    {memory : MemoryId} {entry : EntryId} :
    (PackedBrief.mk pieces plan).Renders memory entry ↔
      memory ∈ told ∧ entry ∈ (factsOf memory).map (·.entry) := by
  rw [List.mem_map]
  constructor
  · rintro ⟨piece, member, block, fact, among, named⟩
    rcases accounts.sound piece member with none | ⟨id, isTold, owner, facts⟩
    · rw [none] at among
      cases among
    · obtain rfl : id = memory := Option.some.inj (owner.symm.trans block)
      exact ⟨isTold, fact, facts ▸ among, named⟩
  · rintro ⟨isTold, fact, among, named⟩
    obtain ⟨piece, member, block, facts⟩ := accounts.complete memory isTold
    exact ⟨piece, member, block, fact, facts ▸ among, named⟩

end Accounts

section Composed

variable {formats : BriefFormats} {graph : Graph} {settings : BriefSettings}
variable {request : BriefRequest}

/-- The facts a block of a memory renders. -/
def factsOf (formats : BriefFormats) (graph : Graph) (settings : BriefSettings)
    (request : BriefRequest) (id : MemoryId) : List BriefFact :=
  ((graph.memoryById id).map
    (visibleRecentFacts formats graph settings request.presentSet request.now)).getD []

theorem factsOf_of_found {id : MemoryId} {memory : MemoryView}
    (found : graph.memoryById id = some memory) :
    factsOf formats graph settings request id =
      visibleRecentFacts formats graph settings request.presentSet request.now memory := by
  simp [factsOf, found]

/-- The agent's own memory, as a list. -/
def ownIds (graph : Graph) : List MemoryId := (graph.selfMemory.map (·.id)).toList

/-- The memories whose facts are told under a plan. -/
def toldOf (graph : Graph) (plan : BriefPlan) : List MemoryId :=
  ownIds graph ++ plan.fullParticipants ++ plan.includedThreads

/-- What the participants' sections keep: the facts are the agent's own and those of the
full blocks, each of an attending memory of another identity than the agent's. -/
structure Presented (formats : BriefFormats) (graph : Graph) (settings : BriefSettings)
    (request : BriefRequest) (packing : Packing) : Prop where
  accounts : Accounts (factsOf formats graph settings request)
    (ownIds graph ++ packing.fullParticipants) packing.pieces
  attending : ∀ id ∈ packing.fullParticipants, id ∈ request.presentSet ∧
    (graph.memoryById id).isSome = true ∧
    ∀ memory, graph.selfMemory = some memory → graph.classOf id ≠ graph.classOf memory.id
  own : ∀ memory, graph.selfMemory = some memory →
    graph.classOf memory.id ∈ packing.renderedClasses
  cold : packing.includedThreads = []

theorem presented_composeSelf :
    Presented formats graph settings request
      (composeSelf formats graph settings request ⟨settings.charBudget.toNat, [], [], 0, [], []⟩) := by
  unfold composeSelf
  cases found : graph.selfMemory with
  | none =>
    refine ⟨?_, fun _ => nofun, fun _ named => ?_, rfl⟩
    · simpa [ownIds, found] using accounts_nil
    · rw [found] at named
      cases named
  | some memory =>
    refine ⟨?_, fun _ => nofun, fun other named => ?_, rfl⟩
    · have block : Accounts (factsOf formats graph settings request) [memory.id]
          [selfPiece formats graph settings request memory] :=
        accounts_block rfl (factsOf_of_found (memoryById_of_selfMemory found)).symm
      simpa [ownIds, found, Packing.charge, Packing.render] using block
    · rw [found] at named
      cases named
      exact List.mem_append_right _ (List.mem_singleton_self _)

theorem Presented.charge {packing : Packing} (presented : Presented formats graph settings request packing)
    {piece : Piece} (plain : piece.facts = []) :
    Presented formats graph settings request (packing.charge piece) :=
  ⟨presented.accounts.plain plain, presented.attending, presented.own, presented.cold⟩

theorem Presented.composeRoom {packing : Packing}
    (presented : Presented formats graph settings request packing) :
    Presented formats graph settings request (composeRoom graph request packing) := by
  unfold Zuihitsu.composeRoom
  split
  · exact presented.charge rfl
  · exact presented

theorem Presented.render {packing : Packing}
    (presented : Presented formats graph settings request packing) (identity : MemoryId) :
    Presented formats graph settings request (packing.render identity) :=
  ⟨presented.accounts, presented.attending,
    fun memory named => List.mem_append_left _ (presented.own memory named), presented.cold⟩

theorem Presented.step {packing : Packing}
    (presented : Presented formats graph settings request packing) {participant : MemoryId}
    (attends : participant ∈ request.presentSet) :
    Presented formats graph settings request
      (presentStep formats graph settings request packing participant) := by
  rcases presentStep_cases formats settings packing participant with
    same | ⟨memory, found, anew, full | named⟩
  · rwa [same]
  · rw [full]
    refine ⟨?_, ?_, (presented.render _).own, presented.cold⟩
    · have block : Accounts (factsOf formats graph settings request) [participant]
          [memoryPiece formats graph settings request memory] :=
        accounts_block (congrArg some (memoryById_id found)) (factsOf_of_found found).symm
      simpa [Packing.placeFull, Packing.charge, Packing.render] using presented.accounts.append block
    · intro id member
      rcases List.mem_append.mp member with earlier | now
      · exact presented.attending id earlier
      · obtain rfl := List.mem_singleton.mp now
        refine ⟨attends, by rw [found]; rfl, fun own isOwn same => anew ?_⟩
        rw [same]
        exact presented.own own isOwn
  · rw [named]
    exact (presented.render _).charge rfl

theorem Presented.steps {order : List MemoryId} (attend : ∀ id ∈ order, id ∈ request.presentSet)
    {packing : Packing} (presented : Presented formats graph settings request packing) :
    Presented formats graph settings request
      (order.foldl (presentStep formats graph settings request) packing) := by
  induction order generalizing packing with
  | nil => exact presented
  | cons first rest ih =>
    exact ih (fun id later => attend id (List.mem_cons_of_mem _ later))
      (presented.step (attend first List.mem_cons_self))

theorem Presented.composePresent {packing : Packing}
    (presented : Presented formats graph settings request packing) :
    Presented formats graph settings request
      (composePresent formats graph settings request packing) := by
  unfold Zuihitsu.composePresent
  split
  · exact presented
  · exact (presented.charge rfl).steps fun id member => mem_presentOrder.mp member

theorem threadStep_cases (formats : BriefFormats) (settings : BriefSettings) (packing : Packing)
    (id : MemoryId) :
    threadStep formats graph settings request packing id = packing ∨
      ∃ memory, graph.memoryById id = some memory ∧ shownAbove graph request id = false ∧
        threadStep formats graph settings request packing id =
          packing.placeThread id (graph.classOf id) (memoryPiece formats graph settings request memory) := by
  unfold threadStep
  split
  · exact .inl rfl
  · rename_i below
    rw [not_or, Bool.not_eq_true] at below
    cases found : graph.memoryById id with
    | none => exact .inl rfl
    | some memory =>
      dsimp only [threadBlock]
      rw [memoryById_id found]
      split
      · exact .inl rfl
      · split
        · exact .inr ⟨memory, rfl, below.1, rfl⟩
        · exact .inl rfl

/-- What the threads' section keeps, of the pieces it has pushed itself. -/
structure Threaded (formats : BriefFormats) (graph : Graph) (settings : BriefSettings)
    (request : BriefRequest) (packing : Packing) : Prop where
  accounts : Accounts (factsOf formats graph settings request) packing.includedThreads
    packing.pieces
  below : ∀ id ∈ packing.includedThreads, id ∈ request.workingSet ∧
    shownAbove graph request id = false ∧ (graph.memoryById id).isSome = true

theorem Threaded.step {packing : Packing}
    (threaded : Threaded formats graph settings request packing) {id : MemoryId}
    (carried : id ∈ request.workingSet) :
    Threaded formats graph settings request
        (threadStep formats graph settings request packing id) ∧
      (threadStep formats graph settings request packing id).fullParticipants =
        packing.fullParticipants := by
  rcases threadStep_cases formats settings packing id with same | ⟨memory, found, below, placed⟩
  · rw [same]
    exact ⟨threaded, rfl⟩
  · rw [placed]
    refine ⟨⟨?_, ?_⟩, rfl⟩
    · have block : Accounts (factsOf formats graph settings request) [id]
          [memoryPiece formats graph settings request memory] :=
        accounts_block (congrArg some (memoryById_id found)) (factsOf_of_found found).symm
      exact threaded.accounts.append block
    · intro other member
      rcases List.mem_append.mp member with earlier | now
      · exact threaded.below other earlier
      · obtain rfl := List.mem_singleton.mp now
        exact ⟨carried, below, by rw [found]; rfl⟩

theorem Threaded.steps {carried : List MemoryId} (among : ∀ id ∈ carried, id ∈ request.workingSet)
    {packing : Packing} (threaded : Threaded formats graph settings request packing) :
    Threaded formats graph settings request
        (carried.foldl (threadStep formats graph settings request) packing) ∧
      (carried.foldl (threadStep formats graph settings request) packing).fullParticipants =
        packing.fullParticipants := by
  induction carried generalizing packing with
  | nil => exact ⟨threaded, rfl⟩
  | cons first rest ih =>
    have step := threaded.step (among first List.mem_cons_self)
    have run := ih (fun id later => among id (List.mem_cons_of_mem _ later)) step.1
    exact ⟨run.1, run.2.trans step.2⟩

/-- What the composed memories' sections hold. -/
structure Composed (formats : BriefFormats) (graph : Graph) (settings : BriefSettings)
    (request : BriefRequest) (pieces : List Piece) (plan : BriefPlan) : Prop where
  accounts : Accounts (factsOf formats graph settings request) (toldOf graph plan) pieces
  attending : ∀ id ∈ plan.fullParticipants, id ∈ request.presentSet ∧
    (graph.memoryById id).isSome = true ∧
    ∀ memory, graph.selfMemory = some memory → graph.classOf id ≠ graph.classOf memory.id
  below : ∀ id ∈ plan.includedThreads, id ∈ request.workingSet ∧
    shownAbove graph request id = false ∧ (graph.memoryById id).isSome = true

theorem Presented.composeThreads {packing : Packing}
    (presented : Presented formats graph settings request packing) :
    let packed := composeThreads formats graph settings request packing
    Composed formats graph settings request packed.pieces
      ⟨packed.fullParticipants, packed.includedThreads⟩ := by
  have without : Composed formats graph settings request packing.pieces
      ⟨packing.fullParticipants, packing.includedThreads⟩ := by
    refine ⟨?_, presented.attending, ?_⟩
    · simpa [toldOf, presented.cold] using presented.accounts
    · rw [presented.cold]
      exact fun _ => nofun
  unfold Zuihitsu.composeThreads
  dsimp only
  split
  · exact without
  · have start : Threaded formats graph settings request
        { packing with
          remaining := packing.remaining - charLen "# Active threads\n", pieces := [] } := by
      refine ⟨?_, ?_⟩ <;> rw [presented.cold]
      · exact accounts_nil
      · exact fun _ => nofun
    obtain ⟨threaded, full⟩ := start.steps fun id member => member
    split
    · rename_i empty
      -- no block was pushed, and so no thread was admitted
      have admitted : (request.workingSet.foldl (threadStep formats graph settings request)
          { packing with
            remaining := packing.remaining - charLen "# Active threads\n",
            pieces := [] }).includedThreads = [] := by
        refine List.eq_nil_iff_forall_not_mem.mpr fun id member => ?_
        obtain ⟨piece, among, _⟩ := threaded.accounts.complete id member
        rw [List.isEmpty_iff.mp empty] at among
        cases among
      dsimp only
      rw [full, admitted, ← presented.cold]
      exact without
    · dsimp only
      rw [full]
      refine ⟨?_, presented.attending, threaded.below⟩
      have headed : Accounts (factsOf formats graph settings request)
          (ownIds graph ++ packing.fullParticipants)
          (packing.pieces ++ [⟨"# Active threads\n", none, []⟩]) := presented.accounts.plain rfl
      simpa [toldOf] using headed.append threaded.accounts

theorem plain_of_composeUpcoming {packing : Packing} {upcoming : List Piece}
    (composed : composeUpcoming formats graph settings request packing = some upcoming) :
    ∀ piece ∈ upcoming, piece.facts = [] := by
  have fitting : ∀ lines remaining, ∀ piece ∈ fittingLines remaining lines, piece.facts = [] := by
    intro lines
    induction lines with
    | nil => exact fun _ _ => nofun
    | cons first rest ih =>
      intro remaining
      unfold fittingLines
      split
      · exact List.forall_mem_cons.mpr ⟨rfl, ih _⟩
      · exact fun _ => nofun
  obtain ⟨lines, _, rfl⟩ := Option.map_eq_some_iff.mp composed
  dsimp only
  split
  · exact fun _ => nofun
  · split
    · exact fun _ => nofun
    · exact List.forall_mem_cons.mpr ⟨rfl, fitting _ _⟩

theorem composed_of_composePacked {packed : PackedBrief}
    (composed : composePacked formats graph settings request = some packed) :
    Composed formats graph settings request packed.pieces packed.plan := by
  obtain ⟨upcoming, ended, rfl⟩ := Option.map_eq_some_iff.mp composed
  have start : Presented formats graph settings request _ := presented_composeSelf
  have memories := start.composeRoom.composePresent.composeThreads
  refine ⟨?_, memories.attending, memories.below⟩
  have plain : Accounts (factsOf formats graph settings request) [] upcoming :=
    ⟨fun piece member => .inl (plain_of_composeUpcoming ended piece member), fun _ => nofun⟩
  have all := memories.accounts.append plain
  rw [List.append_nil] at all
  exact all

theorem renders_iff {packed : PackedBrief}
    (composed : composePacked formats graph settings request = some packed) {memory : MemoryId}
    {entry : EntryId} :
    packed.Renders memory entry ↔ memory ∈ toldOf graph packed.plan ∧
      entry ∈ (factsOf formats graph settings request memory).map (·.entry) :=
  (composed_of_composePacked composed).accounts.renders_iff

end Composed

/-! ### The marks of a section -/

section Marks

variable {formats : BriefFormats} {graph : Graph} {settings : BriefSettings}
variable {request : BriefRequest} {memory : MemoryView}

/-- The last few entries of a memory that its history read surfaces. -/
def recentHistory (graph : Graph) (settings : BriefSettings) (request : BriefRequest)
    (memory : MemoryView) : List EntryView :=
  lastOf settings.recentFacts.toNat
    ((graph.classHistory memory.id).filter (entryShown graph request.presentSet memory))

theorem nodup_classHistory (graph : Graph) (id : MemoryId) :
    ((graph.classHistory id).map (·.entryId)).Nodup := by
  have keys : (graph.classHistory id).map (·.entryId) =
      (graph.entryRowsWhere fun row => graph.inClass id row.memoryId).map (·.entryId) := by
    rw [classHistory, List.map_map]
    rfl
  rw [keys]
  exact nodup_entryRowsWhere graph _

theorem marked_iff {kind : SectionKind} {surfaced : Bool} {line : EntryTrace}
    (member : line ∈ (sectionTrace graph settings request kind memory surfaced).entries) :
    line.inBrief = true ↔
      surfaced = true ∧ line.entry ∈ (recentHistory graph settings request memory).map (·.entryId) := by
  obtain ⟨place, among, rfl⟩ := List.mem_map.mp member
  unfold entryTrace
  rw [Bool.and_eq_true, decide_eq_true_eq]
  exact and_congr_right fun _ => position_lastOf_iff (nodup_classHistory graph memory.id) among

theorem surfaces_of_standing (reachable : Reachable graph) {row : EntryRow}
    (stored : row ∈ graph.entries) (live : row.supersededBy = none)
    (shown : entryShown graph request.presentSet memory (entryFromRow graph .live row) = true) :
    entryShown graph request.presentSet memory (entryFromRow graph .withWithdrawn row) = true := by
  have probed : ∀ scope, probe (entryFromRow graph scope row) = entryFromRow graph scope row := by
    intro scope
    simp [probe, entryFromRow, live]
  rw [entryShown_iff, ← probed, surfaces_live_iff reachable.endorsed stored live] at shown
  obtain ⟨attestation, member, stands, passes⟩ := shown
  rw [entryShown_iff, surfaces_iff (List.ne_nil_of_mem member)]
  exact ⟨live, fun other _ => resolves_of_total (blockClassOf_total graph) _ _ other,
    .inl ⟨attestation, member, stands, passes⟩⟩

theorem standing_iff (reachable : Reachable graph) {row : EntryRow} (stored : row ∈ graph.entries)
    (surfaces : entryShown graph request.presentSet memory
      (entryFromRow graph .withWithdrawn row) = true) :
    (row.supersededBy.isNone &&
        entryShown graph request.presentSet memory (entryFromRow graph .live row)) = true ↔
      ¬AnsweredByWithdrawn (blockClassOf graph) (entryFromRow graph .withWithdrawn row) memory
        request.presentSet := by
  have resolves := fun attestation => resolves_of_total (blockClassOf_total graph)
    (subjectParticipant memory.name memory.id) request.presentSet attestation
  have live : row.supersededBy = none := by
    obtain ⟨decision, explained, visible⟩ := entryShown_iff.mp surfaces
    cases superseded : row.supersededBy with
    | none => rfl
    | some =>
      simp only [explain, entryFromRow, superseded, Option.isSome_some, if_true,
        Except.ok.injEq] at explained
      rw [← explained] at visible
      cases visible
  have probed : probe (entryFromRow graph .live row) = entryFromRow graph .live row := by
    simp [probe, entryFromRow, live]
  have listed : (entryFromRow graph .withWithdrawn row).attestations ≠ [] := by
    obtain ⟨endorsement, member, owner, _⟩ := reachable.endorsed row stored live
    exact List.ne_nil_of_mem (mem_attestationsFor.mpr ⟨endorsement, member, owner, rfl, rfl⟩)
  rw [live, Option.isNone_none, Bool.true_and, entryShown_iff, ← probed,
    surfaces_live_iff reachable.endorsed stored live]
  constructor
  · rintro ⟨attestation, member, stands, passes⟩ ⟨_, _, _, none⟩
    exact none attestation member stands passes
  · intro notAnswered
    by_contra noneStands
    obtain ⟨_, _, passing⟩ := (surfaces_iff listed).mp (entryShown_iff.mp surfaces)
    obtain ⟨founding, first, passes⟩ := passing.resolve_left noneStands
    have none : ∀ attestation ∈ (entryFromRow graph .withWithdrawn row).attestations,
        attestation.Live → ¬Passes (blockClassOf graph) (subjectParticipant memory.name memory.id)
          request.presentSet attestation :=
      fun attestation member stands shown => noneStands ⟨attestation, member, stands, shown⟩
    refine notAnswered ⟨live, fun attestation _ => resolves attestation,
      ⟨founding, first, fun stands => ?_, passes⟩, none⟩
    exact none founding (List.mem_of_mem_head? first) stands passes

/-- The rows of a memory's class that the history surfaces. -/
def surfacingRows (graph : Graph) (request : BriefRequest) (memory : MemoryView) : List EntryRow :=
  (graph.entryRowsWhere fun row => graph.inClass memory.id row.memoryId).filter fun row =>
    entryShown graph request.presentSet memory (entryFromRow graph .withWithdrawn row)

theorem mem_surfacingRows {row : EntryRow} (member : row ∈ surfacingRows graph request memory) :
    row ∈ graph.entries ∧
      entryShown graph request.presentSet memory (entryFromRow graph .withWithdrawn row) = true :=
  ⟨(mem_entryRowsWhere.mp (List.mem_filter.mp member).1).1, (List.mem_filter.mp member).2⟩

theorem recentHistory_eq :
    recentHistory graph settings request memory =
      (lastOf settings.recentFacts.toNat (surfacingRows graph request memory)).map
        (entryFromRow graph .withWithdrawn) := by
  rw [recentHistory, classHistory, List.filter_map, lastOf_map]
  rfl

theorem renderedIds_eq (reachable : Reachable graph) :
    (visibleRecentFacts formats graph settings request.presentSet request.now memory).map (·.entry) =
      (lastOf settings.recentFacts.toNat ((surfacingRows graph request memory).filter fun row =>
        row.supersededBy.isNone &&
          entryShown graph request.presentSet memory (entryFromRow graph .live row))).map
        (·.entryId) := by
  have standing : (surfacingRows graph request memory).filter (fun row =>
        row.supersededBy.isNone &&
          entryShown graph request.presentSet memory (entryFromRow graph .live row)) =
      ((graph.entryRowsWhere fun row => graph.inClass memory.id row.memoryId).filter
        (·.supersededBy.isNone)).filter fun row =>
          entryShown graph request.presentSet memory (entryFromRow graph .live row) := by
    rw [surfacingRows, List.filter_filter, List.filter_filter]
    refine List.filter_congr fun row member => ?_
    have stored := (mem_entryRowsWhere.mp member).1
    rw [Bool.eq_iff_iff]
    simp only [Bool.and_eq_true, Option.isNone_iff_eq_none]
    constructor
    · rintro ⟨⟨live, shown⟩, _⟩
      exact ⟨shown, live⟩
    · rintro ⟨shown, live⟩
      exact ⟨⟨live, shown⟩, surfaces_of_standing reachable stored live shown⟩
  rw [standing, visibleRecentFacts, classEntries, entryRowsWhere_and, List.filter_map, lastOf_map,
    lastOf_map, List.map_map, List.map_map]
  rfl

theorem windows_agree_iff (reachable : Reachable graph) :
    (∀ entry, entry ∈ (recentHistory graph settings request memory).map (·.entryId) ↔
        entry ∈ (visibleRecentFacts formats graph settings request.presentSet request.now memory).map
          (·.entry)) ↔
      ∀ entry ∈ recentHistory graph settings request memory,
        ¬AnsweredByWithdrawn (blockClassOf graph) entry memory request.presentSet := by
  rw [renderedIds_eq reachable, recentHistory_eq, List.map_map, List.forall_mem_map]
  have distinct : ∀ first ∈ surfacingRows graph request memory,
      ∀ second ∈ surfacingRows graph request memory,
        first.entryId = second.entryId → first = second :=
    fun first firstMem second secondMem =>
      Table.eq_of_key_eq (mem_surfacingRows firstMem).1 (mem_surfacingRows secondMem).1
  refine (keys_lastOf_filter_iff distinct).trans (forall₂_congr fun row member => ?_)
  obtain ⟨stored, surfaces⟩ := mem_surfacingRows (mem_of_mem_lastOf member)
  exact standing_iff reachable stored surfaces

theorem rendered_in_history (reachable : Reachable graph) {entry : EntryId}
    (rendered : entry ∈ (visibleRecentFacts formats graph settings request.presentSet request.now
      memory).map (·.entry)) :
    entry ∈ (graph.classHistory memory.id).map (·.entryId) := by
  rw [renderedIds_eq reachable] at rendered
  obtain ⟨row, member, rfl⟩ := List.mem_map.mp rendered
  have among := (List.mem_filter.mp (mem_of_mem_lastOf member)).1
  exact List.mem_map.mpr ⟨entryFromRow graph .withWithdrawn row,
    List.mem_map_of_mem (List.mem_filter.mp among).1, rfl⟩

end Marks

/-! ### The trace against the text -/

section Agreement

variable {formats : BriefFormats} {graph : Graph} {settings : BriefSettings}
variable {request : BriefRequest} {packed : PackedBrief} {trace : BriefTrace}

/-- When a trace agrees with a brief composed under a plan. In a block that renders facts, no
entry among the last few that the history surfaces rests on a withdrawn endorsement alone. The
room, unless it has such a block for another reason, has no entry that surfaces in the window.
The agent's own block renders no facts if the agent itself is in the present set. -/
structure MarksHold (formats : BriefFormats) (graph : Graph) (settings : BriefSettings)
    (request : BriefRequest) (plan : BriefPlan) : Prop where
  blocks : ∀ memory, graph.memoryById memory.id = some memory → memory.id ∈ toldOf graph plan →
    ∀ entry ∈ recentHistory graph settings request memory,
      ¬AnsweredByWithdrawn (blockClassOf graph) entry memory request.presentSet
  room : ∀ context, request.currentContext.bind graph.memoryById = some context →
    context.id ∉ toldOf graph plan → recentHistory graph settings request context = []
  own : ∀ memory, graph.selfMemory = some memory → memory.id ∈ request.presentSet →
    visibleRecentFacts formats graph settings request.presentSet request.now memory = []

/-- The ids of the entries marked where a memory's block is rendered. -/
abbrev markedIds (graph : Graph) (settings : BriefSettings) (request : BriefRequest)
    (memory : MemoryView) : List EntryId :=
  (recentHistory graph settings request memory).map (·.entryId)

/-- The ids of the entries a memory's block renders. -/
abbrev renderedIds (formats : BriefFormats) (graph : Graph) (settings : BriefSettings)
    (request : BriefRequest) (memory : MemoryView) : List EntryId :=
  (visibleRecentFacts formats graph settings request.presentSet request.now memory).map (·.entry)

theorem section_agrees_iff (reachable : Reachable graph)
    (composed : composePacked formats graph settings request = some packed) (kind : SectionKind)
    {memory : MemoryView} (found : graph.memoryById memory.id = some memory) {surfaced : Bool} :
    (∀ line ∈ (sectionTrace graph settings request kind memory surfaced).entries,
        line.inBrief = true ↔ packed.Renders memory.id line.entry) ↔
      ∀ entry, (surfaced = true ∧ entry ∈ markedIds graph settings request memory) ↔
        (memory.id ∈ toldOf graph packed.plan ∧
          entry ∈ renderedIds formats graph settings request memory) := by
  have held : ∀ entry, packed.Renders memory.id entry ↔ memory.id ∈ toldOf graph packed.plan ∧
      entry ∈ renderedIds formats graph settings request memory := by
    intro entry
    rw [renders_iff composed, factsOf_of_found found]
  constructor
  · intro agree entry
    -- either side names an entry of the history, which has a line
    by_cases recorded : entry ∈ (graph.classHistory memory.id).map (·.entryId)
    · obtain ⟨view, member, rfl⟩ := List.mem_map.mp recorded
      obtain ⟨index, there⟩ := List.mem_iff_getElem?.mp member
      have placed : (view, index) ∈ (graph.classHistory memory.id).zipIdx :=
        List.mem_zipIdx_iff_getElem?.mpr there
      have line : entryTrace graph settings request memory surfaced (view, index) ∈
          (sectionTrace graph settings request kind memory surfaced).entries :=
        List.mem_map_of_mem placed
      have same : (entryTrace graph settings request memory surfaced (view, index)).entry =
          view.entryId := rfl
      rw [← held, ← same, ← agree _ line, marked_iff line]
    · constructor
      · rintro ⟨_, marked⟩
        obtain ⟨view, member, rfl⟩ := List.mem_map.mp marked
        exact absurd (List.mem_map_of_mem
          (List.mem_filter.mp (mem_of_mem_lastOf member)).1) recorded
      · rintro ⟨_, rendered⟩
        exact absurd (rendered_in_history reachable rendered) recorded
  · intro agree line member
    rw [marked_iff member, held]
    exact agree line.entry

theorem agrees_iff (traced : composeTraced formats graph settings request = some trace)
    (composed : composePacked formats graph settings request = some packed) :
    trace.Agrees packed ↔
      ∀ part ∈ tracedSections graph settings request packed.plan, ∀ line ∈ part.entries,
        line.inBrief = true ↔ packed.Renders part.id line.entry := by
  rw [composeTraced, composed, Option.map_some, Option.some.injEq] at traced
  rw [← traced]
  rfl

theorem mem_ownIds {id : MemoryId} :
    id ∈ ownIds graph ↔ ∃ memory, graph.selfMemory = some memory ∧ memory.id = id := by
  simp [ownIds]

theorem shownAbove_of_attends {id : MemoryId} (attends : id ∈ request.presentSet) :
    shownAbove graph request id = true := by
  simp [shownAbove, attends]

theorem shownAbove_of_own {id : MemoryId} (own : id ∈ ownIds graph) :
    shownAbove graph request id = true := by
  obtain ⟨memory, found, rfl⟩ := mem_ownIds.mp own
  simp [shownAbove, found]

theorem blocks_of_agrees (reachable : Reachable graph) {plan : BriefPlan} {memory : MemoryView}
    (told : memory.id ∈ toldOf graph plan) {surfaced : Bool} (rendered : surfaced = true)
    (agrees : ∀ entry, (surfaced = true ∧ entry ∈ markedIds graph settings request memory) ↔
      (memory.id ∈ toldOf graph plan ∧
        entry ∈ renderedIds formats graph settings request memory)) :
    ∀ entry ∈ recentHistory graph settings request memory,
      ¬AnsweredByWithdrawn (blockClassOf graph) entry memory request.presentSet := by
  have windows : ∀ entry, entry ∈ markedIds graph settings request memory ↔
      entry ∈ renderedIds formats graph settings request memory := by
    simpa only [rendered, told, true_and] using agrees
  exact (windows_agree_iff reachable).mp windows

theorem MarksHold.windows (reachable : Reachable graph) {plan : BriefPlan}
    (marks : MarksHold formats graph settings request plan) {memory : MemoryView}
    (found : graph.memoryById memory.id = some memory) (told : memory.id ∈ toldOf graph plan)
    {surfaced : Bool} (rendered : surfaced = true) (entry : EntryId) :
    (surfaced = true ∧ entry ∈ markedIds graph settings request memory) ↔
      (memory.id ∈ toldOf graph plan ∧
        entry ∈ renderedIds formats graph settings request memory) := by
  simp only [rendered, told, true_and]
  exact (windows_agree_iff reachable).mpr (marks.blocks memory found told) entry

theorem unmarked_of_untold {plan : BriefPlan} {memory : MemoryView} {surfaced : Bool}
    (collapsed : surfaced = false)
    (untold : memory.id ∈ toldOf graph plan →
      visibleRecentFacts formats graph settings request.presentSet request.now memory = [])
    (entry : EntryId) :
    (surfaced = true ∧ entry ∈ markedIds graph settings request memory) ↔
      (memory.id ∈ toldOf graph plan ∧
        entry ∈ renderedIds formats graph settings request memory) := by
  constructor
  · rintro ⟨rendered, _⟩
    exact absurd (collapsed.symm.trans rendered) (by decide)
  · rintro ⟨told, rendered⟩
    rw [renderedIds, untold told] at rendered
    cases rendered

/-- The marks of a trace are the facts the text holds exactly when the three conditions
are met. -/
theorem trace_agrees_iff (reachable : Reachable graph)
    (composed : composePacked formats graph settings request = some packed)
    (traced : composeTraced formats graph settings request = some trace) :
    trace.Agrees packed ↔ MarksHold formats graph settings request packed.plan := by
  have held := composed_of_composePacked composed
  have live : ∀ {id memory}, graph.memoryById id = some memory →
      graph.memoryById memory.id = some memory := by
    intro id memory found
    rwa [memoryById_id found]
  -- the agent's own block is no participant's, and no thread's memory is shown above
  have apart : ∀ memory, graph.selfMemory = some memory →
      memory.id ∉ packed.plan.fullParticipants :=
    fun memory isSelf full => (held.attending memory.id full).2.2 memory isSelf rfl
  have above : ∀ {id}, shownAbove graph request id = true →
      id ∉ packed.plan.includedThreads := by
    intro id shown included
    have below := (held.below id included).2.1
    rw [shown] at below
    cases below
  rw [agrees_iff traced composed]
  simp only [tracedSections, List.forall_mem_append, List.forall_mem_map]
  constructor
  · rintro ⟨⟨⟨own, room⟩, attending⟩, threads⟩
    constructor
    case blocks =>
      intro memory found told
      rcases List.mem_append.mp told with shown | included
      · rcases List.mem_append.mp shown with isOwn | full
        · obtain ⟨agent, isSelf, same⟩ := mem_ownIds.mp isOwn
          have itself := memoryById_of_selfMemory isSelf
          obtain rfl := eq_of_found itself found same
          exact blocks_of_agrees reachable told rfl
            ((section_agrees_iff reachable composed .selfBrief itself).mp
              (own agent (Option.mem_toList.mpr isSelf)))
        · have attends := (held.attending memory.id full).1
          have listed : memory ∈ (presentOrder graph request).filterMap graph.memoryById :=
            List.mem_filterMap.mpr ⟨memory.id, mem_presentOrder.mpr attends, found⟩
          exact blocks_of_agrees reachable told (decide_eq_true full)
            ((section_agrees_iff reachable composed _ found).mp (attending memory listed))
      · obtain ⟨carried, below, _⟩ := held.below memory.id included
        have listed : memory ∈ (request.workingSet.filter fun id =>
            !shownAbove graph request id).filterMap graph.memoryById :=
          List.mem_filterMap.mpr ⟨memory.id, List.mem_filter.mpr ⟨carried, by simp [below]⟩, found⟩
        exact blocks_of_agrees reachable told (decide_eq_true included)
          ((section_agrees_iff reachable composed _ found).mp (threads memory listed))
    case room =>
      intro context current untold
      obtain ⟨id, _, found⟩ := Option.bind_eq_some_iff.mp current
      have agrees := (section_agrees_iff reachable composed .currentRoom (live found)).mp
        (room context (Option.mem_toList.mpr current))
      have unmarked : markedIds graph settings request context = [] :=
        List.eq_nil_iff_forall_not_mem.mpr fun entry marked =>
          untold ((agrees entry).mp ⟨rfl, marked⟩).1
      exact List.map_eq_nil_iff.mp unmarked
    case own =>
      intro memory isSelf attends
      have found := memoryById_of_selfMemory isSelf
      have listed : memory ∈ (presentOrder graph request).filterMap graph.memoryById :=
        List.mem_filterMap.mpr ⟨memory.id, mem_presentOrder.mpr attends, found⟩
      have agrees := (section_agrees_iff reachable composed _ found).mp (attending memory listed)
      have told : memory.id ∈ toldOf graph packed.plan :=
        List.mem_append_left _ (List.mem_append_left _ (mem_ownIds.mpr ⟨memory, isSelf, rfl⟩))
      have unrendered : renderedIds formats graph settings request memory = [] :=
        List.eq_nil_iff_forall_not_mem.mpr fun entry rendered =>
          apart memory isSelf (of_decide_eq_true ((agrees entry).mpr ⟨told, rendered⟩).1)
      exact List.map_eq_nil_iff.mp unrendered
  · intro marks
    refine ⟨⟨⟨?own, ?room⟩, ?attending⟩, ?threads⟩
    case own =>
      intro memory member
      have isSelf := Option.mem_toList.mp member
      have found := memoryById_of_selfMemory isSelf
      have told : memory.id ∈ toldOf graph packed.plan :=
        List.mem_append_left _ (List.mem_append_left _ (mem_ownIds.mpr ⟨memory, isSelf, rfl⟩))
      exact (section_agrees_iff reachable composed _ found).mpr (marks.windows reachable found told rfl)
    case room =>
      intro context member
      have current := Option.mem_toList.mp member
      obtain ⟨id, _, named⟩ := Option.bind_eq_some_iff.mp current
      have found := live named
      refine (section_agrees_iff reachable composed .currentRoom found).mpr fun entry => ?_
      by_cases told : context.id ∈ toldOf graph packed.plan
      · exact marks.windows reachable found told rfl entry
      · rw [markedIds, marks.room context current told]
        simp [told]
    case attending =>
      intro memory member
      obtain ⟨id, attends, named⟩ := List.mem_filterMap.mp member
      have found := live named
      obtain rfl := memoryById_id named
      refine (section_agrees_iff reachable composed _ found).mpr ?_
      by_cases full : memory.id ∈ packed.plan.fullParticipants
      · have told : memory.id ∈ toldOf graph packed.plan :=
          List.mem_append_left _ (List.mem_append_right _ full)
        exact marks.windows reachable found told (decide_eq_true full)
      · refine unmarked_of_untold (decide_eq_false full) fun told => ?_
        have present := mem_presentOrder.mp attends
        rcases List.mem_append.mp told with shown | included
        · have isOwn := (List.mem_append.mp shown).resolve_right full
          obtain ⟨agent, isSelf, same⟩ := mem_ownIds.mp isOwn
          obtain rfl := eq_of_found (memoryById_of_selfMemory isSelf) found same
          exact marks.own agent isSelf present
        · exact absurd included (above (shownAbove_of_attends present))
    case threads =>
      intro memory member
      obtain ⟨id, carried, named⟩ := List.mem_filterMap.mp member
      have found := live named
      obtain rfl := memoryById_id named
      have below : shownAbove graph request memory.id = false := by
        simpa using (List.mem_filter.mp carried).2
      refine (section_agrees_iff reachable composed _ found).mpr ?_
      by_cases included : memory.id ∈ packed.plan.includedThreads
      · have told : memory.id ∈ toldOf graph packed.plan := List.mem_append_right _ included
        exact marks.windows reachable found told (decide_eq_true included)
      · refine unmarked_of_untold (decide_eq_false included) fun told => ?_
        have shown := (List.mem_append.mp told).resolve_right included
        have seen : shownAbove graph request memory.id = true := by
          rcases List.mem_append.mp shown with isOwn | full
          · exact shownAbove_of_own isOwn
          · exact shownAbove_of_attends (held.attending memory.id full).1
        rw [below] at seen
        cases seen

end Agreement

/-! A room about which something is known. -/

namespace Leads

def log : List EventPayload :=
  [.memoryCreated ⟨1⟩ ⟨"context/leads"⟩,
    .memoryContentAppended ⟨1⟩ ⟨10⟩ ⟨0⟩ none "the team meets on Mondays" .agent none .public]

def graph : Graph := ((commit ⟨0⟩ .agent log Graph.fresh).toOption).getD Graph.fresh

def formats : BriefFormats := ⟨fun _ => "", fun _ => "", ⟨fun _ => true, fun _ _ _ => none⟩, false⟩

def settings : BriefSettings := ⟨4000, 5, 5, 5, 0, 0⟩

def inRoom : BriefRequest := ⟨[], [], some ⟨1⟩, [], ⟨0⟩⟩

def elsewhere : BriefRequest := ⟨[], [], none, [⟨1⟩], ⟨0⟩⟩

theorem graph_reachable : Reachable graph := by
  have committed : commit ⟨0⟩ .agent log Graph.fresh = .ok graph := rfl
  exact Reachable.fresh.commit committed

/-- In the room, the trace marks the entry, and the text is the room's name alone. -/
theorem room_marked_unrendered :
    Reachable graph ∧ compose formats graph settings inRoom = some "# Current room: #leads\n\n" ∧
      ∃ packed trace, composePacked formats graph settings inRoom = some packed ∧
        composeTraced formats graph settings inRoom = some trace ∧ ¬trace.Agrees packed := by
  refine ⟨graph_reachable, rfl, _, _, rfl, rfl, fun agrees => ?_⟩
  have line := agrees (roomTrace graph settings inRoom ⟨⟨1⟩, ⟨"context/leads"⟩, "", .medium, ⟨0⟩, []⟩)
    List.mem_cons_self _ List.mem_cons_self
  exact absurd (line.mp (by decide)) (by decide)

/-- Elsewhere the thread's block renders the entry, and the general result decides its mark. -/
theorem trace_agrees_iff_elsewhere :
    ∃ packed trace, composePacked formats graph settings elsewhere = some packed ∧
      composeTraced formats graph settings elsewhere = some trace ∧
      (trace.Agrees packed ↔ MarksHold formats graph settings elsewhere packed.plan) :=
  ⟨_, _, rfl, rfl, trace_agrees_iff graph_reachable rfl rfl⟩

end Leads

end Zuihitsu
