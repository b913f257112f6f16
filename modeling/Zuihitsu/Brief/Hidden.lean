/-
# What hidden content does to the brief

Over graphs that an audience cannot tell apart every part of the brief comes out the
same but one: the participants are ranked by their latest entry of any visibility. The
main result says that this is the whole of it. The brief is the same under every
setting where the participants are shown in the same order, and where no name breaks a
line, only there.
-/

import Zuihitsu.Brief.Alike
import Zuihitsu.Graph.Applicable

namespace Zuihitsu

open Zuihitsu.Core Zuihitsu.Graph Zuihitsu.Library Zuihitsu.Schedule Zuihitsu.MemoryBlock

/-! ### The order that is shown -/

/-- The participants that are rendered: the live ones, one for each identity that has no
block yet. -/
def visited (graph : Graph) : (rendered order : List MemoryId) → List MemoryId
  | _, [] => []
  | rendered, id :: rest =>
    if (graph.memoryById id).isSome ∧ graph.classOf id ∉ rendered then
      id :: visited graph (rendered ++ [graph.classOf id]) rest
    else visited graph rendered rest

/-- The participants the brief shows, in its order: who opened the turn first, and each group by
its latest entry, whoever may see it. -/
def shownPresent (graph : Graph) (request : BriefRequest) : List MemoryId :=
  visited graph (graph.selfMemory.map fun memory => graph.classOf memory.id).toList
    (presentOrder graph request)

section Order

variable {formats : BriefFormats} {graph first second : Graph} {settings : BriefSettings}
variable {request : BriefRequest} {packing : Packing} {rendered order : List MemoryId}

theorem mem_visited {id : MemoryId} (member : id ∈ visited graph rendered order) :
    id ∈ order ∧ (graph.memoryById id).isSome = true ∧ graph.classOf id ∉ rendered := by
  induction order generalizing rendered with
  | nil => cases member
  | cons head rest ih =>
    unfold visited at member
    split at member
    · rename_i fresh
      rcases List.mem_cons.mp member with rfl | later
      · exact ⟨List.mem_cons_self, fresh⟩
      · obtain ⟨among, live, anew⟩ := ih later
        exact ⟨List.mem_cons_of_mem _ among, live, fun old => anew (List.mem_append_left _ old)⟩
    · obtain ⟨among, fresh⟩ := ih member
      exact ⟨List.mem_cons_of_mem _ among, fresh⟩

theorem presentStep_passed {id : MemoryId}
    (passed : ¬((graph.memoryById id).isSome ∧ graph.classOf id ∉ packing.renderedClasses)) :
    presentStep formats graph settings request packing id = packing := by
  unfold presentStep
  cases found : graph.memoryById id with
  | none => rfl
  | some =>
    rw [found] at passed
    exact if_pos (not_not.mp fun anew => passed ⟨rfl, anew⟩)

theorem presentStep_rendered {id : MemoryId} {memory : MemoryView}
    (found : graph.memoryById id = some memory)
    (anew : graph.classOf id ∉ packing.renderedClasses) :
    presentStep formats graph settings request packing id =
      presentBlock formats graph settings request memory (packing.render (graph.classOf id)) := by
  unfold presentStep
  rw [found]
  exact if_neg anew

theorem presentBlock_renderedClasses {memory : MemoryView} :
    (presentBlock formats graph settings request memory packing).renderedClasses =
      packing.renderedClasses := by
  dsimp only [presentBlock]
  split <;> rfl

theorem foldl_visited :
    order.foldl (presentStep formats graph settings request) packing =
      (visited graph packing.renderedClasses order).foldl
        (presentStep formats graph settings request) packing := by
  induction order generalizing packing with
  | nil => rfl
  | cons head rest ih =>
    unfold visited
    split
    · rename_i fresh
      obtain ⟨memory, found⟩ := Option.isSome_iff_exists.mp fresh.1
      rw [List.foldl_cons, List.foldl_cons, ih, presentStep_rendered found fresh.2,
        presentBlock_renderedClasses]
      rfl
    · rename_i passed
      rw [List.foldl_cons, presentStep_passed passed, ih]

theorem renderedClasses_composeRoom :
    (composeRoom graph request (composeSelf formats graph settings request
        ⟨settings.charBudget.toNat, [], [], 0, [], []⟩)).renderedClasses =
      (graph.selfMemory.map fun memory => graph.classOf memory.id).toList := by
  have own : (composeSelf formats graph settings request
      ⟨settings.charBudget.toNat, [], [], 0, [], []⟩).renderedClasses =
        (graph.selfMemory.map fun memory => graph.classOf memory.id).toList := by
    unfold composeSelf
    cases graph.selfMemory <;> rfl
  unfold composeRoom
  split
  · exact own
  · exact own

/-! ### The brief over alike graphs -/

section Alike

variable (alike : Alike request.presentSet first second)
include alike

theorem Alike.memoryPiece_eq {memory : MemoryView}
    (found : first.memoryById memory.id = some memory) :
    memoryPiece formats first settings request memory =
      memoryPiece formats second settings request memory := by
  simp only [memoryPiece, alike.memoryBrief_eq found, alike.classDisplay_eq]

theorem Alike.composeSelf_eq :
    composeSelf formats first settings request = composeSelf formats second settings request := by
  funext packing
  unfold composeSelf
  rw [← alike.selfMemory_eq]
  cases found : first.selfMemory with
  | none => rfl
  | some =>
    have itself := memoryById_of_selfMemory found
    simp only [selfPiece, alike.memoryBrief_eq itself, alike.classOf_eq]

theorem Alike.composeRoom_eq : composeRoom first request = composeRoom second request := by
  funext packing
  simp only [composeRoom, alike.memoryById_eq]

theorem Alike.presentStep_eq :
    presentStep formats first settings request = presentStep formats second settings request := by
  funext packing id
  unfold presentStep
  rw [← alike.memory id]
  cases found : first.memoryById id with
  | none => rfl
  | some memory =>
    have itself : first.memoryById memory.id = some memory := by rwa [memoryById_id found]
    simp only [presentBlock, presentLine, alike.memoryPiece_eq itself, alike.classDisplay_eq,
      alike.classOf_eq]

theorem Alike.threadStep_eq :
    threadStep formats first settings request = threadStep formats second settings request := by
  funext packing id
  unfold threadStep
  have above : shownAbove first request id = shownAbove second request id := by
    simp only [shownAbove, alike.selfMemory_eq]
  rw [above, alike.classOf_eq, ← alike.memory id]
  cases found : first.memoryById id with
  | none => rfl
  | some memory =>
    have itself : first.memoryById memory.id = some memory := by rwa [memoryById_id found]
    simp only [threadBlock, alike.memoryBrief_eq itself, alike.memoryPiece_eq itself,
      alike.classOf_eq]

theorem Alike.composeThreads_eq :
    composeThreads formats first settings request =
      composeThreads formats second settings request := by
  funext packing
  simp only [composeThreads, alike.threadStep_eq]

theorem Alike.composeUpcoming_eq :
    composeUpcoming formats first settings request =
      composeUpcoming formats second settings request := by
  funext packing
  have line : upcomingLine formats first request = upcomingLine formats second request := by
    funext memory entry
    simp only [upcomingLine, alike.marker_eq]
  simp only [composeUpcoming, upcomingLines, alike.occurrences_eq, line]

theorem Alike.composePresent_eq (same : shownPresent first request = shownPresent second request)
    (packing : Packing) (own : packing.renderedClasses =
      (first.selfMemory.map fun memory => first.classOf memory.id).toList) :
    composePresent formats first settings request packing =
      composePresent formats second settings request packing := by
  unfold composePresent
  split
  · rfl
  · have start : (packing.charge presentHeader).renderedClasses =
        (first.selfMemory.map fun memory => first.classOf memory.id).toList := own
    have other : (first.selfMemory.map fun memory => first.classOf memory.id).toList =
        (second.selfMemory.map fun memory => second.classOf memory.id).toList := by
      rw [alike.selfMemory_eq, alike.classOf_eq]
    rw [@foldl_visited formats first, @foldl_visited formats second, start]
    have shown : visited first (first.selfMemory.map fun memory => first.classOf memory.id).toList
          (presentOrder first request) =
        visited second (first.selfMemory.map fun memory => first.classOf memory.id).toList
          (presentOrder second request) := by
      unfold shownPresent at same
      rwa [← other] at same
    rw [shown, alike.presentStep_eq]

theorem Alike.compose_eq (same : shownPresent first request = shownPresent second request) :
    compose formats first settings request = compose formats second settings request := by
  have memories : composeMemories formats first settings request =
      composeMemories formats second settings request := by
    unfold composeMemories
    rw [alike.composePresent_eq same _ renderedClasses_composeRoom, alike.composeSelf_eq,
      alike.composeRoom_eq, alike.composeThreads_eq]
  simp only [compose, composePacked, memories, alike.composeUpcoming_eq]

end Alike

end Order

/-! ### Reading the order off the text -/

section Lines

theorem flatMap_terminated_injective {α : Type} {stop : α} {first second : List (List α)}
    (firstFree : ∀ line ∈ first, stop ∉ line) (secondFree : ∀ line ∈ second, stop ∉ line)
    (same : (first.flatMap fun line => line ++ [stop]) = second.flatMap fun line => line ++ [stop]) :
    first = second := by
  classical
  have parts : ∀ line rest : List α, stop ∉ line →
      ((line ++ [stop]) ++ rest).takeWhile (· ≠ stop) = line := by
    intro line rest free
    rw [List.append_assoc, List.takeWhile_append_of_pos fun one member => ?_]
    · simp
    · exact decide_eq_true fun equal => free (equal ▸ member)
  induction first generalizing second with
  | nil =>
    cases second with
    | nil => rfl
    | cons => simp at same
  | cons line rest ih =>
    cases second with
    | nil => simp at same
    | cons other others =>
      rw [List.flatMap_cons, List.flatMap_cons] at same
      have heads := congrArg (List.takeWhile (· ≠ stop)) same
      rw [parts _ _ (firstFree line List.mem_cons_self),
        parts _ _ (secondFree other List.mem_cons_self)] at heads
      subst heads
      rw [ih (fun one later => firstFree one (List.mem_cons_of_mem _ later))
        (fun one later => secondFree one (List.mem_cons_of_mem _ later))
        (List.append_cancel_left same)]

theorem eq_of_filterMap_eq {α β : Type} {read : α → Option β} {first second : List α}
    (firstRead : ∀ one ∈ first, (read one).isSome = true)
    (secondRead : ∀ other ∈ second, (read other).isSome = true)
    (told : ∀ one ∈ first, ∀ other ∈ second, read one = read other → one = other)
    (same : first.filterMap read = second.filterMap read) : first = second := by
  induction first generalizing second with
  | nil =>
    cases second with
    | nil => rfl
    | cons other others =>
      obtain ⟨value, found⟩ := Option.isSome_iff_exists.mp (secondRead other List.mem_cons_self)
      simp [found] at same
  | cons one rest ih =>
    obtain ⟨value, found⟩ := Option.isSome_iff_exists.mp (firstRead one List.mem_cons_self)
    cases second with
    | nil => simp [found] at same
    | cons other others =>
      obtain ⟨seen, there⟩ := Option.isSome_iff_exists.mp (secondRead other List.mem_cons_self)
      rw [List.filterMap_cons_some found, List.filterMap_cons_some there, List.cons.injEq] at same
      rw [told one List.mem_cons_self other List.mem_cons_self (by rw [found, there, same.1]),
        ih (fun a later => firstRead a (List.mem_cons_of_mem _ later))
          (fun b later => secondRead b (List.mem_cons_of_mem _ later))
          (fun a aLater b bLater =>
            told a (List.mem_cons_of_mem _ aLater) b (List.mem_cons_of_mem _ bLater)) same.2]

theorem toList_foldl_append (texts : List String) (start : String) :
    (texts.foldl (· ++ ·) start).toList = start.toList ++ texts.flatMap (·.toList) := by
  induction texts generalizing start with
  | nil => simp
  | cons first rest ih => rw [List.foldl_cons, ih, String.toList_append, List.flatMap_cons,
      List.append_assoc]

theorem toList_join (texts : List String) :
    (String.join texts).toList = texts.flatMap (·.toList) := by
  simp [String.join, toList_foldl_append]

end Lines

section Bare

variable {formats : BriefFormats} {graph : Graph} {request : BriefRequest}

/-- Settings that leave the self, the room, and who is present. -/
def bareSettings : BriefSettings := ⟨0, 0, 0, 0, 0, 0⟩

theorem bare_steps {order : List MemoryId} {packing : Packing} (spent : packing.remaining = 0) :
    (order.foldl (presentStep formats graph bareSettings request) packing).remaining = 0 ∧
      (order.foldl (presentStep formats graph bareSettings request) packing).pieces =
        packing.pieces ++
          ((visited graph packing.renderedClasses order).filterMap graph.memoryById).map
            (presentLine graph) := by
  induction order generalizing packing with
  | nil => exact ⟨spent, (List.append_nil _).symm⟩
  | cons head rest ih =>
    rw [List.foldl_cons]
    unfold visited
    split
    · rename_i fresh
      obtain ⟨memory, found⟩ := Option.isSome_iff_exists.mp fresh.1
      have line : presentBlock formats graph bareSettings request memory
          (packing.render (graph.classOf head)) =
            (packing.render (graph.classOf head)).charge (presentLine graph memory) := by
        unfold presentBlock
        exact if_neg fun room => absurd room.1 (Nat.not_lt_zero _)
      rw [presentStep_rendered found fresh.2, line]
      obtain ⟨left, pieces⟩ := @ih ((packing.render (graph.classOf head)).charge
        (presentLine graph memory)) (by simp [Packing.charge, Packing.render, spent])
      refine ⟨left, pieces.trans ?_⟩
      rw [List.filterMap_cons_some found]
      simp [Packing.charge, Packing.render]
    · rename_i passed
      rw [presentStep_passed passed]
      exact ih spent

/-- The pieces before the participants. -/
def leadingPieces (formats : BriefFormats) (graph : Graph) (request : BriefRequest) : List Piece :=
  (composeRoom graph request (composeSelf formats graph bareSettings request
    ⟨0, [], [], 0, [], []⟩)).pieces

theorem compose_bare (attended : request.presentSet ≠ []) :
    compose formats graph bareSettings request =
      some (String.join ((leadingPieces formats graph request ++ [presentHeader] ++
        ((shownPresent graph request).filterMap graph.memoryById).map (presentLine graph)).map
          Piece.text)) := by
  have spent : (composeRoom graph request (composeSelf formats graph bareSettings request
      ⟨0, [], [], 0, [], []⟩)).remaining = 0 := by
    have own : (composeSelf formats graph bareSettings request
        ⟨0, [], [], 0, [], []⟩).remaining = 0 := by
      unfold composeSelf
      split
      · exact Nat.zero_sub _
      · rfl
    unfold composeRoom
    split
    · simp [Packing.charge, own]
    · exact own
  have start : composePresent formats graph bareSettings request
      (composeRoom graph request (composeSelf formats graph bareSettings request
        ⟨0, [], [], 0, [], []⟩)) =
      (presentOrder graph request).foldl (presentStep formats graph bareSettings request)
        ((composeRoom graph request (composeSelf formats graph bareSettings request
          ⟨0, [], [], 0, [], []⟩)).charge presentHeader) := by
    unfold composePresent
    exact if_neg fun empty => attended (List.isEmpty_iff.mp empty)
  obtain ⟨left, pieces⟩ := @bare_steps formats graph request (presentOrder graph request)
    ((composeRoom graph request (composeSelf formats graph bareSettings request
      ⟨0, [], [], 0, [], []⟩)).charge presentHeader) (by simp [Packing.charge, spent])
  rw [← start] at left pieces
  -- nothing is left for the threads' header, and no window is asked for
  have memories : composeMemories formats graph bareSettings request =
      composePresent formats graph bareSettings request
        (composeRoom graph request (composeSelf formats graph bareSettings request
          ⟨0, [], [], 0, [], []⟩)) := by
    unfold composeMemories composeThreads
    exact if_pos (.inr (by rw [show bareSettings.charBudget.toNat = 0 from rfl, left]; decide))
  have upcoming : ∀ packing, composeUpcoming formats graph bareSettings request packing = some [] :=
    fun _ => rfl
  have order : visited graph ((composeRoom graph request (composeSelf formats graph bareSettings
      request ⟨0, [], [], 0, [], []⟩)).charge presentHeader).renderedClasses
        (presentOrder graph request) = shownPresent graph request :=
    congrArg (fun rendered => visited graph rendered (presentOrder graph request))
      (@renderedClasses_composeRoom formats graph bareSettings request)
  rw [compose, composePacked]
  simp only [upcoming, memories, pieces, order, Option.map_some, PackedBrief.text,
    List.append_nil]
  rfl

/-- No name of a live memory breaks a line. -/
def OneLineNames (graph : Graph) : Prop :=
  ∀ id memory, graph.memoryById id = some memory → '\n' ∉ memory.name.text.toList

theorem OneLineNames.classDisplay (oneLine : OneLineNames graph) {id : MemoryId}
    {memory : MemoryView} (found : graph.memoryById id = some memory) :
    '\n' ∉ (classDisplay graph memory).text.toList := by
  unfold Zuihitsu.classDisplay
  cases primary : graph.memoryById (graph.classOf memory.id) with
  | none => exact oneLine id memory found
  | some named => exact oneLine _ named primary

/-- The line of a participant shown under a name, without its end. -/
def lineBody (name : MemoryName) : List Char :=
  "- ".toList ++ name.text.toList ++ " (present)".toList

theorem lineBody_injective : Function.Injective lineBody := by
  intro name other same
  have texts := List.append_cancel_left (List.append_cancel_right same)
  exact congrArg MemoryName.mk (String.toList_injective texts)

theorem presentLine_text (memory : MemoryView) :
    (presentLine graph memory).text.toList = lineBody (classDisplay graph memory) ++ ['\n'] := by
  have ending : " (present)\n".toList = " (present)".toList ++ ['\n'] := by decide
  rw [presentLine, lineBody, String.toList_append, String.toList_append, ending]
  simp only [List.append_assoc]

theorem lineBody_oneLine {name : MemoryName} (oneLine : '\n' ∉ name.text.toList) :
    '\n' ∉ lineBody name := by
  simp only [lineBody, List.mem_append, not_or]
  exact ⟨⟨by decide, oneLine⟩, by decide⟩

/-- The names that are shown of a list of participants. -/
def shownNames (graph : Graph) (order : List MemoryId) : List MemoryName :=
  (order.filterMap graph.memoryById).map (classDisplay graph)

theorem names_of_compose_bare {first second : Graph} (alike : Alike request.presentSet first second)
    (oneLine : OneLineNames first) (attended : request.presentSet ≠ [])
    (same : compose formats first bareSettings request = compose formats second bareSettings request) :
    shownNames first (shownPresent first request) =
      shownNames first (shownPresent second request) := by
  have leading : leadingPieces formats first request = leadingPieces formats second request := by
    rw [leadingPieces, leadingPieces, alike.composeSelf_eq, alike.composeRoom_eq]
  have line : presentLine second = presentLine first := by
    funext memory
    rw [presentLine, presentLine, alike.classDisplay_eq]
  rw [compose_bare attended, compose_bare attended, Option.some.injEq, ← leading, line,
    ← alike.memoryById_eq, ← String.toList_inj, toList_join, toList_join] at same
  simp only [List.map_append, List.flatMap_append] at same
  have lines := List.append_cancel_left same
  have free : ∀ order, ∀ body ∈ (shownNames first order).map lineBody, '\n' ∉ body := by
    intro order
    simp only [shownNames, List.forall_mem_map]
    intro memory member
    obtain ⟨id, _, found⟩ := List.mem_filterMap.mp member
    exact lineBody_oneLine (oneLine.classDisplay found)
  have ended : ∀ order : List MemoryId,
      (((order.filterMap first.memoryById).map (presentLine first)).map Piece.text).flatMap
          (·.toList) =
        ((shownNames first order).map lineBody).flatMap fun body => body ++ ['\n'] := by
    intro order
    simp only [shownNames, List.flatMap_map, presentLine_text]
  rw [ended, ended] at lines
  exact lineBody_injective.list_map (flatMap_terminated_injective (free _) (free _) lines)

end Bare

/-! ### Who is shown for an identity -/

section Names

variable {graph before after : Graph} {event : Event}

/-- No two memories, deleted or not, have one name. -/
def NamesDistinct (graph : Graph) : Prop :=
  ∀ row ∈ graph.memories, ∀ other ∈ graph.memories, row.name = other.name → row.id = other.id

theorem name_origin (applied : apply event before = .ok after) {row : MemoryRow}
    (member : row ∈ after.memories) :
    (∃ old ∈ before.memories, old.id = row.id ∧ old.name = row.name) ∨
      givesName event.payload = some (row.id, row.name) := by
  rcases (mem_memories_apply applied).mp member with ⟨old, stored, rfl⟩ | created
  · rcases @memoryChange_name event before old with kept | given
    · exact .inl ⟨old, stored, (memoryChange_id event before old).symm, kept.symm⟩
    · rw [← memoryChange_id event before old] at given
      exact .inr given
  · exact .inr (createdMemory_some created).2

theorem NamesDistinct.apply (distinct : NamesDistinct before)
    (applied : apply event before = .ok after) : NamesDistinct after := by
  intro row member other otherMember same
  rcases name_origin applied member with ⟨old, stored, owner, named⟩ | given
  · rcases name_origin applied otherMember with ⟨older, olderStored, otherOwner, otherNamed⟩ | other_given
    · rw [← owner, ← otherOwner]
      exact distinct old stored older olderStored (named.trans (same.trans otherNamed.symm))
    · rw [← owner]
      exact nameFree_of_apply applied other_given old stored (named.trans same)
  · rcases name_origin applied otherMember with ⟨older, olderStored, otherOwner, otherNamed⟩ | other_given
    · rw [← otherOwner]
      exact (nameFree_of_apply applied given older olderStored (otherNamed.trans same.symm)).symm
    · rw [given] at other_given
      exact congrArg Prod.fst (Option.some.inj other_given)

theorem Graph.Reachable.namesDistinct (reachable : Reachable graph) : NamesDistinct graph := by
  induction reachable with
  | fresh => exact fun _ => nofun
  | apply _ _ applied ih => exact ih.apply applied

theorem id_of_name (reachable : Reachable graph) {id other : MemoryId}
    {memory otherMemory : MemoryView} (found : graph.memoryById id = some memory)
    (otherFound : graph.memoryById other = some otherMemory)
    (same : memory.name = otherMemory.name) : id = other := by
  obtain ⟨row, live, named⟩ := row_of_memoryById found
  obtain ⟨otherRow, otherLive, otherNamed⟩ := row_of_memoryById otherFound
  obtain ⟨member, rfl, _⟩ := liveRow_eq_some.mp live
  obtain ⟨otherMember, rfl, _⟩ := liveRow_eq_some.mp otherLive
  exact reachable.namesDistinct row member otherRow otherMember
    (named.trans (same.trans otherNamed.symm))

theorem classOf_of_classDisplay (reachable : Reachable graph) {id other : MemoryId}
    {memory otherMemory : MemoryView} (found : graph.memoryById id = some memory)
    (otherFound : graph.memoryById other = some otherMemory)
    (same : classDisplay graph memory = classDisplay graph otherMemory) :
    graph.classOf id = graph.classOf other := by
  unfold classDisplay at same
  rw [memoryById_id found, memoryById_id otherFound] at same
  cases primary : graph.memoryById (graph.classOf id) with
  | some =>
    cases otherPrimary : graph.memoryById (graph.classOf other) with
    | some =>
      rw [primary, otherPrimary] at same
      exact id_of_name reachable primary otherPrimary same
    | none =>
      -- the other stands under its own name, and is the primary
      rw [primary, otherPrimary] at same
      rw [← id_of_name reachable primary otherFound same]
      exact (classOf_idem reachable id).symm
  | none =>
    cases otherPrimary : graph.memoryById (graph.classOf other) with
    | some =>
      rw [primary, otherPrimary] at same
      rw [id_of_name reachable found otherPrimary same]
      exact classOf_idem reachable other
    | none =>
      rw [primary, otherPrimary] at same
      rw [id_of_name reachable found otherFound same]

end Names

section Representatives

variable {graph first second : Graph} {request : BriefRequest}

/-- Whether one participant is ranked before another of the same recency. -/
def RanksAbove (graph : Graph) (request : BriefRequest) (id other : MemoryId) : Prop :=
  (id ∈ request.speakers ∧ other ∉ request.speakers) ∨
    ((id ∈ request.speakers ↔ other ∈ request.speakers) ∧
      (latestOf graph id = latestOf graph other → id ≤ other))

theorem rankedPresent_pairwise (graph : Graph) (presentSet : List MemoryId) :
    (rankedPresent graph presentSet).Pairwise fun id other =>
      latestOf graph id = latestOf graph other → id ≤ other := by
  have total : Std.Total fun first second : Int × MemoryId =>
      (second.1 < first.1 || (first.1 = second.1 && first.2 ≤ second.2)) = true := by
    constructor
    intro first second
    simp only [Bool.or_eq_true, Bool.and_eq_true, decide_eq_true_eq, MemoryId.le_def]
    omega
  have ordered : IsTrans (Int × MemoryId) fun first second =>
      (second.1 < first.1 || (first.1 = second.1 && first.2 ≤ second.2)) = true := by
    constructor
    intro first second third
    simp only [Bool.or_eq_true, Bool.and_eq_true, decide_eq_true_eq, MemoryId.le_def]
    omega
  have sorted := List.pairwise_insertionSort (fun first second : Int × MemoryId =>
      (second.1 < first.1 || (first.1 = second.1 && first.2 ≤ second.2)) = true)
    (presentSet.map fun id => (latestOf graph id, id))
  refine List.pairwise_map.mpr (sorted.imp_of_mem fun {one other} oneMem otherMem ranks same => ?_)
  obtain ⟨id, _, rfl⟩ := List.mem_map.mp ((List.mem_insertionSort _).mp oneMem)
  obtain ⟨second, _, rfl⟩ := List.mem_map.mp ((List.mem_insertionSort _).mp otherMem)
  simp only [Bool.or_eq_true, Bool.and_eq_true, decide_eq_true_eq] at ranks same
  rcases ranks with later | ⟨_, least⟩
  · omega
  · exact least

theorem presentOrder_pairwise (graph : Graph) (request : BriefRequest) :
    (presentOrder graph request).Pairwise (RanksAbove graph request) := by
  have ranked := rankedPresent_pairwise graph request.presentSet
  refine List.pairwise_append.mpr ⟨?_, ?_, ?_⟩
  · refine (ranked.filter _).imp_of_mem fun {one other} oneMem otherMem ranks => .inr ⟨?_, ranks⟩
    have spoke := of_decide_eq_true (List.mem_filter.mp oneMem).2
    have otherSpoke := of_decide_eq_true (List.mem_filter.mp otherMem).2
    exact iff_of_true spoke otherSpoke
  · refine (ranked.filter _).imp_of_mem fun {one other} oneMem otherMem ranks => .inr ⟨?_, ranks⟩
    have silent := of_decide_eq_true (List.mem_filter.mp oneMem).2
    have otherSilent := of_decide_eq_true (List.mem_filter.mp otherMem).2
    exact iff_of_false silent otherSilent
  · intro one oneMem other otherMem
    exact .inl ⟨of_decide_eq_true (List.mem_filter.mp oneMem).2,
      of_decide_eq_true (List.mem_filter.mp otherMem).2⟩

theorem leads_of_visited {rendered order : List MemoryId}
    (sorted : order.Pairwise (RanksAbove graph request)) {id other : MemoryId}
    (shown : id ∈ visited graph rendered order) (among : other ∈ order)
    (live : (graph.memoryById other).isSome = true)
    (same : graph.classOf other = graph.classOf id) : id = other ∨ RanksAbove graph request id other := by
  induction order generalizing rendered with
  | nil => cases among
  | cons head rest ih =>
    obtain ⟨leads, rest_sorted⟩ := List.pairwise_cons.mp sorted
    unfold visited at shown
    split at shown
    · rcases List.mem_cons.mp shown with rfl | later
      · rcases List.mem_cons.mp among with rfl | behind
        · exact .inl rfl
        · exact .inr (leads other behind)
      · rcases List.mem_cons.mp among with rfl | behind
        · -- the head took its identity's place
          have anew := (mem_visited later).2.2
          rw [same] at anew
          exact absurd (List.mem_append_right _ (List.mem_singleton_self _)) anew
        · exact ih rest_sorted later behind
    · rename_i passed
      rcases List.mem_cons.mp among with rfl | behind
      · have anew := (mem_visited shown).2.2
        rw [← same] at anew
        exact absurd ⟨live, anew⟩ passed
      · exact ih rest_sorted shown behind

theorem latestOf_congr {id other : MemoryId} (same : graph.classId id = graph.classId other) :
    latestOf graph id = latestOf graph other := by
  have members : graph.inClass id = graph.inClass other := by
    funext memory
    simp only [inClass, same]
  simp only [latestOf, classEntries, members]

theorem Alike.representative (alike : Alike request.presentSet first second) {id other : MemoryId}
    (shown : id ∈ shownPresent first request) (otherShown : other ∈ shownPresent second request)
    (same : first.classOf id = first.classOf other) : id = other := by
  obtain ⟨among, live, _⟩ := mem_visited shown
  obtain ⟨otherAmong, otherLive, _⟩ := mem_visited otherShown
  have otherThere : (first.memoryById other).isSome = true := by rw [alike.memory]; exact otherLive
  have idThere : (second.memoryById id).isSome = true := by rw [← alike.memory]; exact live
  have otherSame : second.classOf id = second.classOf other := by
    rw [← alike.classOf_eq]
    exact same
  have forth := leads_of_visited (presentOrder_pairwise first request) shown
    (mem_presentOrder.mpr (mem_presentOrder.mp otherAmong)) otherThere same.symm
  have back := leads_of_visited (presentOrder_pairwise second request) otherShown
    (mem_presentOrder.mpr (mem_presentOrder.mp among)) idThere otherSame
  have recency : latestOf first id = latestOf first other :=
    latestOf_congr (by rw [classId_of_live live, classId_of_live otherThere, same])
  have otherRecency : latestOf second other = latestOf second id :=
    latestOf_congr (by rw [classId_of_live otherLive, classId_of_live idThere, otherSame])
  rcases forth with equal | leads
  · exact equal
  · rcases back with equal | leadsBack
    · exact equal.symm
    · -- each leads the other: they speak alike, and neither has the greater id
      rcases leads with ⟨speaks, silent⟩ | ⟨alikeSpeak, least⟩
      · rcases leadsBack with ⟨otherSpeaks, _⟩ | ⟨alikeSpeak, _⟩
        · exact absurd otherSpeaks silent
        · exact absurd (alikeSpeak.mpr speaks) silent
      · rcases leadsBack with ⟨otherSpeaks, silent⟩ | ⟨_, otherLeast⟩
        · exact absurd (alikeSpeak.mpr otherSpeaks) silent
        · have low : id.ulid ≤ other.ulid := least recency
          have high : other.ulid ≤ id.ulid := otherLeast otherRecency
          cases id
          cases other
          exact congrArg MemoryId.mk (Nat.le_antisymm low high)

theorem Alike.shown_of_names (alike : Alike request.presentSet first second)
    (reachable : Reachable first)
    (names : shownNames first (shownPresent first request) =
      shownNames first (shownPresent second request)) :
    shownPresent first request = shownPresent second request := by
  have asRead : ∀ order : List MemoryId, shownNames first order =
      order.filterMap fun id => (first.memoryById id).map (classDisplay first) := by
    intro order
    rw [shownNames, List.map_filterMap]
  rw [asRead, asRead] at names
  refine eq_of_filterMap_eq ?_ ?_ ?_ names
  · intro id shown
    rw [Option.isSome_map]
    exact (mem_visited shown).2.1
  · intro id shown
    rw [Option.isSome_map, alike.memory]
    exact (mem_visited shown).2.1
  · intro id shown other otherShown same
    obtain ⟨memory, found⟩ := Option.isSome_iff_exists.mp (mem_visited shown).2.1
    have otherLive := (mem_visited otherShown).2.1
    rw [← alike.memory] at otherLive
    obtain ⟨otherMemory, otherFound⟩ := Option.isSome_iff_exists.mp otherLive
    rw [found, otherFound, Option.map_some, Option.map_some, Option.some.injEq] at same
    exact alike.representative shown otherShown
      (classOf_of_classDisplay reachable found otherFound same)

end Representatives

/-- What hidden content does to a brief. Where the participants are shown in the same order,
graphs that differ only in what may not surface give one text under every setting; and where
no name breaks a line, they give one text under every setting only there. -/
theorem brief_hides_iff {first second : Graph} {request : BriefRequest}
    (alike : Alike request.presentSet first second) :
    (shownPresent first request = shownPresent second request →
      ∀ formats settings,
        compose formats first settings request = compose formats second settings request) ∧
    (Reachable first → OneLineNames first →
      ((∀ formats settings,
          compose formats first settings request = compose formats second settings request) ↔
        shownPresent first request = shownPresent second request)) := by
  refine ⟨fun same formats settings => alike.compose_eq same, fun reachable oneLine => ?_⟩
  refine ⟨fun same => ?_, fun same formats settings => alike.compose_eq same⟩
  by_cases attended : request.presentSet = []
  · have nobody : ∀ graph : Graph, shownPresent graph request = [] := by
      intro graph
      refine List.eq_nil_iff_forall_not_mem.mpr fun id shown => ?_
      have attends := mem_presentOrder.mp (mem_visited shown).1
      rw [attended] at attends
      cases attends
    rw [nobody, nobody]
  · refine alike.shown_of_names reachable (names_of_compose_bare alike oneLine attended
      (same ⟨fun _ => "", fun _ => "", ⟨fun _ => true, fun _ _ _ => none⟩, false⟩ bareSettings))

/-! Two people are in a room, and somebody who is not there has confided something about one
of them. -/

namespace Asides

def people : List EventPayload :=
  [.memoryCreated ⟨1⟩ ⟨"person/dave"⟩, .memoryCreated ⟨2⟩ ⟨"person/frank"⟩,
    .memoryCreated ⟨3⟩ ⟨"person/erin"⟩]

def quiet : Graph := ((commit ⟨0⟩ .agent people Graph.fresh).toOption).getD Graph.fresh

/-- What Erin confides about somebody. -/
def aside (subject : MemoryId) : Event :=
  ⟨4, ⟨1⟩, .agent, .memoryContentAppended subject ⟨10⟩ ⟨1000⟩ none "is being managed out"
    (.participant ⟨3⟩) none .privateToTeller⟩

/-- The graph after it. -/
def confided (subject : MemoryId) : Graph :=
  ((Graph.apply (aside subject) quiet).toOption).getD quiet

def session : BriefRequest := ⟨[⟨1⟩, ⟨2⟩], [], none, [], ⟨2000⟩⟩

def formats : BriefFormats := ⟨fun _ => "", fun _ => "", ⟨fun _ => true, fun _ _ _ => none⟩, false⟩

theorem quiet_reachable : Reachable quiet := by
  have committed : commit ⟨0⟩ .agent people Graph.fresh = .ok quiet := rfl
  exact Reachable.fresh.commit committed

theorem quiet_oneLine : OneLineNames quiet := by
  intro id memory found
  obtain ⟨row, live, named⟩ := row_of_memoryById found
  have names : ∀ row ∈ quiet.memories.rows, '\n' ∉ row.name.text.toList := by decide
  rw [← named]
  exact names row (liveRow_eq_some.mp live).1

theorem alike_dave : Alike session.presentSet quiet (confided ⟨1⟩) := by
  have applied : Graph.apply (aside ⟨1⟩) quiet = .ok (confided ⟨1⟩) := rfl
  refine alike_of_hidden_append applied rfl fun row made => ?_
  obtain rfl := Option.some.inj made
  decide

theorem alike_frank : Alike session.presentSet quiet (confided ⟨2⟩) := by
  have applied : Graph.apply (aside ⟨2⟩) quiet = .ok (confided ⟨2⟩) := rfl
  refine alike_of_hidden_append applied rfl fun row made => ?_
  obtain rfl := Option.some.inj made
  decide

/-- What Erin confided about Frank surfaces to nobody in the room, and puts him first. -/
theorem aside_reorders :
    Reachable quiet ∧ Reachable (confided ⟨2⟩) ∧ Alike session.presentSet quiet (confided ⟨2⟩) ∧
      compose formats quiet bareSettings session =
        some "# Present\n- person/dave (present)\n- person/frank (present)\n" ∧
      compose formats (confided ⟨2⟩) bareSettings session =
        some "# Present\n- person/frank (present)\n- person/dave (present)\n" := by
  have applied : Graph.apply (aside ⟨2⟩) quiet = .ok (confided ⟨2⟩) := rfl
  exact ⟨quiet_reachable, quiet_reachable.apply rfl applied, alike_frank, rfl, rfl⟩

/-- What she confided about Dave, who is first either way, changes no brief; and for what she
confided about Frank the order decides. -/
theorem brief_hides_iff_aside :
    (∀ formats settings, compose formats quiet settings session =
        compose formats (confided ⟨1⟩) settings session) ∧
      ((∀ formats settings, compose formats quiet settings session =
          compose formats (confided ⟨2⟩) settings session) ↔
        shownPresent quiet session = shownPresent (confided ⟨2⟩) session) :=
  ⟨(brief_hides_iff alike_dave).1 (by decide),
    (brief_hides_iff alike_frank).2 quiet_reachable quiet_oneLine⟩

end Asides

end Zuihitsu
