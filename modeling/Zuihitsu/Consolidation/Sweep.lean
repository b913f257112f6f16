/-
# A consolidation sweep, and what its writes leave

A sweep drives one block of the agent's through any number of consolidations and
commits it. Every event it buffers appends an entry, endorses one or retires
some, so the identity classes stand still while it commits and the graph holds
the live entries as the block read them. What one more consolidation leaves
standing on its replacement is read off here, once for each tier.
-/

import Zuihitsu.Block.Pending
import Zuihitsu.Consolidation.Clustering

namespace Zuihitsu.Consolidation

open Zuihitsu.Core Zuihitsu.Graph Zuihitsu.Library Zuihitsu.MemoryBlock

/-! ### The sweep -/

/-- The block a sweep opens: the agent's, with no conversation and no audience. -/
def newBlock (graph : Graph) (maxEntryChars : Nat) : MemoryBlock :=
  MemoryBlock.open graph .agent .agent none none [] maxEntryChars

/-- How a consolidation retires its sources. -/
inductive Retirement where
  | synthesized (fresh : EntryId) (replacementText : String)
  | absorbed (replacement : EntryId)
  deriving DecidableEq, Repr

/-- The entry the sources are retired into. -/
def Retirement.replacement : Retirement → EntryId
  | synthesized fresh _ => fresh
  | absorbed replacement => replacement

/-- Run a consolidation of either tier. -/
def retire (engine : Engine) (block : MemoryBlock) (id : MemoryId) (sources : List EntryId)
    (producedBy : Option ProducedBy) : Retirement → Except MemoryError MemoryBlock
  | .synthesized fresh text => consolidate engine fresh block id sources text producedBy
  | .absorbed replacement => consolidateInto engine block id sources replacement producedBy

/-- The blocks a sweep drives, whatever it read on the way. -/
inductive Swept : MemoryBlock → Prop
  | opened (graph : Graph) (maxEntryChars : Nat) : Swept (newBlock graph maxEntryChars)
  | retires {engine : Engine} {block after : MemoryBlock} {id : MemoryId} {sources : List EntryId}
      {producedBy : Option ProducedBy} {retirement : Retirement} (earlier : Swept block)
      (done : retire engine block id sources producedBy retirement = .ok after) : Swept after

/-- Whether a consolidation writes an event of this kind. -/
def isSweepWrite : EventPayload → Bool
  | .memoryContentAppended .. | .entryAttested .. | .entriesConsolidated .. => true
  | _ => false

theorem isRetraction_of_isSweepWrite {payload : EventPayload}
    (write : isSweepWrite payload = true) :
    isRetraction payload = false := by
  cases payload <;> first | rfl | cases write

theorem keepsClasses_of_isSweepWrite {payload : EventPayload}
    (write : isSweepWrite payload = true) :
    keepsClasses payload = true := by
  cases payload <;> first | rfl | cases write

theorem retire_buffers {engine : Engine} {block after : MemoryBlock} {id : MemoryId}
    {sources : List EntryId} {producedBy : Option ProducedBy} {retirement : Retirement}
    (done : retire engine block id sources producedBy retirement = .ok after) :
    ∃ events, after = block.pushAll events ∧ ∀ event ∈ events, isSweepWrite event = true := by
  cases retirement with
  | synthesized =>
    obtain ⟨_, _, _, _, _, _, rfl⟩ := consolidate_ok done
    refine ⟨_, rfl, ?_⟩
    rintro event member
    rcases List.mem_cons.mp member with rfl | later
    · rfl
    · rcases List.mem_append.mp later with attested | last
      · obtain ⟨group, _, rfl⟩ := List.mem_map.mp attested
        rfl
      · obtain rfl := List.mem_singleton.mp last
        rfl
  | absorbed =>
    obtain ⟨_, _, _, _, _, _, _, rfl⟩ := consolidateInto_ok done
    refine ⟨_, rfl, ?_⟩
    rintro event member
    rcases List.mem_append.mp member with carried | last
    · obtain ⟨entry, _, rfl⟩ := List.mem_map.mp carried
      rfl
    · obtain rfl := List.mem_singleton.mp last
      rfl

theorem Swept.buffer {block : MemoryBlock} (swept : Swept block) :
    ∀ event ∈ block.buffer, isSweepWrite event = true := by
  induction swept with
  | opened => simp [newBlock, MemoryBlock.open]
  | retires _ done ih =>
    obtain ⟨events, rfl, writes⟩ := retire_buffers done
    intro event member
    exact (List.mem_append.mp member).elim (ih event) (writes event)

/-! ### Endorsements written one after another -/

/-- The posture the last of some pairs gives a teller. -/
def lastHeld (teller : Teller) : List (Teller × Visibility) → Option Visibility
  | [] => none
  | pair :: rest => (lastHeld teller rest).or (if pair.1 = teller then some pair.2 else none)

theorem lastHeld_isSome {teller : Teller} {pairs : List (Teller × Visibility)} :
    (lastHeld teller pairs).isSome = true ↔ ∃ pair ∈ pairs, pair.1 = teller := by
  induction pairs with
  | nil => simp [lastHeld]
  | cons pair rest ih =>
    rw [lastHeld, Option.isSome_or, Bool.or_eq_true, ih, List.exists_mem_cons_iff, or_comm]
    by_cases same : pair.1 = teller
    · simp [same]
    · simp [same]

theorem lastHeld_of_level {teller : Teller} {tellers : List Teller} {visibility : Visibility} :
    lastHeld teller (tellers.map fun other => (other, visibility)) =
      if teller ∈ tellers then some visibility else none := by
  induction tellers with
  | nil => rfl
  | cons first rest ih =>
    rw [List.map_cons, lastHeld, ih]
    by_cases later : teller ∈ rest
    · simp [later]
    · by_cases here : first = teller
      · simp [later, here]
      · simp [later, here, Ne.symm here]

theorem foldl_endorsements {α : Type} {items : List α} {event : α → EventPayload}
    (pair : α → Teller × Visibility) {entry : EntryId} {teller : Teller}
    (endorses : ∀ item held, heldAfter entry teller held (event item) =
      if (pair item).1 = teller then some (pair item).2 else held)
    (held : Option Visibility) :
    (items.map event).foldl (heldAfter entry teller) held =
      (lastHeld teller (items.map pair)).or held := by
  induction items generalizing held with
  | nil => rfl
  | cons item rest ih =>
    rw [List.map_cons, List.foldl_cons, ih, endorses, List.map_cons, lastHeld]
    split <;> cases lastHeld teller (rest.map pair) <;> rfl

section Effects

variable {engine : Engine} {block after : MemoryBlock} {id : MemoryId} {sources : List EntryId}
variable {producedBy : Option ProducedBy} {recordedAt : Timestamp} {source : EventSource}
variable {before committed : Graph}

theorem commit_rest {events : List EventPayload} (extended : after = block.pushAll events)
    (first : commit recordedAt source block.buffer engine.graph = .ok before)
    (whole : commit recordedAt source after.buffer engine.graph = .ok committed) :
    commit recordedAt source events before = .ok committed := by
  rw [extended, pushAll_buffer] at whole
  obtain ⟨middle, earlier, rest⟩ := commit_append_ok.mp whole
  cases first.symm.trans earlier
  exact rest

theorem Swept.holdsAsRead (reachable : Reachable engine.graph) (swept : Swept block)
    (first : commit recordedAt source block.buffer engine.graph = .ok before) {entry : EntryId}
    {live : LiveEntry} (found : liveEntry engine.graph block id entry = .ok live) :
    HoldsAsRead before live ∧ live.entryId = entry := by
  obtain ⟨member, same⟩ := mem_of_liveEntry found
  refine ⟨holdsAsRead_of_live reachable first (fun payload inBuffer => ?_) member, same⟩
  exact isRetraction_of_isSweepWrite (swept.buffer payload inBuffer)

theorem Swept.classOf (swept : Swept block)
    (first : commit recordedAt source block.buffer engine.graph = .ok before) :
    before.classOf = engine.graph.classOf :=
  classOf_commit first fun payload member => keepsClasses_of_isSweepWrite (swept.buffer payload member)

theorem sameTellerClass_congr {graph other : Graph} (same : graph.classOf = other.classOf) :
    sameTellerClass graph = sameTellerClass other := by
  funext first second
  rw [Bool.eq_iff_iff, sameTellerClass_iff, sameTellerClass_iff]
  cases first <;> cases second <;> simp only [tellerClass, same]

theorem newlyHeld_classes {graph other : Graph} (same : graph.classOf = other.classOf)
    {running pairs : List (Teller × Visibility)} :
    newlyHeld graph running pairs = newlyHeld other running pairs := by
  induction pairs generalizing running with
  | nil => rfl
  | cons pair rest ih => simp only [newlyHeld, sameTellerClass_congr same, ih]

/-- What a tier-1 consolidation leaves standing on its replacement: some tellers, all
at the sources' level. -/
structure LeftBySynthesis (before after : Graph) (sources : List EntryId) (fresh : EntryId)
    (tellers : List Teller) (visibility : Visibility) : Prop where
  nonempty : sources ≠ []
  sourced : ∀ source ∈ sources, IsLive before source
  unheld : ∀ teller, before.standing fresh teller = none
  live : IsLive after fresh
  stands : ∀ teller posture, after.standing fresh teller = some posture ↔
    posture = visibility ∧ teller ∈ tellers
  /-- Every source's teller class is among them. -/
  covered : ∀ source ∈ sources, ∃ toldBy, Recorded before source toldBy visibility ∧
    ∃ teller ∈ tellers, sameTellerClass before teller toldBy = true
  /-- Each of them is the agent, or told a source. -/
  told : ∀ teller ∈ tellers, teller = .agent ∨
    ∃ source ∈ sources, Recorded before source teller visibility
  /-- Below the all-audience levels each of them told every source. -/
  shared : isAllAudience visibility = true ∨
    ∀ teller ∈ tellers, ∀ source ∈ sources, Recorded before source teller visibility

theorem Swept.source_read (reachable : Reachable engine.graph) (swept : Swept block)
    (first : commit recordedAt source block.buffer engine.graph = .ok before) {entry : EntryId}
    {live : LiveEntry} (found : liveEntry engine.graph block id entry = .ok live) :
    IsLive before entry ∧ Recorded before entry live.toldBy live.visibility := by
  obtain ⟨holds, rfl⟩ := swept.holdsAsRead reachable first found
  exact ⟨holds.live, holds.recorded⟩

section Synthesis

variable {target : MemoryId} {fresh : EntryId} {now : Timestamp} {text : String}
variable {toldBy : Teller} {toldIn : Option ConversationRef} {visibility : Visibility}
variable {groups : List SourceTeller}

/-- The events of a tier-1 consolidation: the replacement's append, an attestation for
each further teller, and the retirement of the sources. -/
def synthesisEvents (target : MemoryId) (fresh : EntryId) (now : Timestamp) (text : String)
    (toldBy : Teller) (toldIn : Option ConversationRef) (visibility : Visibility)
    (groups : List SourceTeller) (sources : List EntryId) (producedBy : Option ProducedBy) :
    List EventPayload :=
  .memoryContentAppended target fresh now none text toldBy toldIn visibility ::
    (groups.map (SourceTeller.attestation target fresh visibility producedBy) ++
      [.entriesConsolidated target sources fresh producedBy])

theorem isLive_synthesisEvents
    (rest : commit recordedAt source (synthesisEvents target fresh now text toldBy toldIn visibility
      groups sources producedBy) before = .ok committed)
    (outside : fresh ∉ sources) : IsLive committed fresh := by
  obtain ⟨appended, applied, last⟩ := commit_cons_ok.mp rest
  have stored := (mem_entries_apply applied).mpr (.inr rfl)
  refine isLive_commit ⟨_, stored, rfl, rfl⟩ last ?_ ?_
  · -- of these events only the retirement of the sources retires
    intro taken
    simp only [List.flatMap_append, List.flatMap_map, List.mem_append, List.mem_flatMap,
      SourceTeller.attestation, supersededBy, List.not_mem_nil, and_false, exists_false,
      List.flatMap_cons, List.flatMap_nil, List.append_nil, false_or] at taken
    exact outside taken
  · intro payload member
    rcases List.mem_append.mp member with attested | consolidated
    · obtain ⟨group, _, rfl⟩ := List.mem_map.mp attested
      rfl
    · obtain rfl := List.mem_singleton.mp consolidated
      rfl

theorem standing_synthesisEvents
    (rest : commit recordedAt source (synthesisEvents target fresh now text toldBy toldIn visibility
      groups sources producedBy) before = .ok committed)
    (unheld : ∀ teller, before.standing fresh teller = none) (teller : Teller)
    (posture : Visibility) :
    committed.standing fresh teller = some posture ↔
      posture = visibility ∧ teller ∈ toldBy :: groups.map (·.teller) := by
  have paired : (groups.map fun group => (group.teller, visibility)) =
      (groups.map (·.teller)).map fun other => (other, visibility) := by
    simp [Function.comp_def]
  -- the founding posture first, then each further teller's
  rw [standing_commit rest, synthesisEvents, List.foldl_cons, List.foldl_append, unheld,
    foldl_endorsements (fun group : SourceTeller => (group.teller, visibility))
      (fun group held => by simp [SourceTeller.attestation, heldAfter]), paired,
    lastHeld_of_level]
  simp only [heldAfter, Prod.mk.injEq, true_and, List.foldl_cons, List.foldl_nil, List.mem_cons]
  by_cases isGroup : teller ∈ groups.map (·.teller)
  · simp [isGroup, eq_comm]
  · by_cases isFounding : toldBy = teller
    · simp [isGroup, isFounding, eq_comm]
    · simp [isGroup, isFounding, Ne.symm isFounding]

end Synthesis

theorem exists_covering_teller {graph : Graph} {block : MemoryBlock} {target : MemoryId}
    {founding : Teller} {entry : EntryId} {live : LiveEntry} (member : entry ∈ sources)
    (found : liveEntry graph block target entry = .ok live) :
    ∃ teller ∈ founding ::
        (distinctSourceTellers graph founding (sourceEntries graph block target sources)).map
          (·.teller),
      sameTellerClass graph teller live.toldBy = true := by
  have listed : live ∈ sourceEntries graph block target sources :=
    mem_sourceEntries.mpr ⟨entry, member, found⟩
  have covered : sameTellerClass graph live.toldBy founding = true ∨ _ :=
    distinctSourceTellers_covers listed
  rcases covered with same | ⟨group, groupMem, same⟩
  · exact ⟨founding, List.mem_cons_self, sameTellerClass_iff.mpr (sameTellerClass_iff.mp same).symm⟩
  · exact ⟨group.teller, List.mem_cons_of_mem _ (List.mem_map_of_mem groupMem), same⟩

theorem source_of_distinctTeller {graph : Graph} {block : MemoryBlock} {target : MemoryId}
    {founding teller : Teller}
    (member : teller ∈
      (distinctSourceTellers graph founding (sourceEntries graph block target sources)).map
        (·.teller)) :
    ∃ entry ∈ sources, ∃ live, liveEntry graph block target entry = .ok live ∧
      live.toldBy = teller ∧ sameTellerClass graph live.toldBy founding = false := by
  obtain ⟨group, groupMem, rfl⟩ := List.mem_map.mp member
  obtain ⟨live, listed, rfl, other⟩ := mem_distinctSourceTellers groupMem
  obtain ⟨entry, inSources, found⟩ := mem_sourceEntries.mp listed
  exact ⟨entry, inSources, live, found, rfl, other⟩

theorem synthesized_leaves {fresh : EntryId} {text : String} (reachable : Reachable engine.graph)
    (swept : Swept block)
    (done : consolidate engine fresh block id sources text producedBy = .ok after)
    (first : commit recordedAt source block.buffer engine.graph = .ok before)
    (whole : commit recordedAt source after.buffer engine.graph = .ok committed) :
    ∃ tellers visibility, LeftBySynthesis before committed sources fresh tellers visibility := by
  obtain ⟨toldBy, visibility, level, told, founded, nonempty, extended⟩ := consolidate_ok done
  set target := classWriteTarget engine.graph block id
  set groups := distinctSourceTellers engine.graph toldBy
    (sourceEntries engine.graph block target sources)
  have rest : commit recordedAt source (synthesisEvents target fresh engine.now text toldBy
      block.toldIn visibility groups sources producedBy) before = .ok committed :=
    commit_rest extended first whole
  obtain ⟨appended, applied, _⟩ := commit_cons_ok.mp rest
  obtain ⟨_, unknown, _⟩ := appended_of_apply applied rfl
  have unheld := (reachable.commit first).standing_unknown unknown
  -- every source is in the graph as the block read it
  have read : ∀ source ∈ sources, ∃ live, liveEntry engine.graph block target source = .ok live ∧
      IsLive before source ∧ Recorded before source live.toldBy visibility := by
    intro source member
    obtain ⟨live, found, rfl⟩ := level source member
    obtain ⟨isLive, recorded⟩ := swept.source_read reachable first found
    exact ⟨live, found, isLive, recorded⟩
  have outside : fresh ∉ sources := by
    intro member
    obtain ⟨_, _, _, recorded⟩ := read fresh member
    cases unknown.symm.trans recorded.contains
  have classes : sameTellerClass engine.graph = sameTellerClass before :=
    sameTellerClass_congr (swept.classOf first).symm
  exact ⟨toldBy :: groups.map (·.teller), visibility, {
    nonempty
    sourced := fun source member => (read source member).choose_spec.2.1
    unheld
    live := isLive_synthesisEvents rest outside
    stands := standing_synthesisEvents rest unheld
    covered := by
      intro source member
      obtain ⟨live, found, _, recorded⟩ := read source member
      refine ⟨live.toldBy, recorded, ?_⟩
      rw [← classes]
      exact exists_covering_teller member found
    told := by
      intro teller member
      rcases List.mem_cons.mp member with rfl | grouped
      · refine founded.imp_right ?_
        rintro ⟨source, inSources, live, found, rfl⟩
        obtain ⟨live', found', _, recorded⟩ := read source inSources
        cases found.symm.trans found'
        exact ⟨source, inSources, recorded⟩
      · obtain ⟨source, inSources, live, found, rfl, _⟩ := source_of_distinctTeller grouped
        obtain ⟨live', found', _, recorded⟩ := read source inSources
        cases found.symm.trans found'
        exact .inr ⟨source, inSources, recorded⟩
    shared := by
      rcases told with uniform | ⟨_, openLevel⟩
      · right
        intro teller member source inSources
        obtain ⟨live, found, _, recorded⟩ := read source inSources
        rw [uniform source inSources live found] at recorded
        rcases List.mem_cons.mp member with rfl | grouped
        · exact recorded
        · -- one teller told them all, so there is no further one
          obtain ⟨other, otherMem, live', found', _, distinct⟩ := source_of_distinctTeller grouped
          rw [uniform other otherMem live' found', sameTellerClass_iff.mpr rfl] at distinct
          cases distinct
      · exact .inl openLevel }⟩

/-- The endorsements that stand on an entry. -/
def standingPairs (graph : Graph) (entry : EntryId) : List (Teller × Visibility) :=
  (attestationsFor graph entry .live).map fun view => (view.teller, view.posture)

theorem mem_standingPairs {graph : Graph} {entry : EntryId} {pair : Teller × Visibility} :
    pair ∈ standingPairs graph entry ↔ graph.standing entry pair.1 = some pair.2 := by
  rw [← exists_live_attestation_iff, standingPairs, List.mem_map]
  exact exists_congr fun view => and_congr_right fun _ => Prod.ext_iff

/-- How each of some entries was first told. -/
def foundings (graph : Graph) (sources : List EntryId) : List (Teller × Visibility) :=
  sources.filterMap fun source =>
    (graph.entryRow source).map fun row => (row.toldBy, row.visibility)

theorem mem_foundings {graph : Graph} {sources : List EntryId} {pair : Teller × Visibility} :
    pair ∈ foundings graph sources ↔ ∃ source ∈ sources, Recorded graph source pair.1 pair.2 := by
  simp only [foundings, List.mem_filterMap, Option.map_eq_some_iff, entryRow,
    Table.find_eq_some_iff, Recorded]
  refine exists_congr fun source => and_congr_right fun _ => ?_
  constructor
  · rintro ⟨row, ⟨member, owner⟩, rfl⟩
    exact ⟨row, member, owner, rfl, rfl⟩
  · rintro ⟨row, member, owner, toldBy, visibility⟩
    exact ⟨row, ⟨member, owner⟩, Prod.ext toldBy visibility⟩

/-- How the sources were told that the replacement's endorsements do not have yet:
what an absorption writes on it. -/
def carriedOnto (graph : Graph) (sources : List EntryId) (replacement : EntryId) :
    List (Teller × Visibility) :=
  newlyHeld graph (standingPairs graph replacement) (foundings graph sources)

/-- What a tier-2 absorption leaves standing on its replacement: each teller's last
carried posture, and what stood there for the others. -/
structure LeftByAbsorption (before after : Graph) (sources : List EntryId) (replacement : EntryId) :
    Prop where
  nonempty : sources ≠ []
  sourced : ∀ source ∈ sources, IsLive before source
  target : IsLive before replacement
  live : replacement ∉ sources → IsLive after replacement
  stands : ∀ teller, after.standing replacement teller =
    (lastHeld teller (carriedOnto before sources replacement)).or (before.standing replacement teller)

theorem absorbed_leaves {replacement : EntryId} (reachable : Reachable engine.graph)
    (swept : Swept block)
    (done : consolidateInto engine block id sources replacement producedBy = .ok after)
    (first : commit recordedAt source block.buffer engine.graph = .ok before)
    (whole : commit recordedAt source after.buffer engine.graph = .ok committed) :
    LeftByAbsorption before committed sources replacement := by
  obtain ⟨target, carried, found, others, nonempty, _, pairs, extended⟩ := consolidateInto_ok done
  set addressed := classWriteTarget engine.graph block id
  have rest := commit_rest extended first whole
  obtain ⟨held, rfl⟩ := swept.holdsAsRead reachable first found
  have read : ∀ source ∈ sources, ∃ live, liveEntry engine.graph block addressed source = .ok live ∧
      IsLive before source ∧ Recorded before source live.toldBy live.visibility := by
    intro source member
    obtain ⟨live, found⟩ := others source member
    exact ⟨live, found, swept.source_read reachable first found⟩
  -- the plan the block made from its reads is the one the committed rows give
  have founded : (sourceEntries engine.graph block addressed sources).map LiveEntry.founding =
      foundings before sources := by
    rw [sourceEntries, List.map_filterMap, foundings]
    refine List.filterMap_congr fun source member => ?_
    obtain ⟨live, found, _, recorded⟩ := read source member
    obtain ⟨row, inEntries, owner, toldBy, visibility⟩ := recorded
    have listed : before.entryRow source = some row := Table.find_eq_some_iff.mpr ⟨inEntries, owner⟩
    rw [liveEntry_ok.mp found, listed]
    simp [LiveEntry.founding, toldBy, visibility]
  have plan : carried.map LiveEntry.founding = carriedOnto before sources target.entryId := by
    rw [pairs, founded, carriedOnto, newlyHeld_classes (swept.classOf first).symm]
    -- the block read the same endorsements on the replacement that the graph holds
    refine newlyHeld_congr fun pair => ?_
    rw [mem_standingPairs]
    exact held.standing.stands pair.1 pair.2
  refine ⟨nonempty, fun source member => (read source member).choose_spec.2.1, held.live, ?_, ?_⟩
  · intro outside
    refine isLive_commit held.live rest ?_ ?_
    · intro taken
      -- the attestations retire nothing
      rw [List.flatMap_append, List.mem_append] at taken
      rcases taken with attested | consolidated
      · simp [List.flatMap_map, absorbingAttestation, supersededBy] at attested
      · exact outside (by simpa [supersededBy] using consolidated)
    · intro payload member
      rcases List.mem_append.mp member with attested | consolidated
      · obtain ⟨entry, _, rfl⟩ := List.mem_map.mp attested
        rfl
      · obtain rfl := List.mem_singleton.mp consolidated
        rfl
  · intro teller
    rw [standing_commit rest, List.foldl_append,
      foldl_endorsements LiveEntry.founding (fun entry held => ?_), plan]
    · rfl
    · by_cases same : entry.toldBy = teller
      · simp [absorbingAttestation, heldAfter, LiveEntry.founding, same]
      · simp [absorbingAttestation, heldAfter, LiveEntry.founding, same]

end Effects

end Zuihitsu.Consolidation
