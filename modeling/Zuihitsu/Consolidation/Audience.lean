/-
# Whose eyes a consolidation opens or closes an entry to

Synthesis takes the replacement's level from the sources' original column, and an
absorption writes each source's original pair over the replacement's rows. The
audience check reads the rows that stand. The main results say, for every
audience and every way of reading the entries, exactly when this makes no
difference.
-/

import Zuihitsu.Consolidation.Tellers

namespace Zuihitsu.Consolidation

open Zuihitsu.Core Zuihitsu.Graph Zuihitsu.Library Zuihitsu.MemoryBlock

section Reaching

variable (graph : Graph) (presentSet : List MemoryId)

/-- Some posture standing on an entry reaches the audience through a memory. -/
def StandingReaches (memory : MemoryView) (entry : EntryId) : Prop :=
  ∃ teller posture, graph.standing entry teller = some posture ∧
    Reaches graph memory presentSet teller posture

/-- Some source's teller and level, as first recorded, reach the audience. -/
def FoundingReaches (memory : MemoryView) (sources : List EntryId) : Prop :=
  ∃ source ∈ sources, ∃ toldBy visibility, Recorded graph source toldBy visibility ∧
    Reaches graph memory presentSet toldBy visibility

/-- A posture standing on the replacement, of a teller the absorption carries
nothing of, reaches the audience. -/
def SparedReaches (memory : MemoryView) (sources : List EntryId) (replacement : EntryId) : Prop :=
  ∃ teller posture, graph.standing replacement teller = some posture ∧
    lastHeld teller (carriedOnto graph sources replacement) = none ∧
    Reaches graph memory presentSet teller posture

/-- A pair the absorption carries, the last of its teller's, reaches the audience. -/
def CarriedReaches (memory : MemoryView) (sources : List EntryId) (replacement : EntryId) : Prop :=
  ∃ teller posture, lastHeld teller (carriedOnto graph sources replacement) = some posture ∧
    Reaches graph memory presentSet teller posture

end Reaching

section Synthesis

variable {before after : Graph} {sources : List EntryId} {fresh : EntryId} {tellers : List Teller}
variable {visibility : Visibility} {memory : MemoryView} {presentSet : List MemoryId}

theorem LeftBySynthesis.standingReaches_iff
    (left : LeftBySynthesis before after sources fresh tellers visibility)
    (classes : after.classOf = before.classOf) :
    StandingReaches after presentSet memory fresh ↔
      FoundingReaches before presentSet memory sources := by
  constructor
  · rintro ⟨teller, posture, stands, reaches⟩
    obtain ⟨rfl, member⟩ := (left.stands teller posture).mp stands
    rw [reaches_congr classes] at reaches
    obtain ⟨source, sourceMem⟩ := List.exists_mem_of_ne_nil _ left.nonempty
    rcases left.shared with open' | shared
    · obtain ⟨toldBy, recorded, _⟩ := left.covered source sourceMem
      exact ⟨source, sourceMem, toldBy, posture, recorded, reaches_of_isAllAudience open'⟩
    · exact ⟨source, sourceMem, teller, posture, shared teller member source sourceMem, reaches⟩
  · rintro ⟨source, sourceMem, toldBy, level, recorded, reaches⟩
    obtain ⟨own, ownRecorded, teller, member, _⟩ := left.covered source sourceMem
    obtain ⟨rfl, rfl⟩ := recorded.unique ownRecorded
    refine ⟨teller, level, (left.stands teller level).mpr ⟨rfl, member⟩, ?_⟩
    rw [reaches_congr classes]
    rcases left.shared with open' | shared
    · exact reaches_of_isAllAudience open'
    · obtain ⟨rfl, _⟩ := (shared teller member source sourceMem).unique recorded
      exact reaches

end Synthesis

/-- A tier-1 consolidation, in any sweep, on any reachable graph and for every
audience: the replacement is shown only where a source was, exactly when the
sources' original columns reach no audience that nothing standing on them reaches. -/
theorem synthesis_shows_no_more_iff {engine : Engine} {block after : MemoryBlock} {id : MemoryId}
    {sources : List EntryId} {fresh : EntryId} {text : String} {producedBy : Option ProducedBy}
    {recordedAt : Timestamp} {source : EventSource} {before committed : Graph}
    (reachable : Reachable engine.graph) (swept : Swept block)
    (done : consolidate engine fresh block id sources text producedBy = .ok after)
    (first : commit recordedAt source block.buffer engine.graph = .ok before)
    (whole : commit recordedAt source after.buffer engine.graph = .ok committed)
    (through : EntryId → MemoryView) (presentSet : List MemoryId) :
    (Shown committed (through fresh) presentSet fresh →
        ∃ source ∈ sources, Shown before (through source) presentSet source) ↔
      (FoundingReaches before presentSet (through fresh) sources →
        ∃ source ∈ sources, StandingReaches before presentSet (through source) source) := by
  have ran : retire engine block id sources producedBy (.synthesized fresh text) = .ok after := done
  have classes : committed.classOf = before.classOf := by
    rw [(swept.retires ran).classOf whole, swept.classOf first]
  obtain ⟨tellers, visibility, left⟩ := synthesized_leaves reachable swept done first whole
  have shownAfter : Shown committed (through fresh) presentSet fresh ↔
      FoundingReaches before presentSet (through fresh) sources := by
    rw [shown_iff (reachable.commit whole).endorsed, ← left.standingReaches_iff classes]
    exact and_iff_right left.live
  have shownBefore : (∃ source ∈ sources, Shown before (through source) presentSet source) ↔
      ∃ source ∈ sources, StandingReaches before presentSet (through source) source := by
    refine exists_congr fun source => and_congr_right fun member => ?_
    rw [shown_iff (reachable.commit first).endorsed]
    exact and_iff_right (left.sourced source member)
  rw [shownAfter, shownBefore]

/-! Two people tell a fact in public, and each takes their own account back into
confidence. Their entries still read as public ones to the sweep. -/

/-- A turn of a teller that takes an account of theirs into confidence. -/
def confideBlock (graph : Graph) (teller : MemoryId) (entry : EntryId) : MemoryBlock :=
  let block := MemoryBlock.open graph (.participant teller) .platform none none [] 4000
  ((attest ⟨graph, ⟨1⟩⟩ block harbour entry { visibility := some .private }).toOption).getD block

/-- The accounts after the first teller took theirs back. -/
def halfConfidedGraph : Graph :=
  ((commit ⟨1⟩ .agent (confideBlock accountsGraph ines ⟨11⟩).buffer accountsGraph).toOption).getD
    accountsGraph

/-- The accounts after both did. -/
def confidedGraph : Graph :=
  ((commit ⟨1⟩ .agent (confideBlock halfConfidedGraph jonas ⟨12⟩).buffer
    halfConfidedGraph).toOption).getD halfConfidedGraph

theorem confidedGraph_reachable : Reachable confidedGraph := by
  have told : commit ⟨0⟩ .agent accountsLog Graph.fresh = .ok accountsGraph := rfl
  have first : commit ⟨1⟩ .agent (confideBlock accountsGraph ines ⟨11⟩).buffer accountsGraph =
      .ok halfConfidedGraph := rfl
  have second : commit ⟨1⟩ .agent (confideBlock halfConfidedGraph jonas ⟨12⟩).buffer
      halfConfidedGraph = .ok confidedGraph := rfl
  exact ((Reachable.fresh.commit told).commit first).commit second

/-- The memory the fact is read through. -/
def harbourView : MemoryView := ⟨harbour, ⟨"topic/harbour"⟩, "", .medium, ⟨0⟩, []⟩

/-- The sweep's block, having merged the two accounts. -/
def openedBlock : MemoryBlock :=
  sweepBlock confidedGraph harbour [⟨11⟩, ⟨12⟩] (.synthesized ⟨21⟩ "the ferry has moved")

/-- The graph the sweep leaves. -/
def openedGraph : Graph :=
  sweepGraph confidedGraph harbour [⟨11⟩, ⟨12⟩] (.synthesized ⟨21⟩ "the ferry has moved")

theorem openedBlock_done :
    consolidate ⟨confidedGraph, ⟨1⟩⟩ ⟨21⟩ (newBlock confidedGraph 4000) harbour [⟨11⟩, ⟨12⟩]
      "the ferry has moved" none = .ok openedBlock := rfl

theorem openedBlock_committed :
    commit ⟨1⟩ .orchestration openedBlock.buffer confidedGraph = .ok openedGraph := rfl

/-- The merged account is shown to a third person, whom neither account was shown to. -/
theorem synthesis_opens_confidences :
    Reachable confidedGraph ∧ confidedGraph.memoryById harbour = some harbourView ∧
      tier1Groups (confidedGraph.classEntries harbour) = [[0, 1, 2]] ∧
      consolidate ⟨confidedGraph, ⟨1⟩⟩ ⟨21⟩ (newBlock confidedGraph 4000) harbour [⟨11⟩, ⟨12⟩]
        "the ferry has moved" none = .ok openedBlock ∧
      commit ⟨1⟩ .orchestration openedBlock.buffer confidedGraph = .ok openedGraph ∧
      Shown openedGraph harbourView [kemi] ⟨21⟩ ∧
      ¬∃ source ∈ [(⟨11⟩ : EntryId), ⟨12⟩], Shown confidedGraph harbourView [kemi] source :=
  ⟨confidedGraph_reachable, by decide, by decide, openedBlock_done, openedBlock_committed, by decide,
    by decide⟩

/-- The merge of the two accounts, as the general result decides it. -/
theorem synthesis_shows_no_more_iff_harbour :
    (Shown openedGraph harbourView [kemi] ⟨21⟩ →
        ∃ source ∈ [(⟨11⟩ : EntryId), ⟨12⟩], Shown confidedGraph harbourView [kemi] source) ↔
      (FoundingReaches confidedGraph [kemi] harbourView [⟨11⟩, ⟨12⟩] →
        ∃ source ∈ [(⟨11⟩ : EntryId), ⟨12⟩], StandingReaches confidedGraph [kemi] harbourView source) :=
  synthesis_shows_no_more_iff confidedGraph_reachable (.opened confidedGraph 4000)
    openedBlock_done rfl openedBlock_committed (fun _ => harbourView) [kemi]

section Absorption

variable {before after : Graph} {sources : List EntryId} {replacement : EntryId}
variable {memory : MemoryView} {presentSet : List MemoryId}

theorem LeftByAbsorption.standingReaches_iff
    (left : LeftByAbsorption before after sources replacement)
    (classes : after.classOf = before.classOf) :
    StandingReaches after presentSet memory replacement ↔
      SparedReaches before presentSet memory sources replacement ∨
        CarriedReaches before presentSet memory sources replacement := by
  constructor
  · rintro ⟨teller, posture, stands, reaches⟩
    rw [reaches_congr classes] at reaches
    rw [left.stands, Option.or_eq_some_iff] at stands
    rcases stands with carried | ⟨spared, stood⟩
    · exact .inr ⟨teller, posture, carried, reaches⟩
    · exact .inl ⟨teller, posture, stood, spared, reaches⟩
  · rintro (⟨teller, posture, stood, spared, reaches⟩ | ⟨teller, posture, carried, reaches⟩)
    · refine ⟨teller, posture, ?_, (reaches_congr classes).mpr reaches⟩
      rw [left.stands, spared, Option.none_or, stood]
    · refine ⟨teller, posture, ?_, (reaches_congr classes).mpr reaches⟩
      rw [left.stands, carried, Option.some_or]

end Absorption

/-- A planned tier-2 absorption, in any sweep, on any reachable graph and for every
audience: the replacement is shown exactly where it or a source was, if and only
if a posture standing on it that nothing carried overwrites reaches the audience,
or what is carried reaches it exactly when something standing before did. -/
theorem absorption_shows_the_same_iff {S : Type} [LT S] [DecidableLT S] {engine : Engine}
    {block after : MemoryBlock} {id : MemoryId} {sources : List EntryId} {replacement : EntryId}
    {producedBy : Option ProducedBy} {recordedAt : Timestamp} {source : EventSource}
    {before committed : Graph} {score : Nat → Nat → S} {threshold : S}
    (reachable : Reachable engine.graph) (swept : Swept block)
    (planned : (replacement, sources) ∈ tier2Absorptions (engine.graph.classEntries id) score threshold)
    (done : consolidateInto engine block id sources replacement producedBy = .ok after)
    (first : commit recordedAt source block.buffer engine.graph = .ok before)
    (whole : commit recordedAt source after.buffer engine.graph = .ok committed)
    (through : EntryId → MemoryView) (presentSet : List MemoryId) :
    (Shown committed (through replacement) presentSet replacement ↔
        Shown before (through replacement) presentSet replacement ∨
          ∃ source ∈ sources, Shown before (through source) presentSet source) ↔
      SparedReaches before presentSet (through replacement) sources replacement ∨
        (CarriedReaches before presentSet (through replacement) sources replacement ↔
          StandingReaches before presentSet (through replacement) replacement ∨
            ∃ source ∈ sources, StandingReaches before presentSet (through source) source) := by
  have ran : retire engine block id sources producedBy (.absorbed replacement) = .ok after := done
  have classes : committed.classOf = before.classOf := by
    rw [(swept.retires ran).classOf whole, swept.classOf first]
  have left := absorbed_leaves reachable swept done first whole
  have endorsed : Endorsed before := (reachable.commit first).endorsed
  have shownAfter : Shown committed (through replacement) presentSet replacement ↔
      SparedReaches before presentSet (through replacement) sources replacement ∨
        CarriedReaches before presentSet (through replacement) sources replacement := by
    rw [shown_iff (reachable.commit whole).endorsed, ← left.standingReaches_iff classes]
    exact and_iff_right (left.live (tier2Absorptions_spec planned).1)
  have shownTarget : Shown before (through replacement) presentSet replacement ↔
      StandingReaches before presentSet (through replacement) replacement := by
    rw [shown_iff endorsed]
    exact and_iff_right left.target
  have shownSources : (∃ source ∈ sources, Shown before (through source) presentSet source) ↔
      ∃ source ∈ sources, StandingReaches before presentSet (through source) source := by
    refine exists_congr fun source => and_congr_right fun member => ?_
    rw [shown_iff endorsed]
    exact and_iff_right (left.sourced source member)
  have spared : SparedReaches before presentSet (through replacement) sources replacement →
      StandingReaches before presentSet (through replacement) replacement := by
    rintro ⟨teller, posture, stood, _, reaches⟩
    exact ⟨teller, posture, stood, reaches⟩
  rw [shownAfter, shownTarget, shownSources]
  constructor
  · intro same
    by_cases kept : SparedReaches before presentSet (through replacement) sources replacement
    · exact .inl kept
    · exact .inr (by simpa only [kept, false_or] using same)
  · rintro (kept | same)
    · exact iff_of_true (.inl kept) (.inl (spared kept))
    · constructor
      · rintro (kept | carried)
        · exact .inl (spared kept)
        · exact same.mp carried
      · exact fun stood => .inr (same.mpr stood)

/-! One person tells a fact in public, and later the same fact in confidence. -/

/-- The log of the two accounts. -/
def retoldLog : List EventPayload :=
  [.memoryCreated harbour ⟨"topic/harbour"⟩, .memoryCreated ines ⟨"person/ines"⟩,
    .memoryCreated kemi ⟨"person/kemi"⟩,
    .memoryContentAppended harbour ⟨11⟩ ⟨0⟩ none "the ferry moved" (.participant ines) none .public,
    .memoryContentAppended harbour ⟨12⟩ ⟨0⟩ none "the ferry has moved" (.participant ines) none
      .privateToTeller]

/-- The graph the accounts leave. -/
def retoldGraph : Graph := ((commit ⟨0⟩ .agent retoldLog Graph.fresh).toOption).getD Graph.fresh

theorem retoldGraph_reachable : Reachable retoldGraph := by
  have committed : commit ⟨0⟩ .agent retoldLog Graph.fresh = .ok retoldGraph := rfl
  exact Reachable.fresh.commit committed

/-- The sweep's block, having folded the confidence into the public account. -/
def closedBlock : MemoryBlock := sweepBlock retoldGraph harbour [⟨12⟩] (.absorbed ⟨11⟩)

/-- The graph the sweep leaves. -/
def closedGraph : Graph := sweepGraph retoldGraph harbour [⟨12⟩] (.absorbed ⟨11⟩)

theorem closedBlock_done :
    consolidateInto ⟨retoldGraph, ⟨1⟩⟩ (newBlock retoldGraph 4000) harbour [⟨12⟩] ⟨11⟩ none =
      .ok closedBlock := rfl

theorem closedBlock_committed :
    commit ⟨1⟩ .orchestration closedBlock.buffer retoldGraph = .ok closedGraph := rfl

/-- The carried confidence overwrites the public account of the same teller, and
closes it to everyone the teller is not with. -/
theorem absorption_closes_public :
    Reachable retoldGraph ∧ retoldGraph.memoryById harbour = some harbourView ∧
      tier2Absorptions (retoldGraph.classEntries harbour) (fun _ _ => 1) 1 = [(⟨11⟩, [⟨12⟩])] ∧
      consolidateInto ⟨retoldGraph, ⟨1⟩⟩ (newBlock retoldGraph 4000) harbour [⟨12⟩] ⟨11⟩ none =
        .ok closedBlock ∧
      commit ⟨1⟩ .orchestration closedBlock.buffer retoldGraph = .ok closedGraph ∧
      Shown retoldGraph harbourView [kemi] ⟨11⟩ ∧ ¬Shown closedGraph harbourView [kemi] ⟨11⟩ :=
  ⟨retoldGraph_reachable, by decide, by decide, closedBlock_done, closedBlock_committed, by decide,
    by decide⟩

/-- The absorption of the confidence, as the general result decides it. -/
theorem absorption_shows_the_same_iff_harbour :
    (Shown closedGraph harbourView [kemi] ⟨11⟩ ↔
        Shown retoldGraph harbourView [kemi] ⟨11⟩ ∨
          ∃ source ∈ [(⟨12⟩ : EntryId)], Shown retoldGraph harbourView [kemi] source) ↔
      SparedReaches retoldGraph [kemi] harbourView [⟨12⟩] ⟨11⟩ ∨
        (CarriedReaches retoldGraph [kemi] harbourView [⟨12⟩] ⟨11⟩ ↔
          StandingReaches retoldGraph [kemi] harbourView ⟨11⟩ ∨
            ∃ source ∈ [(⟨12⟩ : EntryId)], StandingReaches retoldGraph [kemi] harbourView source) :=
  absorption_shows_the_same_iff retoldGraph_reachable (.opened retoldGraph 4000)
    (show (_, _) ∈ tier2Absorptions (retoldGraph.classEntries harbour) (fun _ _ => 1) 1 by decide)
    closedBlock_done rfl closedBlock_committed (fun _ => harbourView) [kemi]

end Zuihitsu.Consolidation
