/-
# Which tellers a consolidation keeps

Both tiers read the endorsements they carry off each source's own teller, so a
teller who only endorsed a source is carried by nothing. The main result says
exactly when that loses nobody: when every teller standing on a source is, by
class, the one who told some source, or stands on the replacement already.
-/

import Zuihitsu.Consolidation.Sweep

namespace Zuihitsu.Consolidation

open Zuihitsu.Core Zuihitsu.Graph Zuihitsu.Library Zuihitsu.MemoryBlock

/-- Every teller class but the agent's that stands on a source stands on the
replacement afterwards. -/
def KeepsTellers (before after : Graph) (sources : List EntryId) (replacement : EntryId) : Prop :=
  ∀ source ∈ sources, ∀ teller ≠ .agent, (before.standing source teller).isSome →
    ∃ held, (after.standing replacement held).isSome ∧ sameTellerClass after held teller = true

/-- Every teller class but the agent's that stands on a source told some source
itself, or stands on the replacement already. -/
def TellersFounded (before : Graph) (sources : List EntryId) (replacement : EntryId) : Prop :=
  ∀ source ∈ sources, ∀ teller ≠ .agent, (before.standing source teller).isSome →
    (∃ told ∈ sources, ∃ toldBy visibility, Recorded before told toldBy visibility ∧
        sameTellerClass before toldBy teller = true) ∨
      ∃ held, (before.standing replacement held).isSome ∧ sameTellerClass before held teller = true

/-- What either tier does to the tellers on the replacement: those standing there
stay, a new one is the agent or told a source, and every source's own teller class
is there afterwards. -/
structure CarriesTold (before after : Graph) (sources : List EntryId) (replacement : EntryId) :
    Prop where
  stays : ∀ teller, (before.standing replacement teller).isSome →
    (after.standing replacement teller).isSome
  told : ∀ teller, (after.standing replacement teller).isSome →
    (before.standing replacement teller).isSome ∨ teller = .agent ∨
      ∃ source ∈ sources, ∃ visibility, Recorded before source teller visibility
  covered : ∀ source ∈ sources, ∀ toldBy visibility, Recorded before source toldBy visibility →
    ∃ held, (after.standing replacement held).isSome ∧ sameTellerClass before held toldBy = true

section Carrying

variable {before after : Graph} {sources : List EntryId} {replacement : EntryId}

theorem LeftBySynthesis.carriesTold {tellers : List Teller} {visibility : Visibility}
    (left : LeftBySynthesis before after sources replacement tellers visibility) :
    CarriesTold before after sources replacement where
  stays := by
    intro teller stands
    rw [left.unheld teller] at stands
    cases stands
  told := by
    intro teller stands
    obtain ⟨posture, stands⟩ := Option.isSome_iff_exists.mp stands
    have member := ((left.stands teller posture).mp stands).2
    rcases left.told teller member with agent | ⟨source, sourceMem, recorded⟩
    · exact .inr (.inl agent)
    · exact .inr (.inr ⟨source, sourceMem, visibility, recorded⟩)
  covered := by
    intro source member toldBy level recorded
    obtain ⟨own, ownRecorded, teller, tellerMem, same⟩ := left.covered source member
    obtain ⟨rfl, _⟩ := recorded.unique ownRecorded
    have stands := (left.stands teller visibility).mpr ⟨rfl, tellerMem⟩
    exact ⟨teller, by rw [stands]; rfl, same⟩

theorem LeftByAbsorption.carriesTold (left : LeftByAbsorption before after sources replacement) :
    CarriesTold before after sources replacement where
  stays := by
    intro teller stands
    rw [left.stands teller, Option.isSome_or, stands, Bool.or_true]
  told := by
    intro teller stands
    rw [left.stands teller, Option.isSome_or, Bool.or_eq_true] at stands
    rcases stands with carried | stood
    · obtain ⟨pair, pairMem, rfl⟩ := lastHeld_isSome.mp carried
      obtain ⟨source, sourceMem, recorded⟩ := mem_foundings.mp (newlyHeld_subset pairMem)
      exact .inr (.inr ⟨source, sourceMem, pair.2, recorded⟩)
    · exact .inl stood
  covered := by
    intro source member toldBy visibility recorded
    have founding : (toldBy, visibility) ∈ foundings before sources :=
      mem_foundings.mpr ⟨source, member, recorded⟩
    obtain ⟨held, heldMem, _, same⟩ := newlyHeld_covers founding
    refine ⟨held.1, ?_, same⟩
    rw [left.stands, Option.isSome_or, Bool.or_eq_true]
    rcases List.mem_append.mp heldMem with stood | carried
    · exact .inr (by rw [mem_standingPairs.mp stood]; rfl)
    · exact .inl (lastHeld_isSome.mpr ⟨held, carried, rfl⟩)

theorem CarriesTold.keepsTellers_iff (carries : CarriesTold before after sources replacement)
    (classes : sameTellerClass after = sameTellerClass before) :
    KeepsTellers before after sources replacement ↔ TellersFounded before sources replacement := by
  unfold KeepsTellers TellersFounded
  rw [classes]
  refine forall₂_congr fun source _ => forall₂_congr fun teller notAgent => imp_congr_right fun _ => ?_
  constructor
  · rintro ⟨held, stands, same⟩
    rcases carries.told held stands with stood | rfl | ⟨told, toldMem, visibility, recorded⟩
    · exact .inr ⟨held, stood, same⟩
    · -- only the agent is of the agent's class
      cases teller with
      | agent => exact absurd rfl notAgent
      | participant | bootstrap => cases same
    · exact .inl ⟨told, toldMem, held, visibility, recorded, same⟩
  · rintro (⟨told, toldMem, toldBy, visibility, recorded, same⟩ | ⟨held, stood, same⟩)
    · obtain ⟨held, stands, alike⟩ := carries.covered told toldMem toldBy visibility recorded
      refine ⟨held, stands, ?_⟩
      rw [sameTellerClass_iff] at alike same ⊢
      exact alike.trans same
    · exact ⟨held, carries.stays held stood, same⟩

end Carrying

/-- A consolidation of either tier, in any sweep and on any reachable graph, keeps
every teller class standing on its sources exactly when each of them told some
source or stands on the replacement already. -/
theorem keepsTellers_iff_tellersFounded (retirement : Retirement) {engine : Engine}
    {block after : MemoryBlock} {id : MemoryId} {sources : List EntryId}
    {producedBy : Option ProducedBy} {recordedAt : Timestamp} {source : EventSource}
    {before committed : Graph} (reachable : Reachable engine.graph) (swept : Swept block)
    (done : retire engine block id sources producedBy retirement = .ok after)
    (first : commit recordedAt source block.buffer engine.graph = .ok before)
    (whole : commit recordedAt source after.buffer engine.graph = .ok committed) :
    KeepsTellers before committed sources retirement.replacement ↔
      TellersFounded before sources retirement.replacement := by
  have classes : sameTellerClass committed = sameTellerClass before := by
    refine sameTellerClass_congr ?_
    rw [(swept.retires done).classOf whole, swept.classOf first]
  refine CarriesTold.keepsTellers_iff ?_ classes
  cases retirement with
  | synthesized =>
    obtain ⟨tellers, visibility, left⟩ := synthesized_leaves reachable swept done first whole
    exact left.carriesTold
  | absorbed => exact (absorbed_leaves reachable swept done first whole).carriesTold

/-! Three people tell one fact in different words. The first sweep merges two of the
accounts, the second merges the result with the third. -/

/-- The memory the fact is about. -/
def harbour : MemoryId := ⟨1⟩

/-- The tellers. -/
def ines : MemoryId := ⟨2⟩
def jonas : MemoryId := ⟨3⟩
def kemi : MemoryId := ⟨4⟩

/-- The log of the three accounts. -/
def accountsLog : List EventPayload :=
  [.memoryCreated harbour ⟨"topic/harbour"⟩, .memoryCreated ines ⟨"person/ines"⟩,
    .memoryCreated jonas ⟨"person/jonas"⟩, .memoryCreated kemi ⟨"person/kemi"⟩,
    .memoryContentAppended harbour ⟨11⟩ ⟨0⟩ none "the ferry moved" (.participant ines) none .public,
    .memoryContentAppended harbour ⟨12⟩ ⟨0⟩ none "ferry has moved" (.participant jonas) none .public,
    .memoryContentAppended harbour ⟨13⟩ ⟨0⟩ none "the ferry is gone" (.participant kemi) none .public]

/-- The graph the accounts leave. -/
def accountsGraph : Graph :=
  ((commit ⟨0⟩ .agent accountsLog Graph.fresh).toOption).getD Graph.fresh

/-- The block of a sweep that makes one consolidation. -/
def sweepBlock (graph : Graph) (id : MemoryId) (sources : List EntryId) (retirement : Retirement) :
    MemoryBlock :=
  ((retire ⟨graph, ⟨1⟩⟩ (newBlock graph 4000) id sources none retirement).toOption).getD
    (newBlock graph 4000)

/-- The graph such a sweep leaves. -/
def sweepGraph (graph : Graph) (id : MemoryId) (sources : List EntryId) (retirement : Retirement) :
    Graph :=
  ((commit ⟨1⟩ .orchestration (sweepBlock graph id sources retirement).buffer graph).toOption).getD
    graph

/-- The graph after the first sweep. -/
def mergedGraph : Graph :=
  sweepGraph accountsGraph harbour [⟨11⟩, ⟨12⟩] (.synthesized ⟨21⟩ "the ferry has moved")

theorem mergedGraph_reachable : Reachable mergedGraph := by
  have told : Reachable accountsGraph := by
    have committed : commit ⟨0⟩ .agent accountsLog Graph.fresh = .ok accountsGraph := rfl
    exact Reachable.fresh.commit committed
  have committed : commit ⟨1⟩ .orchestration
      (sweepBlock accountsGraph harbour [⟨11⟩, ⟨12⟩] (.synthesized ⟨21⟩ "the ferry has moved")).buffer
        accountsGraph = .ok mergedGraph := rfl
  exact told.commit committed

/-- The block of the second sweep. -/
def lossyBlock : MemoryBlock :=
  sweepBlock mergedGraph harbour [⟨21⟩, ⟨13⟩] (.synthesized ⟨22⟩ "the ferry has gone")

/-- The graph after the second sweep. -/
def lossyGraph : Graph :=
  sweepGraph mergedGraph harbour [⟨21⟩, ⟨13⟩] (.synthesized ⟨22⟩ "the ferry has gone")

theorem second_sweep_done :
    retire ⟨mergedGraph, ⟨1⟩⟩ (newBlock mergedGraph 4000) harbour [⟨21⟩, ⟨13⟩] none
      (.synthesized ⟨22⟩ "the ferry has gone") = .ok lossyBlock := rfl

theorem second_sweep_committed : commit ⟨1⟩ .orchestration lossyBlock.buffer mergedGraph = .ok lossyGraph := rfl

/-- The second sweep loses the two tellers the first one carried over. -/
theorem second_sweep_loses_tellers :
    Reachable mergedGraph ∧ Swept (newBlock mergedGraph 4000) ∧
      retire ⟨mergedGraph, ⟨1⟩⟩ (newBlock mergedGraph 4000) harbour [⟨21⟩, ⟨13⟩] none
        (.synthesized ⟨22⟩ "the ferry has gone") = .ok lossyBlock ∧
      commit ⟨1⟩ .orchestration lossyBlock.buffer mergedGraph = .ok lossyGraph ∧
      ¬KeepsTellers mergedGraph lossyGraph [⟨21⟩, ⟨13⟩] ⟨22⟩ := by
  refine ⟨mergedGraph_reachable, .opened mergedGraph 4000, second_sweep_done, second_sweep_committed, ?_⟩
  intro keeps
  obtain ⟨held, stands, same⟩ := keeps ⟨21⟩ (by decide) (.participant ines) (by decide) (by decide)
  obtain ⟨posture, stands⟩ := Option.isSome_iff_exists.mp stands
  have listed : (held, posture) ∈ standingPairs lossyGraph ⟨22⟩ := mem_standingPairs.mpr stands
  have known : standingPairs lossyGraph ⟨22⟩ =
      [(.agent, .public), (.participant kemi, .public)] := by decide
  rw [known] at listed
  simp only [List.mem_cons, List.not_mem_nil, or_false, Prod.mk.injEq] at listed
  rcases listed with ⟨rfl, _⟩ | ⟨rfl, _⟩
  · cases same
  · revert same
    decide

/-- The second sweep, as the general result decides it. -/
theorem keepsTellers_iff_tellersFounded_harbour :
    KeepsTellers mergedGraph lossyGraph [⟨21⟩, ⟨13⟩] ⟨22⟩ ↔
      TellersFounded mergedGraph [⟨21⟩, ⟨13⟩] ⟨22⟩ :=
  keepsTellers_iff_tellersFounded (.synthesized ⟨22⟩ "the ferry has gone") mergedGraph_reachable
    (.opened mergedGraph 4000) second_sweep_done rfl second_sweep_committed

end Zuihitsu.Consolidation
