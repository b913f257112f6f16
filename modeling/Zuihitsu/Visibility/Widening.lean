/-
# No endorsement is wider than its entry

The founding posture of an entry is the ceiling of every later endorsement of it.
The fold checks nothing of this: it is kept by the four places that buffer an
endorsement, each of which reads the entry's own level first. What they read may
be the graph's or the block's own pending append, and other blocks commit in
between; the level of a recorded entry never changes, so what was read is still
so when the buffer folds. An absorption reads no level, and rests on the plan
that an earlier look at the class made.
-/

import Zuihitsu.Block.Interleaving
import Zuihitsu.Block.Pending
import Zuihitsu.Consolidation.Clustering

namespace Zuihitsu

open Zuihitsu.Core Zuihitsu.Graph Zuihitsu.Library Zuihitsu.MemoryBlock Zuihitsu.Consolidation

/-- No live endorsement of an entry is wider than the entry. -/
def NoneWider (graph : Graph) : Prop :=
  ∀ entry ∈ graph.entries, ∀ attestation ∈ graph.attestations,
    attestation.entryId = entry.entryId → attestation.retractedReason = none →
      postureWidth attestation.posture ≤ postureWidth entry.visibility

/-- The entry and level an event records. -/
def toldAt : EventPayload → Option (EntryId × Visibility)
  | .memoryContentAppended _ entry _ _ _ _ _ visibility => some (entry, visibility)
  | _ => none

/-- An entry is recorded at a level, in the graph or by an event waiting to fold. -/
def HasLevel (graph : Graph) (waiting : List EventPayload) (entry : EntryId) (level : Visibility) :
    Prop :=
  (∃ toldBy, Recorded graph entry toldBy level) ∨ ∃ payload ∈ waiting, toldAt payload = some (entry, level)

/-- Every endorsement in a buffer is no wider than its entry, as the graph or an earlier
event of the buffer records it. -/
def EndorsesWithin (graph : Graph) (block : MemoryBlock) : Prop :=
  InOrder (fun earlier payload => ∀ entry posture, endorsement payload = some (entry, posture) →
    ∃ level, HasLevel graph earlier entry level ∧ postureWidth posture ≤ postureWidth level)
    block.buffer

section Levels

variable {graph before after : Graph} {event : Event} {waiting more : List EventPayload}
variable {entry : EntryId} {level : Visibility}

theorem noneWider_iff :
    NoneWider graph ↔ ∀ entry teller posture toldBy level,
      graph.standing entry teller = some posture → Recorded graph entry toldBy level →
        postureWidth posture ≤ postureWidth level := by
  constructor
  · intro within entry teller posture toldBy level stands recorded
    obtain ⟨row, member, key, live, rfl⟩ := standing_eq_some.mp stands
    obtain ⟨stored, inEntries, rfl, rfl, rfl⟩ := recorded
    exact within stored inEntries row member (congrArg Prod.fst key) live
  · intro within stored inEntries row member owner live
    have stands : graph.standing stored.entryId row.teller = some row.posture :=
      standing_eq_some.mpr ⟨row, member, by rw [AttestationRow.key, owner], live, rfl⟩
    exact within _ _ _ _ _ stands ⟨stored, inEntries, rfl, rfl, rfl⟩

theorem HasLevel.apply (has : HasLevel before waiting entry level)
    (applied : apply event before = .ok after) : HasLevel after waiting entry level := by
  rcases has with ⟨toldBy, recorded⟩ | pending
  · exact .inl ⟨toldBy, recorded.apply applied⟩
  · exact .inr pending

theorem HasLevel.append (has : HasLevel graph waiting entry level) :
    HasLevel graph (waiting ++ more) entry level := by
  rcases has with recorded | ⟨payload, member, told⟩
  · exact .inl recorded
  · exact .inr ⟨payload, List.mem_append_left _ member, told⟩

theorem recorded_of_toldAt (applied : apply event before = .ok after)
    (told : toldAt event.payload = some (entry, level)) :
    ∃ toldBy, Recorded after entry toldBy level := by
  unfold toldAt at told
  split at told
  · rename_i payload
    cases told
    have appended : ∃ row, appendedRow event before = some row ∧ row.entryId = entry ∧
        row.visibility = level := ⟨_, by simp only [appendedRow, payload]; rfl, rfl, rfl⟩
    obtain ⟨row, appended, rfl, rfl⟩ := appended
    exact ⟨row.toldBy, row, (mem_entries_apply applied).mpr (.inr appended), rfl, rfl, rfl⟩
  · cases told

theorem HasLevel.commit {recordedAt : Timestamp} {source : EventSource}
    (has : HasLevel before waiting entry level)
    (committed : Graph.commit recordedAt source waiting before = .ok after) :
    ∃ toldBy, Recorded after entry toldBy level := by
  rcases has with ⟨toldBy, recorded⟩ | ⟨payload, member, told⟩
  · exact ⟨toldBy, recorded.commit committed⟩
  · obtain ⟨earlier, later, rfl⟩ := List.append_of_mem member
    obtain ⟨first, _, rest⟩ := commit_append_ok.mp committed
    obtain ⟨middle, applied, last⟩ := commit_cons_ok.mp rest
    obtain ⟨toldBy, recorded⟩ := recorded_of_toldAt applied told
    exact ⟨toldBy, recorded.commit last⟩

theorem NoneWider.apply (within : NoneWider before) (reachable : Reachable before)
    (applied : apply event before = .ok after)
    (narrow : ∀ entry posture toldBy level, endorsement event.payload = some (entry, posture) →
      Recorded before entry toldBy level → postureWidth posture ≤ postureWidth level) :
    NoneWider after := by
  rw [noneWider_iff] at within ⊢
  intro entry teller posture toldBy level stands recorded
  rcases recorded_of_apply applied recorded with earlier | ⟨row, appended, rfl, _, rfl⟩
  · rcases standing_after applied stands with stood | endorses | ⟨row, appended, rfl, _⟩
    · exact within entry teller posture toldBy level stood earlier
    · exact narrow entry posture toldBy level endorses earlier
    · -- an entry that is there already is not recorded again
      have fresh := (appended_of_apply applied appended).2.1
      rw [earlier.contains] at fresh
      cases fresh
  · have fresh := (appended_of_apply applied appended).2.1
    rcases standing_after applied stands with stood | endorses | ⟨other, again, _, rfl⟩
    · rw [reachable.standing_known stood] at fresh
      cases fresh
    · unfold appendedRow at appended
      split at appended
      · rename_i payload
        rw [payload] at endorses
        cases endorses
      · cases appended
    · cases appended.symm.trans again
      exact le_refl _

theorem NoneWider.folds {recordedAt : Timestamp} {source : EventSource} {block : MemoryBlock}
    {folded refused : List EventPayload} (within : NoneWider before) (reachable : Reachable before)
    (backed : EndorsesWithin before block) (split : block.buffer = folded ++ refused)
    (committed : Graph.commit recordedAt source folded before = .ok after) : NoneWider after := by
  refine commit_inOrder split (fun earlier payload later here middle next first applied held => ?_)
    committed within
  refine held.apply (reachable.commit first) applied ?_
  intro entry posture toldBy level endorses recorded
  obtain ⟨ceiling, has, narrow⟩ := backed earlier payload later here entry posture endorses
  -- the part folded so far has left a graph with every level it gave
  obtain ⟨_, founded⟩ := has.commit first
  obtain ⟨_, rfl⟩ := founded.unique recorded
  exact narrow

end Levels

/-! ### What a call endorses -/

section Calls

variable {graph : Graph} {now : Timestamp} {block after : MemoryBlock} {events : List EventPayload}

theorem EndorsesWithin.quiet (backed : EndorsesWithin graph block)
    (buffers : Buffers block events after)
    (quiet : ∀ payload ∈ events, endorsement payload = none) : EndorsesWithin graph after := by
  refine InOrder.buffers backed buffers (inOrder_of_forall fun payload member _ entry posture endorses => ?_)
  rw [quiet payload member] at endorses
  cases endorses

theorem EndorsesWithin.reads (backed : EndorsesWithin graph block)
    (buffers : Buffers block events after)
    (narrow : ∀ payload ∈ events, ∀ entry posture, endorsement payload = some (entry, posture) →
      ∃ level, HasLevel graph block.buffer entry level ∧ postureWidth posture ≤ postureWidth level) :
    EndorsesWithin graph after := by
  refine InOrder.buffers backed buffers (inOrder_of_forall fun payload member _ entry posture endorses => ?_)
  obtain ⟨level, has, within⟩ := narrow payload member entry posture endorses
  exact ⟨level, has.append, within⟩

theorem inlineVolatility_endorsement {id : MemoryId} {opts : AppendOptions} :
    ∀ payload ∈ inlineVolatility id opts, endorsement payload = none :=
  forall_inlineVolatility fun _ => rfl

theorem hasLevel_of_live {id : MemoryId} {live : LiveEntry}
    (member : live ∈ liveClassEntries graph block id) :
    HasLevel graph block.buffer live.entryId live.visibility := by
  rcases List.mem_append.mp member with stored | pending
  · obtain ⟨view, listed, rfl⟩ := List.mem_map.mp stored
    obtain ⟨row, rowMem, rfl⟩ := List.mem_map.mp (List.mem_filter.mp listed).1
    exact .inl ⟨row.toldBy, row, (mem_entryRowsWhere.mp rowMem).1, rfl, rfl, rfl⟩
  · obtain ⟨payload, inBuffer, read⟩ := List.mem_filterMap.mp pending
    refine .inr ⟨payload, inBuffer, ?_⟩
    unfold livePending at read
    split at read
    · split at read
      · cases read
        rfl
      · cases read
    · cases read

theorem hasLevel_of_liveEntry {id : MemoryId} {entry : EntryId} {live : LiveEntry}
    (found : liveEntry graph block id entry = .ok live) :
    HasLevel graph block.buffer entry live.visibility := by
  obtain ⟨member, rfl⟩ := mem_of_liveEntry found
  exact hasLevel_of_live member

theorem EndorsesWithin.append (backed : EndorsesWithin graph block) {fresh : EntryId}
    {id : MemoryId}
    {text : String} {opts : AppendOptions}
    (done : append ⟨graph, now⟩ fresh block id text opts = .ok after) :
    EndorsesWithin graph after := by
  obtain ⟨_, _, _, _, rfl⟩ := append_ok done
  exact backed.quiet buffers_pushAll (List.forall_mem_cons.mpr ⟨rfl, inlineVolatility_endorsement⟩)

theorem EndorsesWithin.appendDedup (backed : EndorsesWithin graph block) {fresh : EntryId}
    {id : MemoryId} {text : String} {opts : AppendOptions} {distinctFrom : Option EntryId}
    {hits : List DedupHit}
    (done : appendDedup ⟨graph, now⟩ fresh block id text opts distinctFrom hits = .ok after) :
    EndorsesWithin graph after := by
  rcases appendDedup_ok done with appended | rfl | ⟨memory, view, _, _, _, found, open', rfl⟩
  · exact backed.append appended
  · exact backed
  · refine backed.reads buffers_pushAll ?_
    intro payload member entry posture endorses
    obtain rfl := List.mem_singleton.mp member
    cases endorses
    obtain ⟨row, stored, read⟩ := Option.bind_eq_some_iff.mp found
    obtain ⟨_, _, same⟩ := Option.map_eq_some_iff.mp read
    obtain ⟨_, rfl⟩ := Prod.mk.inj same
    exact ⟨row.visibility, .inl ⟨row.toldBy, row, (Table.find_eq_some_iff.mp stored).1, rfl, rfl, rfl⟩,
      postureWidth_le_of_isAllAudience open'⟩

theorem EndorsesWithin.attest (backed : EndorsesWithin graph block) {id : MemoryId}
    {entry : EntryId}
    {opts : AppendOptions} (done : attest ⟨graph, now⟩ block id entry opts = .ok after) :
    EndorsesWithin graph after := by
  obtain ⟨target, live, _, _, _, _, _, _, narrow, rfl | rfl⟩ := attest_ok done
  · exact backed
  · refine backed.reads buffers_pushAll ?_
    intro payload member other posture endorses
    obtain rfl := List.mem_singleton.mp member
    cases endorses
    exact ⟨target.visibility, hasLevel_of_liveEntry live, narrow⟩

theorem EndorsesWithin.consolidate (backed : EndorsesWithin graph block) {fresh : EntryId}
    {id : MemoryId} {sources : List EntryId} {text : String} {producedBy : Option ProducedBy}
    (done : consolidate ⟨graph, now⟩ fresh block id sources text producedBy = .ok after) :
    EndorsesWithin graph after := by
  obtain ⟨toldBy, visibility, _, _, _, _, rfl⟩ := consolidate_ok done
  refine InOrder.buffers backed buffers_pushAll
    fun earlier payload later split entry posture endorses => ?_
  cases earlier with
  | nil =>
    obtain ⟨rfl, _⟩ := List.cons.inj split
    cases endorses
  | cons first between =>
    obtain ⟨rfl, rest⟩ := List.cons.inj split
    have member : payload ∈ between ++ payload :: later := by simp
    rw [← show _ = between ++ payload :: later from rest] at member
    rcases List.mem_append.mp member with attested | last
    · obtain ⟨group, _, rfl⟩ := List.mem_map.mp attested
      cases endorses
      exact ⟨visibility, .inr ⟨_, List.mem_append_right _ List.mem_cons_self, rfl⟩, le_refl _⟩
    · obtain rfl := List.mem_singleton.mp last
      cases endorses

theorem EndorsesWithin.consolidateInto (backed : EndorsesWithin graph block) {id : MemoryId}
    {sources : List EntryId} {replacement : EntryId} {producedBy : Option ProducedBy}
    (done : consolidateInto ⟨graph, now⟩ block id sources replacement producedBy = .ok after)
    {toldBy : Teller} {level : Visibility} (recorded : Recorded graph replacement toldBy level)
    (open' : isAllAudience level = true) : EndorsesWithin graph after := by
  obtain ⟨_, carried, _, _, _, _, _, rfl⟩ := consolidateInto_ok done
  refine backed.reads buffers_pushAll fun payload member entry posture endorses => ?_
  rcases List.mem_append.mp member with attested | last
  · obtain ⟨source, _, rfl⟩ := List.mem_map.mp attested
    cases endorses
    exact ⟨level, .inl ⟨toldBy, recorded⟩, postureWidth_le_of_isAllAudience open'⟩
  · obtain rfl := List.mem_singleton.mp last
    cases endorses

/-- The graph records an entry at a level that everyone may see. -/
def OpenlyRecorded (graph : Graph) (entry : EntryId) : Prop :=
  ∃ toldBy level, Recorded graph entry toldBy level ∧ isAllAudience level = true

theorem EndorsesWithin.call (backed : EndorsesWithin graph block) {op : Operation}
    (ran : Calls graph block (now, op) after)
    (absorbs : ∀ id sources replacement producedBy,
      op = .consolidateInto id sources replacement producedBy → sources ≠ [] →
        OpenlyRecorded graph replacement) :
    EndorsesWithin graph after := by
  cases op with
  | appendDedup => exact backed.appendDedup ran
  | attest => exact backed.attest ran
  | consolidate => exact backed.consolidate ran
  | consolidateInto id sources replacement producedBy =>
    obtain ⟨_, _, _, _, some, _⟩ := consolidateInto_ok ran
    obtain ⟨_, _, recorded, open'⟩ := absorbs id sources replacement producedBy rfl some
    exact backed.consolidateInto ran recorded open'
  | _ =>
    -- the other operations endorse nothing
    obtain ⟨events, buffers, kinds⟩ := call_mayBuffer ran
    refine backed.quiet buffers fun payload member => ?_
    have kind := kinds payload member
    cases payload with
    | entryAttested => cases kind
    | _ => rfl

end Calls

/-! ### Runs of blocks and plans -/

/-- A system, and the absorptions that looks at its classes have planned. -/
structure Planning where
  system : System
  plans : List (EntryId × List EntryId) := []

/-- A look at a class plans absorptions, or the system moves. -/
inductive Planning.Act where
  | plan (id : MemoryId)
  | move (move : System.Move)

/-- The moves of a system whose absorptions are planned, and whose endorsements all come
from blocks. -/
def Planning.Permits (planning : Planning) : System.Move → Prop
  | .call _ _ (.consolidateInto _ sources replacement _) => (replacement, sources) ∈ planning.plans
  | .append _ _ payloads => ∀ payload ∈ payloads, endorsement payload = none
  | _ => True

/-- One act. A plan is made from the class as it is then, under any scores. -/
inductive Planning.Step : Planning → Planning.Act → Planning → Prop
  | plan {planning : Planning} {id : MemoryId} {S : Type} [LT S] [DecidableLT S]
      (score : Nat → Nat → S) (threshold : S) :
      Step planning (.plan id)
        { planning with
          plans := planning.plans ++
            tier2Absorptions (planning.system.graph.classEntries id) score threshold }
  | move {planning : Planning} {move : System.Move} {after : System}
      (moved : System.Step planning.system move after) (permitted : planning.Permits move) :
      Step planning (.move move) { planning with system := after }

section Runs

variable {planning after : Planning}

/-- The moves that absorb into entries everyone may see. -/
def AbsorbsOpenly (system : System) : System.Move → Prop
  | .call _ _ (.consolidateInto _ sources replacement _) =>
    sources ≠ [] → OpenlyRecorded system.graph replacement
  | .append _ _ payloads => ∀ payload ∈ payloads, endorsement payload = none
  | _ => True

theorem keeps_widths :
    Keeps AbsorbsOpenly (fun graph => Reachable graph ∧ NoneWider graph)
      (fun _ => EndorsesWithin) where
  opens := by
    intro slot graph block _ empty
    rw [EndorsesWithin, empty]
    exact inOrder_nil
  calls := by
    intro system slot now op block after permitted _ _ backed ran
    refine backed.call ran ?_
    rintro id sources replacement producedBy rfl
    exact permitted
  moves := by
    intro slot event before after block applied backed earlier payload later split entry posture endorses
    obtain ⟨level, has, narrow⟩ := backed earlier payload later split entry posture endorses
    exact ⟨level, has.apply applied, narrow⟩
  folds := by
    rintro system slot recordedAt source block folded refused after _ _ split committed
      ⟨reachable, within⟩ backed
    exact ⟨reachable.commit committed, within.folds reachable backed split committed⟩
  appends := by
    rintro system recordedAt source payloads folded refused after permitted rfl committed
    refine commit_induction (motive := fun graph => Reachable graph ∧ NoneWider graph) ?_ committed
    rintro payload member before after applied ⟨reachable, within⟩
    refine ⟨reachable.apply rfl applied, within.apply reachable applied ?_⟩
    intro entry posture toldBy level endorses
    rw [permitted payload (List.mem_append_left _ member)] at endorses
    cases endorses

theorem openlyRecorded_of_planned {S : Type} [LT S] [DecidableLT S] {score : Nat → Nat → S}
    {threshold : S} {graph : Graph} {id : MemoryId} {replacement : EntryId} {sources : List EntryId}
    (planned : (replacement, sources) ∈ tier2Absorptions (graph.classEntries id) score threshold)
    (some : sources ≠ []) : OpenlyRecorded graph replacement := by
  obtain ⟨_, target, listed, rfl, absorbs⟩ := tier2Absorptions_spec planned
  obtain ⟨source, member⟩ := List.exists_mem_of_ne_nil sources some
  obtain ⟨_, _, _, absorbable⟩ := absorbs source member
  obtain ⟨row, rowMem, rfl⟩ := List.mem_map.mp listed
  exact ⟨row.toldBy, row.visibility, ⟨row, (mem_entryRowsWhere.mp rowMem).1, rfl, rfl, rfl⟩,
    isAllAudience_of_isAbsorbable absorbable⟩

/-- The invariant of a run: the system keeps the widths, and every planned target is one
that everyone may see. -/
structure Planning.Sound (planning : Planning) : Prop where
  system : planning.system.Sound (fun graph => Reachable graph ∧ NoneWider graph)
    (fun _ => EndorsesWithin)
  plans : ∀ plan ∈ planning.plans, plan.2 ≠ [] → OpenlyRecorded planning.system.graph plan.1

theorem OpenlyRecorded.step {before next : System} {move : System.Move} {entry : EntryId}
    (recorded : OpenlyRecorded before.graph entry) (step : System.Step before move next) :
    OpenlyRecorded next.graph entry := by
  obtain ⟨toldBy, level, recorded, open'⟩ := recorded
  refine ⟨toldBy, level, ?_, open'⟩
  cases step with
  | @commit slot recordedAt source block held =>
    obtain ⟨_, _, _, committed⟩ := before.append_spec recordedAt source block.buffer
    exact recorded.commit committed
  | @append recordedAt source payloads =>
    obtain ⟨_, _, _, committed⟩ := before.append_spec recordedAt source payloads
    exact recorded.commit committed
  | _ => exact recorded

theorem Planning.Sound.step {act : Planning.Act} (sound : planning.Sound)
    (step : Planning.Step planning act after) : after.Sound := by
  cases step with
  | plan =>
    refine ⟨sound.system, fun plan member some => ?_⟩
    rcases List.mem_append.mp member with earlier | new
    · exact sound.plans plan earlier some
    · exact openlyRecorded_of_planned new some
  | @move move next moved permitted =>
    have openly : AbsorbsOpenly planning.system move := by
      cases move with
      | call slot now op =>
        cases op with
        | consolidateInto id sources replacement producedBy =>
          exact sound.plans (replacement, sources) permitted
        | _ => trivial
      | append => exact permitted
      | _ => trivial
    exact ⟨keeps_widths.step moved openly sound.system,
      fun plan member some => (sound.plans plan member some).step moved⟩

/-- From the empty graph on, whatever the blocks call, in whatever order they commit and
whatever absorptions are planned on the way, no live endorsement is wider than its
entry. -/
theorem none_wider {acts : List Planning.Act}
    (run : Trace Planning.Step ⟨{ graph := Graph.fresh }, []⟩ acts after) :
    NoneWider after.system.graph := by
  have start : Planning.Sound ⟨{ graph := Graph.fresh }, []⟩ := by
    refine ⟨⟨⟨.fresh, fun entry member => nomatch member⟩, fun slot block held => nomatch held⟩, ?_⟩
    intro plan member
    cases member
  have sound := run.invariant Planning.Sound (fun _ _ _ step earlier => earlier.step step) start
  exact sound.system.graph.2

end Runs

/-! Ines tells the agent in confidence that the boat leaks, and Jonas stands behind it
in the same turn. -/

namespace Leak

def boat : MemoryId := ⟨1⟩
def ines : MemoryId := ⟨2⟩
def jonas : MemoryId := ⟨3⟩
def leaks : EntryId := ⟨11⟩

def turn : MemoryBlock := .open Graph.fresh (.participant ines) .platform none none [] 4000

def tells : Operation :=
  .create boat leaks ⟨"topic/boat"⟩ (some "the boat leaks") { visibility := some .private }

def confirms : Operation :=
  .attest boat leaks { toldBy := some (.participant jonas), visibility := some .private }

def told : MemoryBlock := ((tells.run ⟨Graph.fresh, ⟨1⟩⟩ turn).toOption).getD turn
def confirmed : MemoryBlock := ((confirms.run ⟨Graph.fresh, ⟨1⟩⟩ told).toOption).getD told

def opened : System := { graph := Graph.fresh : System }.put 0 (some turn)
def speaking : System := opened.put 0 (some told)
def attesting : System := speaking.put 0 (some confirmed)
def ended : System := (attesting.append ⟨1⟩ .agent confirmed.buffer).put 0 none

theorem none_wider_leak :
    NoneWider ended.graph ∧
      ended.graph.standing leaks (.participant jonas) = some .privateToTeller := by
  have opens : System.Step { graph := Graph.fresh } (.open 0 turn) opened := .open rfl rfl
  have tells : System.Step opened (.call 0 ⟨1⟩ tells) speaking := .call rfl rfl
  have confirms : System.Step speaking (.call 0 ⟨1⟩ confirms) attesting := .call rfl rfl
  have commits : System.Step attesting (.commit 0 ⟨1⟩ .agent) ended := .commit rfl
  have run : Trace Planning.Step ⟨{ graph := Graph.fresh }, []⟩ _ ⟨ended, []⟩ :=
    .cons (.move opens trivial) (.cons (.move tells trivial)
      (.cons (.move confirms trivial) (.single (.move commits trivial))))
  exact ⟨none_wider run, rfl⟩

end Leak

end Zuihitsu
