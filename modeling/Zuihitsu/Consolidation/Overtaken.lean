/-
# A sweep that is overtaken

A sweep checks that its sources and its replacement are live when it buffers a
consolidation, then waits on a model for the next one, and commits everything at
the end. Nothing holds the entries still in between. The fold retires the sources
into the replacement whatever has become of either, so a sweep keeps the
corrections that committed meanwhile exactly when none of them met its sources or
its replacements.
-/

import Zuihitsu.Block.Corrections
import Zuihitsu.Block.ReadYourWrites
import Zuihitsu.Consolidation.Sweep

namespace Zuihitsu.Consolidation

open Zuihitsu.Core Zuihitsu.Graph Zuihitsu.Library Zuihitsu.MemoryBlock

/-- A buffer retires some sources into a replacement. -/
def Consolidates (buffer : List EventPayload) (sources : List EntryId) (replacement : EntryId) :
    Prop :=
  ∃ id producedBy, .entriesConsolidated id sources replacement producedBy ∈ buffer

/-- An entry was retracted, outright or with its last endorsement. -/
def Retracted (graph : Graph) (entry : EntryId) : Prop :=
  ∃ row ∈ graph.entries, row.entryId = entry ∧ row.retractedReason.isSome = true

/-- An entry is there, and no longer live. -/
def Dead (graph : Graph) (entry : EntryId) : Prop :=
  graph.entries.contains entry = true ∧ ¬IsLive graph entry

/-- A graph holds a source retired into a replacement, as a sweep's buffer says. -/
def RetiredInto (buffer : List EventPayload) (after : Graph) (source replacement : EntryId) :
    Prop :=
  (∃ sources, Consolidates buffer sources replacement ∧ source ∈ sources) ∧
    PointsTo after source replacement

/-- A commit of a sweep undoes no correction: what was retracted before stands behind no
live replacement, and nothing gave way to an entry that was dead by then. -/
structure UndoesNothing (before : Graph) (buffer : List EventPayload) (after : Graph) : Prop where
  retracted : ∀ source replacement, RetiredInto buffer after source replacement →
    Retracted before source → ¬IsLive after replacement
  dead : ∀ source replacement, RetiredInto buffer after source replacement → ¬Dead before replacement

/-- No correction overtook a sweep's buffer: its replacements are live or its own, and none
of the sources it leaves behind a live one was retracted. -/
structure Unovertaken (before : Graph) (buffer : List EventPayload) : Prop where
  replacements : ∀ sources replacement, Consolidates buffer sources replacement →
    IsLive before replacement ∨ ∃ payload ∈ buffer, appended payload = some replacement
  sources : ∀ sources replacement, Consolidates buffer sources replacement →
    (∃ source ∈ sources, Retracted before source) → replacement ∈ buffer.flatMap supersededBy

/-! ### What a sweep's buffer has checked -/

/-- What a sweep's buffer goes by: it retires what it knows, nothing twice, and into a
replacement it knows. -/
structure Checked (graph : Graph) (block : MemoryBlock) : Prop where
  writes : ∀ payload ∈ block.buffer, isSweepWrite payload = true
  known : RetiresKnown graph block.buffer
  once : InOrder (fun earlier payload => ∀ entry ∈ supersededBy payload,
    entry ∉ earlier.flatMap supersededBy) block.buffer
  replaced : InOrder (fun earlier payload => ∀ sources replacement,
    replaces payload = some (sources, replacement) → sources ≠ [] ∧ Known graph earlier replacement)
    block.buffer

section Checking

variable {engine : Engine} {graph before after : Graph} {block next : MemoryBlock} {id : MemoryId}
variable {sources : List EntryId} {producedBy : Option ProducedBy} {retirement : Retirement}
variable {event : Event} {events : List EventPayload} {entry replacement : EntryId}

theorem retracts_nothing {payload : EventPayload} (write : isSweepWrite payload = true) :
    retractedEntry payload = none := by
  cases payload <;> first | rfl | cases write

theorem checked_empty (empty : block.buffer = []) : Checked graph block := by
  refine ⟨?_, ?_, ?_, ?_⟩
  · simp [empty]
  · rw [RetiresKnown, empty]
    exact inOrder_nil
  · rw [empty]
    exact inOrder_nil
  · rw [empty]
    exact inOrder_nil

theorem retire_checks (done : retire engine block id sources producedBy retirement = .ok next) :
    ∃ target quiet, next = block.pushAll
        (quiet ++ [.entriesConsolidated target sources retirement.replacement producedBy]) ∧
      (∀ payload ∈ quiet, isSweepWrite payload = true ∧ supersededBy payload = [] ∧
        replaces payload = none) ∧
      sources ≠ [] ∧
      (∀ source ∈ sources, ∃ live, liveEntry engine.graph block target source = .ok live) ∧
      Known engine.graph (block.buffer ++ quiet) retirement.replacement := by
  cases retirement with
  | synthesized =>
    obtain ⟨toldBy, visibility, level, _, _, nonempty, rfl⟩ := consolidate_ok done
    refine ⟨_, _ :: _, rfl, ?_, nonempty, ?_,
      .inr ⟨_, List.mem_append_right _ List.mem_cons_self, rfl⟩⟩
    · intro payload member
      rcases List.mem_cons.mp member with rfl | attested
      · exact ⟨rfl, rfl, rfl⟩
      · obtain ⟨group, _, rfl⟩ := List.mem_map.mp attested
        exact ⟨rfl, rfl, rfl⟩
    · intro source member
      obtain ⟨live, found, _⟩ := level source member
      exact ⟨live, found⟩
  | absorbed =>
    obtain ⟨target, carried, found, read, nonempty, _, _, rfl⟩ := consolidateInto_ok done
    refine ⟨_, _, rfl, ?_, nonempty, read, (known_of_liveEntry found).append⟩
    intro payload member
    obtain ⟨entry, _, rfl⟩ := List.mem_map.mp member
    exact ⟨rfl, rfl, rfl⟩

theorem Checked.retire (checked : Checked engine.graph block)
    (done : retire engine block id sources producedBy retirement = .ok next) :
    Checked engine.graph next := by
  obtain ⟨target, quiet, rfl, silent, nonempty, read, known⟩ := retire_checks done
  refine ⟨?_, ?_, ?_, ?_⟩
  · intro payload member
    rcases List.mem_append.mp member with earlier | new
    · exact checked.writes payload earlier
    · rcases List.mem_append.mp new with earlier | last
      · exact (silent payload earlier).1
      · obtain rfl := List.mem_singleton.mp last
        rfl
  · cases retirement with
    | synthesized => exact checked.known.consolidate done
    | absorbed => exact checked.known.consolidateInto done
  · refine checked.once.append ((inOrder_of_forall fun payload member earlier => ?_).append
      (inOrder_singleton fun entry taken => ?_))
    · simp [(silent payload member).2.1]
    · -- a source that the buffer had retired would not have been read live
      obtain ⟨live, found⟩ := read entry taken
      obtain ⟨listed, rfl⟩ := mem_of_liveEntry found
      have unretired : quiet.flatMap supersededBy = [] :=
        List.flatMap_eq_nil_iff.mpr fun payload member => (silent payload member).2.1
      simpa [unretired] using not_superseded_of_live listed
  · refine checked.replaced.append ((inOrder_of_forall fun payload member earlier => ?_).append
      (inOrder_singleton fun others replacement retires => ?_))
    · intro others replacement retires
      rw [(silent payload member).2.2] at retires
      cases retires
    · cases retires
      exact ⟨nonempty, by simpa using known⟩

theorem Checked.apply (checked : Checked before block) (applied : apply event before = .ok after) :
    Checked after block := by
  refine ⟨checked.writes, ?_, checked.once, ?_⟩
  · intro earlier payload later split entry retires
    exact (checked.known earlier payload later split entry retires).apply applied
  · intro earlier payload later split sources replacement retires
    obtain ⟨nonempty, known⟩ := checked.replaced earlier payload later split sources replacement retires
    exact ⟨nonempty, known.apply applied⟩

end Checking

/-! ### What its commit leaves -/

section Committing

variable {before after : Graph} {block : MemoryBlock} {event : Event}
variable {recordedAt : Timestamp} {source : EventSource} {payloads : List EventPayload}
variable {entry next replacement : EntryId} {sources : List EntryId}

theorem pointsTo_apply (write : isSweepWrite event.payload = true)
    (spared : entry ∉ supersededBy event.payload) (applied : apply event before = .ok after)
    (points : PointsTo before entry next) : PointsTo after entry next := by
  obtain ⟨row, member, rfl, leads⟩ := points
  refine ⟨_, (mem_entries_apply applied).mpr (.inl ⟨row, member, rfl⟩), entryChange_entryId row, ?_⟩
  cases payload : event.payload with
  | entriesConsolidated id sources replacement producedBy =>
    rw [payload] at spared
    have outside : row.entryId ∉ sources := spared
    simpa only [entryChange, payload, outside, if_false] using leads
  | memoryContentAppended | entryAttested =>
    simpa only [entryChange, payload] using leads
  | _ =>
    rw [payload] at write
    cases write

theorem Checked.pointsTo (checked : Checked before block)
    (done : commit recordedAt source block.buffer before = .ok after)
    (consolidates : Consolidates block.buffer sources replacement) (member : entry ∈ sources) :
    PointsTo after entry replacement := by
  obtain ⟨id, producedBy, inBuffer⟩ := consolidates
  obtain ⟨earlier, later, split⟩ := List.append_of_mem inBuffer
  rw [split] at done
  obtain ⟨middle, first, rest⟩ := commit_append_ok.mp done
  obtain ⟨next, applied, last⟩ := commit_cons_ok.mp rest
  have known : Known before earlier entry :=
    checked.known earlier _ later split entry (.inr member)
  have points : PointsTo next entry replacement :=
    pointsTo_of_retired applied rfl ⟨member, known.commit first⟩
  -- no later event of the buffer retires the source again
  have spared : ∀ payload ∈ later, entry ∉ supersededBy payload := by
    intro payload inLater taken
    obtain ⟨between, beyond, rfl⟩ := List.append_of_mem inLater
    have consolidated : entry ∈ supersededBy (.entriesConsolidated id sources replacement producedBy) :=
      member
    have once := checked.once (earlier ++ .entriesConsolidated id sources replacement producedBy ::
      between) payload beyond (by simp [split]) entry taken
    exact once (List.mem_flatMap.mpr ⟨_, by simp, consolidated⟩)
  refine commit_induction (motive := fun graph => PointsTo graph entry replacement) ?_ last points
  intro payload inLater one two applied points
  exact pointsTo_apply (checked.writes payload (by simp [split, inLater])) (spared payload inLater)
    applied points

theorem Checked.isLive_iff (checked : Checked before block)
    (done : commit recordedAt source block.buffer before = .ok after) :
    IsLive after entry ↔
      (IsLive before entry ∨ ∃ payload ∈ block.buffer, appended payload = some entry) ∧
        entry ∉ block.buffer.flatMap supersededBy := by
  have unemptied : ¬Emptied entry (before.standing entry) block.buffer := by
    refine not_emptied_of_unretracted fun payload member => ?_
    rw [retracts_nothing (checked.writes payload member)]
    exact nofun
  rw [isLive_commit_buffer_iff checked.known done]
  simp [unemptied]

theorem Checked.undoesNothing_iff (checked : Checked before block)
    (done : commit recordedAt source block.buffer before = .ok after) :
    UndoesNothing before block.buffer after ↔ Unovertaken before block.buffer := by
  have replaced : ∀ {sources replacement}, Consolidates block.buffer sources replacement →
      sources ≠ [] ∧ Known before block.buffer replacement := by
    rintro sources replacement ⟨id, producedBy, inBuffer⟩
    obtain ⟨earlier, later, split⟩ := List.append_of_mem inBuffer
    obtain ⟨nonempty, known⟩ := checked.replaced earlier _ later split sources replacement rfl
    exact ⟨nonempty, split ▸ known.append⟩
  constructor
  · intro undoes
    have replacements : ∀ sources replacement, Consolidates block.buffer sources replacement →
        IsLive before replacement ∨ ∃ payload ∈ block.buffer, appended payload = some replacement := by
      intro sources replacement consolidates
      obtain ⟨nonempty, known⟩ := replaced consolidates
      obtain ⟨one, member⟩ := List.exists_mem_of_ne_nil sources nonempty
      -- a replacement it knows is there or its own, and if there it is not dead
      have undead := undoes.dead one replacement
        ⟨⟨sources, consolidates, member⟩, checked.pointsTo done consolidates member⟩
      exact known.imp_left fun there => by_contra fun gone => undead ⟨there, gone⟩
    refine ⟨replacements, ?_⟩
    rintro sources replacement consolidates ⟨one, member, retracted⟩
    -- left in place, the replacement would be live with a retracted source behind it
    by_contra kept
    refine undoes.retracted one replacement
      ⟨⟨sources, consolidates, member⟩, checked.pointsTo done consolidates member⟩ retracted ?_
    exact (checked.isLive_iff done).mpr ⟨replacements sources replacement consolidates, kept⟩
  · intro unovertaken
    refine ⟨?_, ?_⟩
    · rintro one replacement ⟨⟨sources, consolidates, member⟩, _⟩ retracted live
      have taken := unovertaken.sources sources replacement consolidates ⟨one, member, retracted⟩
      exact ((checked.isLive_iff done).mp live).2 taken
    · rintro one replacement ⟨⟨sources, consolidates, _⟩, _⟩ ⟨there, gone⟩
      rcases unovertaken.replacements sources replacement consolidates with live | appends
      · exact gone live
      · obtain ⟨payload, member, appends⟩ := appends
        -- an entry it appended itself was not there to be dead
        rw [absent_of_buffered done member appends] at there
        cases there

end Committing

/-! ### Runs in which a sweep goes on -/

/-- The calls a sweep makes. -/
def isConsolidation : Operation → Bool
  | .consolidate .. | .consolidateInto .. => true
  | _ => false

/-- The moves of a run in which one slot is a sweep's: its blocks are the agent's, and
consolidate. The other slots, and the other writers, do as they like. -/
def SweepsAt (slot : Nat) (system : System) : System.Move → Prop
  | .open other block => other = slot → ∃ maxEntryChars, block = newBlock system.graph maxEntryChars
  | .call other _ op => other = slot → isConsolidation op = true
  | _ => True

section Runs

variable {slot : Nat} {system next : System} {block after : MemoryBlock} {graph : Graph}
variable {now recordedAt : Timestamp} {source : EventSource} {op : Operation}

theorem Checked.call (checked : Checked graph block) (consolidation : isConsolidation op = true)
    (ran : Calls graph block (now, op) after) : Checked graph after := by
  cases op with
  | consolidate fresh id sources text producedBy =>
    exact @Checked.retire ⟨graph, now⟩ _ _ _ _ _ (.synthesized fresh text) checked ran
  | consolidateInto id sources replacement producedBy =>
    exact @Checked.retire ⟨graph, now⟩ _ _ _ _ _ (.absorbed replacement) checked ran
  | _ => cases consolidation

theorem keeps_checked : Keeps (SweepsAt slot) (fun _ => True)
    (fun other graph block => other = slot → Checked graph block) where
  opens := fun _ _ _ _ empty _ => checked_empty empty
  calls := by
    intro system other now op block after permitted _ _ checked ran here
    exact (checked here).call (permitted here) ran
  moves := fun _ _ _ _ _ applied checked here => (checked here).apply applied
  folds := by intros; trivial
  appends := by intros; trivial

/-- However a sweep and the other blocks interleave from the empty graph on, the sweep's
commit undoes no correction exactly when none has overtaken its buffer. -/
theorem undoes_nothing_iff {moves : List System.Move}
    (run : Trace (fun one move other => System.Step one move other ∧ SweepsAt slot one move)
      { graph := Graph.fresh } moves system)
    (held : system.blocks slot = some block)
    (ends : System.Step system (.commit slot recordedAt source) next) (folds : next.stuck = false) :
    UndoesNothing system.graph block.buffer next.graph ↔ Unovertaken system.graph block.buffer := by
  have sound := keeps_checked.run run ⟨trivial, fun slot block held => nomatch held⟩
  have checked : Checked system.graph block := sound.blocks slot block held rfl
  cases ends with
  | commit held' =>
    cases held.symm.trans held'
    exact checked.undoesNothing_iff (System.append_unstuck folds)

end Runs

/-! Ines has told the agent in confidence when the launch is, and Jonas everyone. A sweep
absorbs the one line into the other while Ines takes hers back. -/

namespace Withdrawal

def launch : MemoryId := ⟨1⟩
def ines : Teller := .participant ⟨2⟩
def jonas : Teller := .participant ⟨3⟩
def confided : EntryId := ⟨11⟩
def told : EntryId := ⟨12⟩

def telling : List EventPayload :=
  [.memoryCreated launch ⟨"topic/launch"⟩,
    .memoryContentAppended launch confided ⟨0⟩ none "it is on Friday" ines none .privateToTeller,
    .memoryContentAppended launch told ⟨0⟩ none "it is on Friday" jonas none .public]

def written : System := ({ graph := Graph.fresh } : System).append ⟨0⟩ .agent telling

def sweep : MemoryBlock := newBlock written.graph 4000
def turn : MemoryBlock := .open written.graph ines .platform none none [] 4000

def absorbs : Operation := .consolidateInto launch [confided] told none
def withdraws : Operation := .retract launch confided "it is off" none

def absorbed : MemoryBlock := ((absorbs.run ⟨written.graph, ⟨1⟩⟩ sweep).toOption).getD sweep
def withdrawn : MemoryBlock := ((withdraws.run ⟨written.graph, ⟨1⟩⟩ turn).toOption).getD turn

def sweeping : System := written.put 0 (some sweep)
def absorbing : System := sweeping.put 0 (some absorbed)
def talking : System := absorbing.put 1 (some turn)
def withdrawing : System := talking.put 1 (some withdrawn)
def overtaken : System := (withdrawing.append ⟨2⟩ .agent withdrawn.buffer).put 1 none

/-- The system once the sweep has committed, too. -/
def ended (system : System) : System :=
  (system.append ⟨3⟩ .orchestration absorbed.buffer).put 0 none

def first : List System.Move :=
  [.append ⟨0⟩ .agent telling, .open 0 sweep, .call 0 ⟨1⟩ absorbs, .open 1 turn, .call 1 ⟨1⟩ withdraws]

/-- A run of the sweep beside other blocks. -/
abbrev Run (moves : List System.Move) (system : System) : Prop :=
  Trace (fun one move other => System.Step one move other ∧ SweepsAt 0 one move)
    { graph := Graph.fresh } moves system

theorem runs : Run first withdrawing := by
  have writes : System.Step { graph := Graph.fresh } (.append ⟨0⟩ .agent telling) written := .append
  have opens : System.Step written (.open 0 sweep) sweeping := .open rfl rfl
  have absorbs : System.Step sweeping (.call 0 ⟨1⟩ absorbs) absorbing := .call rfl rfl
  have joins : System.Step absorbing (.open 1 turn) talking := .open rfl rfl
  have withdraws : System.Step talking (.call 1 ⟨1⟩ withdraws) withdrawing := .call rfl rfl
  exact .cons ⟨writes, trivial⟩ (.cons ⟨opens, fun _ => ⟨4000, rfl⟩⟩ (.cons ⟨absorbs, fun _ => rfl⟩
    (.cons ⟨joins, nofun⟩ (.single ⟨withdraws, nofun⟩))))

theorem consolidates_iff {sources : List EntryId} {replacement : EntryId} :
    Consolidates absorbed.buffer sources replacement ↔
      sources = [confided] ∧ replacement = told := by
  have buffered : absorbed.buffer =
      [.entryAttested launch told ines none ⟨0⟩ .privateToTeller (some "it is on Friday")
          (some confided) none,
        .entriesConsolidated launch [confided] told none] := rfl
  constructor
  · rintro ⟨id, producedBy, member⟩
    obtain ⟨_, rfl, rfl, _⟩ := by simpa [buffered] using member
    exact ⟨rfl, rfl⟩
  · rintro ⟨rfl, rfl⟩
    exact ⟨launch, none, by simp [buffered]⟩

/-- Her turn commits first, and what she took back stands behind the line that is live. -/
theorem withdrawn_source :
    Run (first ++ [.commit 1 ⟨2⟩ .agent]) overtaken ∧ overtaken.blocks 0 = some absorbed ∧
      System.Step overtaken (.commit 0 ⟨3⟩ .orchestration) (ended overtaken) ∧
      (ended overtaken).stuck = false ∧
      ¬UndoesNothing overtaken.graph absorbed.buffer (ended overtaken).graph := by
  have commits : System.Step withdrawing (.commit 1 ⟨2⟩ .agent) overtaken := .commit rfl
  have earlier : overtaken.graph.entries.rows.map EntryRow.fate =
        [(confided, some confided, some "it is off"), (told, none, none)] := rfl
  have later : (ended overtaken).graph.entries.rows.map EntryRow.fate =
        [(confided, some told, some "it is off"), (told, none, none)] := rfl
  refine ⟨runs.append (.single ⟨commits, trivial⟩), rfl, .commit rfl, rfl, fun undoes => ?_⟩
  obtain ⟨row, member, same, _, reason⟩ := exists_row (earlier ▸ List.mem_cons_self)
  obtain ⟨source, sourceMem, sourceSame, points, _⟩ := exists_row (later ▸ List.mem_cons_self)
  obtain ⟨wide, wideMem, wideSame, live, _⟩ :=
    exists_row (later ▸ List.mem_cons_of_mem _ List.mem_cons_self)
  exact undoes.retracted confided told
    ⟨⟨[confided], consolidates_iff.mpr ⟨rfl, rfl⟩, List.mem_cons_self⟩, source, sourceMem, sourceSame, points⟩
    ⟨row, member, same, by simp [reason]⟩ ⟨wide, wideMem, wideSame, live⟩

/-- Had it committed after the sweep, nothing would be undone. -/
theorem undoes_nothing_iff_withdrawal :
    UndoesNothing withdrawing.graph absorbed.buffer (ended withdrawing).graph := by
  have rows : withdrawing.graph.entries.rows.map EntryRow.fate =
      [(confided, none, none), (told, none, none)] := rfl
  refine (undoes_nothing_iff runs rfl (.commit rfl) rfl).mpr ⟨?_, ?_⟩
  · intro sources replacement consolidates
    obtain ⟨rfl, rfl⟩ := consolidates_iff.mp consolidates
    obtain ⟨wide, member, same, live, _⟩ := exists_row (rows ▸ List.mem_cons_of_mem _ List.mem_cons_self)
    exact .inl ⟨wide, member, same, live⟩
  · rintro sources replacement _ ⟨source, _, row, member, _, retracted⟩
    have listed : row.fate ∈ withdrawing.graph.entries.rows.map EntryRow.fate :=
      List.mem_map_of_mem member
    rw [rows] at listed
    have unretracted : row.retractedReason = none := by
      rcases List.mem_cons.mp listed with first | listed
      · exact congrArg (·.2.2) first
      · exact congrArg (·.2.2) (List.mem_singleton.mp listed)
    rw [unretracted] at retracted
    cases retracted

end Withdrawal

end Zuihitsu.Consolidation
