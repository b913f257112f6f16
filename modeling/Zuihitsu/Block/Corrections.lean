/-
# What a corrected entry gives way to

A superseded or consolidated entry points to its successor, and a retracted one to
itself, with a reason. Following the pointers should end, at an entry that is live
or was retracted. One event keeps that exactly when the successor it names does not
itself lead back to an entry it retires. Nothing in the code checks this: the guards
ask for two live entries, and these may be one and the same; and between the guard
and the fold another block may have retired the successor into the very entry.
-/

import Zuihitsu.Block.Interleaving
import Zuihitsu.Block.Liveness
import Zuihitsu.Library.Chain

namespace Zuihitsu

open Zuihitsu.Core Zuihitsu.Graph Zuihitsu.Library Zuihitsu.MemoryBlock
open Relation

/-! ### Chains of successors -/

/-- An entry was withdrawn outright: it stands for itself, with a reason. -/
def Graph.EntryRow.Withdrawn (row : EntryRow) : Prop :=
  row.supersededBy = some row.entryId ∧ row.retractedReason.isSome = true

/-- An entry gave way to a successor. -/
def PointsTo (graph : Graph) (entry successor : EntryId) : Prop :=
  ∃ row ∈ graph.entries, row.entryId = entry ∧ row.supersededBy = some successor

/-- An entry is live, or was withdrawn outright. -/
def Settled (graph : Graph) (entry : EntryId) : Prop :=
  ∃ row ∈ graph.entries, row.entryId = entry ∧ (row.supersededBy = none ∨ row.Withdrawn)

/-- From every entry the successors lead to one that is live or was withdrawn. -/
def CorrectionsEnd (graph : Graph) : Prop :=
  ∀ row ∈ graph.entries, Ends (PointsTo graph) (Settled graph) row.entryId

/-- The entries an event retires into another one, and that one. -/
def replaces : EventPayload → Option (List EntryId × EntryId)
  | .memorySuperseded _ old new => some ([old], new)
  | .entriesConsolidated _ sources replacement _ => some (sources, replacement)
  | _ => none

/-- Entries may give way to a successor: it is there, and does not lead to one of them.
There is nothing to keep when none of them is there, or when the successor is one of
them that was retracted before. -/
def MayReplace (graph : Graph) (sources : List EntryId) (successor : EntryId) : Prop :=
  (graph.entries.contains successor = true ∧
    ∀ source ∈ sources, graph.entries.contains source = true →
      ¬ReflTransGen (PointsTo graph) successor source) ∨
  (∀ source ∈ sources, graph.entries.contains source = false) ∨
  successor ∈ sources ∧
    ∃ row ∈ graph.entries, row.entryId = successor ∧ row.retractedReason.isSome = true

section Chains

variable {graph before after : Graph} {event : Event} {sources : List EntryId}
variable {entry successor : EntryId} {row : EntryRow}

theorem pointsTo_unique (one two three : EntryId) (first : PointsTo graph one two)
    (second : PointsTo graph one three) : two = three := by
  obtain ⟨row, member, rfl, leads⟩ := first
  obtain ⟨other, otherMem, same, leads'⟩ := second
  obtain rfl := Table.eq_of_key_eq otherMem member same
  exact Option.some.inj (leads.symm.trans leads')

theorem settled_leads (one next : EntryId) (settled : Settled graph one)
    (leads : PointsTo graph one next) : next = one := by
  obtain ⟨row, member, rfl, live | withdrawn⟩ := settled
  · -- a live entry points nowhere
    obtain ⟨other, otherMem, same, leads⟩ := leads
    obtain rfl := Table.eq_of_key_eq otherMem member same
    rw [live] at leads
    cases leads
  · exact pointsTo_unique row.entryId next row.entryId leads ⟨row, member, rfl, withdrawn.1⟩

theorem contains_of_ends (ends : Ends (PointsTo graph) (Settled graph) entry) :
    graph.entries.contains entry = true := by
  rcases ends_iff.mp ends with ⟨row, member, rfl, _⟩ | ⟨_, ⟨row, member, rfl, _⟩, _⟩
  · exact Table.contains_of_mem member
  · exact Table.contains_of_mem member

theorem entryChange_replaced (retires : replaces event.payload = some (sources, successor)) :
    entryChange event before row =
      if row.entryId ∈ sources then { row with supersededBy := some successor } else row := by
  cases payload : event.payload with
  | memorySuperseded =>
    rw [payload] at retires
    cases retires
    simp only [entryChange, payload, List.mem_singleton]
  | entriesConsolidated =>
    rw [payload] at retires
    cases retires
    simp only [entryChange, payload]
  | _ =>
    rw [payload] at retires
    cases retires

theorem appended_of_replaces (retires : replaces event.payload = some (sources, successor)) :
    appendedRow event before = none := by
  cases payload : event.payload with
  | memoryContentAppended =>
    rw [payload] at retires
    cases retires
  | _ => simp only [appendedRow, payload]

theorem entryChange_unreplaced (other : replaces event.payload = none) :
    (entryChange event before row).Withdrawn ∨
      (entryChange event before row).supersededBy = row.supersededBy ∧
        (entryChange event before row).retractedReason = row.retractedReason := by
  cases payload : event.payload with
  | memorySuperseded | entriesConsolidated => simp [payload, replaces] at other
  | entryRetracted | attestationRetracted =>
    simp only [entryChange, payload]
    split
    · exact .inl ⟨rfl, rfl⟩
    · exact .inr ⟨rfl, rfl⟩
  | _ =>
    refine .inr ?_
    simp only [entryChange, payload]
    first
      | exact ⟨trivial, trivial⟩
      | (split <;> exact ⟨rfl, rfl⟩)

theorem CorrectionsEnd.unreplaced (ends : CorrectionsEnd before)
    (applied : apply event before = .ok after) (other : replaces event.payload = none) :
    CorrectionsEnd after := by
  intro row member
  rcases (mem_entries_apply applied).mp member with ⟨old, oldMem, rfl⟩ | appends
  · rw [entryChange_entryId]
    -- the entries the event withdraws are settled, and the others lead as they did
    have stored : ∀ one ∈ before.entries, entryChange event before one ∈ after.entries :=
      fun one oneMem => (mem_entries_apply applied).mpr (.inl ⟨one, oneMem, rfl⟩)
    let withdrawn (entry : EntryId) : Prop :=
      ∃ one ∈ before.entries, one.entryId = entry ∧ (entryChange event before one).Withdrawn
    refine @Ends.change _ _ _ _ _ withdrawn _ (ends old oldMem) ?_ ?_ ?_
    · rintro entry next kept ⟨one, oneMem, rfl, leads⟩
      refine ⟨_, stored one oneMem, entryChange_entryId one, ?_⟩
      rcases @entryChange_unreplaced before event one other with withdrawn | ⟨same, _⟩
      · exact absurd ⟨one, oneMem, rfl, withdrawn⟩ kept
      · exact same.trans leads
    · rintro entry kept ⟨one, oneMem, rfl, settled⟩
      refine ⟨_, stored one oneMem, entryChange_entryId one, ?_⟩
      rcases @entryChange_unreplaced before event one other with withdrawn | ⟨same, reason⟩
      · exact .inr withdrawn
      · refine settled.imp same.trans fun withdrawn => ?_
        exact ⟨by rw [same, entryChange_entryId, withdrawn.1], by rw [reason]; exact withdrawn.2⟩
    · rintro entry _ ⟨one, oneMem, rfl, withdrawn⟩
      exact ends_of_final ⟨_, stored one oneMem, entryChange_entryId one, .inr withdrawn⟩
  · exact ends_of_final ⟨row, member, rfl, .inl (appendedRow_live appends)⟩

end Chains

/-! ### Retiring entries into another -/

/-- An entry that an event retires: one of those it names that is there. -/
def IsRetired (graph : Graph) (sources : List EntryId) (entry : EntryId) : Prop :=
  entry ∈ sources ∧ graph.entries.contains entry = true

section Replacing

variable {before after : Graph} {event : Event} {sources : List EntryId}
variable {entry next successor : EntryId} {row : EntryRow}

theorem mem_entries_replaced (applied : apply event before = .ok after)
    (retires : replaces event.payload = some (sources, successor)) :
    row ∈ after.entries ↔ ∃ old ∈ before.entries, row = entryChange event before old := by
  rw [mem_entries_apply applied, appended_of_replaces retires]
  simp

theorem pointsTo_of_retired (applied : apply event before = .ok after)
    (retires : replaces event.payload = some (sources, successor))
    (retired : IsRetired before sources entry) : PointsTo after entry successor := by
  obtain ⟨inside, there⟩ := retired
  obtain ⟨row, member, rfl⟩ := Table.contains_iff.mp there
  refine ⟨_, (mem_entries_replaced applied retires).mpr ⟨row, member, rfl⟩, entryChange_entryId row, ?_⟩
  rw [entryChange_replaced retires, if_pos inside]

theorem mem_of_not_retired (applied : apply event before = .ok after)
    (retires : replaces event.payload = some (sources, successor)) (member : row ∈ before.entries)
    (kept : ¬IsRetired before sources row.entryId) : row ∈ after.entries := by
  have outside : row.entryId ∉ sources := fun inside => kept ⟨inside, Table.contains_of_mem member⟩
  refine (mem_entries_replaced applied retires).mpr ⟨row, member, ?_⟩
  rw [entryChange_replaced retires, if_neg outside]

theorem pointsTo_of_not_retired (applied : apply event before = .ok after)
    (retires : replaces event.payload = some (sources, successor))
    (kept : ¬IsRetired before sources entry) (leads : PointsTo before entry next) :
    PointsTo after entry next := by
  obtain ⟨row, member, rfl, points⟩ := leads
  exact ⟨row, mem_of_not_retired applied retires member kept, rfl, points⟩

theorem settled_of_not_retired (applied : apply event before = .ok after)
    (retires : replaces event.payload = some (sources, successor))
    (kept : ¬IsRetired before sources entry) (settled : Settled before entry) :
    Settled after entry := by
  obtain ⟨row, member, rfl, settled⟩ := settled
  exact ⟨row, mem_of_not_retired applied retires member kept, rfl, settled⟩

theorem settled_retired_iff (applied : apply event before = .ok after)
    (retires : replaces event.payload = some (sources, successor))
    (retired : IsRetired before sources entry) :
    Settled after entry ↔ entry = successor ∧
      ∃ row ∈ before.entries, row.entryId = successor ∧ row.retractedReason.isSome = true := by
  have changed : ∀ old : EntryRow, old.entryId = entry →
      entryChange event before old = { old with supersededBy := some successor } := by
    rintro old rfl
    rw [entryChange_replaced retires, if_pos retired.1]
  constructor
  · rintro ⟨row, member, same, settled⟩
    obtain ⟨old, oldMem, rfl⟩ := (mem_entries_replaced applied retires).mp member
    rw [entryChange_entryId] at same
    rw [changed old same] at settled
    -- retired, it points to the successor, so it is settled only as its own
    rcases settled with live | ⟨itself, reason⟩
    · cases live
    · have itself : successor = old.entryId := Option.some.inj itself
      exact ⟨same ▸ itself.symm, old, oldMem, itself.symm, reason⟩
  · rintro ⟨rfl, row, member, same, reason⟩
    refine ⟨_, (mem_entries_replaced applied retires).mpr ⟨row, member, rfl⟩,
      (entryChange_entryId row).trans same, .inr ?_⟩
    rw [changed row same]
    exact ⟨congrArg some same.symm, reason⟩

theorem ends_replaced (applied : apply event before = .ok after)
    (retires : replaces event.payload = some (sources, successor))
    (ends : Ends (PointsTo before) (Settled before) entry)
    (onward : ∀ one, ReflTransGen (PointsTo before) entry one → IsRetired before sources one →
      Ends (PointsTo after) (Settled after) successor) :
    Ends (PointsTo after) (Settled after) entry := by
  refine @Ends.change _ _ _ _ _ (IsRetired before sources) _ ends ?_ ?_ ?_
  · exact fun one next kept leads => pointsTo_of_not_retired applied retires kept leads
  · exact fun one kept settled => settled_of_not_retired applied retires kept settled
  · exact fun one chain retired =>
      (onward one chain retired).head (pointsTo_of_retired applied retires retired)

theorem CorrectionsEnd.replaced (ends : CorrectionsEnd before)
    (applied : apply event before = .ok after)
    (retires : replaces event.payload = some (sources, successor))
    (may : MayReplace before sources successor) : CorrectionsEnd after := by
  intro row member
  obtain ⟨old, oldMem, rfl⟩ := (mem_entries_replaced applied retires).mp member
  rw [entryChange_entryId]
  refine ends_replaced applied retires (ends old oldMem) fun one _ retired => ?_
  rcases may with ⟨there, avoids⟩ | absent | ⟨inside, other, otherMem, same, reason⟩
  · -- the successor's own chain meets none of the retired entries
    obtain ⟨row, member, rfl⟩ := Table.contains_iff.mp there
    exact ends_replaced applied retires (ends row member)
      fun two chain met => absurd chain (avoids two met.1 met.2)
  · -- nothing of what it names is there, so nothing is retired
    have there := retired.2
    rw [absent one retired.1] at there
    cases there
  · refine ends_of_final ((settled_retired_iff applied retires ⟨inside, ?_⟩).mpr
      ⟨rfl, other, otherMem, same, reason⟩)
    exact same ▸ Table.contains_of_mem otherMem

theorem mayReplace_of_correctionsEnd (ends : CorrectionsEnd after)
    (applied : apply event before = .ok after)
    (retires : replaces event.payload = some (sources, successor)) :
    MayReplace before sources successor := by
  by_cases again : successor ∈ sources ∧
      ∃ row ∈ before.entries, row.entryId = successor ∧ row.retractedReason.isSome = true
  · exact .inr (.inr again)
  by_cases any : ∃ source ∈ sources, before.entries.contains source = true
  · -- a retired entry is left pointing on
    have open' : ∀ one, IsRetired before sources one → ¬Settled after one := by
      intro one retired settled
      obtain ⟨rfl, reason⟩ := (settled_retired_iff applied retires retired).mp settled
      exact again ⟨retired.1, reason⟩
    have chainEnds : ∀ one, IsRetired before sources one → Ends (PointsTo after) (Settled after) one := by
      intro one retired
      obtain ⟨row, member, same, _⟩ := pointsTo_of_retired applied retires retired
      exact same ▸ ends row member
    refine .inl ⟨?_, fun source inside there chain => ?_⟩
    · obtain ⟨source, inside, there⟩ := any
      -- its chain ends, so the successor it points to is there
      have points := pointsTo_of_retired applied retires ⟨inside, there⟩
      rcases ends_iff.mp (chainEnds source ⟨inside, there⟩) with settled | ⟨next, onward, rest⟩
      · exact absurd settled (open' source ⟨inside, there⟩)
      · obtain rfl := pointsTo_unique source next successor onward points
        obtain ⟨row, member, rfl⟩ := Table.contains_iff.mp (contains_of_ends rest)
        obtain ⟨old, oldMem, rfl⟩ := (mem_entries_replaced applied retires).mp member
        rw [entryChange_entryId]
        exact Table.contains_of_mem oldMem
    · -- the successor leads back to an entry that now points to it
      obtain ⟨one, retired, back⟩ := @exists_changed _ _ (PointsTo after) (IsRetired before sources) _ _
        (fun one next kept leads => pointsTo_of_not_retired applied retires kept leads) chain
        ⟨inside, there⟩
      exact not_ends_of_cycle pointsTo_unique settled_leads
        (pointsTo_of_retired applied retires retired) back (open' one retired) (chainEnds one retired)
  · refine .inr (.inl fun source inside => ?_)
    rw [← Bool.not_eq_true]
    exact fun there => any ⟨source, inside, there⟩

end Replacing

theorem mayReplace_of_settled {graph : Graph} {sources : List EntryId} {successor : EntryId}
    (settled : Settled graph successor) (outside : successor ∉ sources) :
    MayReplace graph sources successor := by
  have stuck : ∀ one, ReflTransGen (PointsTo graph) successor one → one = successor := by
    intro one chain
    induction chain with
    | refl => rfl
    | tail _ next ih =>
      subst ih
      exact settled_leads _ _ settled next
  refine .inl ⟨contains_of_ends (ends_of_final settled), fun source inside _ chain => ?_⟩
  exact outside (stuck source chain ▸ inside)

/-! ### Buffers and runs -/

/-- An event finds the entries it retires free to give way to the successor it names. -/
def Corrects (graph : Graph) (payload : EventPayload) : Prop :=
  ∀ sources successor, replaces payload = some (sources, successor) →
    MayReplace graph sources successor

/-- Every event of a buffer does, as it folds. -/
def CorrectsAsFolded (recordedAt : Timestamp) (source : EventSource) (buffer : List EventPayload)
    (graph : Graph) : Prop :=
  InOrder (fun earlier payload => ∀ middle, commit recordedAt source earlier graph = .ok middle →
    Corrects middle payload) buffer

/-- The commits, and the appends of other writers, that find it so. -/
def System.Corrects (system : System) : System.Move → Prop
  | .commit slot recordedAt source => ∀ block, system.blocks slot = some block →
    CorrectsAsFolded recordedAt source block.buffer system.graph
  | .append recordedAt source payloads => CorrectsAsFolded recordedAt source payloads system.graph
  | _ => True

section Runs

variable {before after : Graph} {event : Event}

theorem correctionsEnd_apply_iff (ends : CorrectionsEnd before)
    (applied : apply event before = .ok after) :
    CorrectionsEnd after ↔ Corrects before event.payload := by
  constructor
  · intro endsAfter sources successor retires
    exact mayReplace_of_correctionsEnd endsAfter applied retires
  · intro corrects
    cases retires : replaces event.payload with
    | none => exact ends.unreplaced applied retires
    | some named => exact ends.replaced applied retires (corrects named.1 named.2 retires)

theorem CorrectionsEnd.folds {recordedAt : Timestamp} {source : EventSource}
    {buffer folded refused : List EventPayload} (ends : CorrectionsEnd before)
    (corrects : CorrectsAsFolded recordedAt source buffer before)
    (split : buffer = folded ++ refused)
    (committed : commit recordedAt source folded before = .ok after) : CorrectionsEnd after := by
  refine commit_inOrder split (fun earlier payload later here middle next first applied held => ?_)
    committed ends
  exact (correctionsEnd_apply_iff held applied).mpr (corrects earlier payload later here middle first)

theorem keeps_corrections : Keeps System.Corrects CorrectionsEnd (fun _ _ _ => True) where
  opens := fun _ _ _ _ _ => trivial
  calls := fun _ _ _ _ _ _ _ _ _ _ _ => trivial
  moves := fun _ _ _ _ _ _ _ => trivial
  folds := by
    intro system slot recordedAt source block folded refused after corrects held split committed ends _
    exact ends.folds (corrects block held) split committed
  appends := by
    intro system recordedAt source payloads folded refused after corrects split committed ends
    exact ends.folds corrects split committed

/-- From the empty graph on, as long as every event that folds finds the entries it retires
free to give way to their successor, following the successors from any entry ends at one
that is live or was retracted. -/
theorem corrections_end {moves : List System.Move} {system : System}
    (run : Trace (fun one move other => System.Step one move other ∧ one.Corrects move)
      { graph := Graph.fresh } moves system) : CorrectionsEnd system.graph := by
  refine (keeps_corrections.run run ⟨?_, ?_⟩).graph
  · intro row member
    cases member
  · intro slot block held
    cases held

end Runs

/-- What has become of an entry: its successor, and the reason it was withdrawn for. -/
def Graph.EntryRow.fate (row : EntryRow) : EntryId × Option EntryId × Option String :=
  (row.entryId, row.supersededBy, row.retractedReason)

theorem exists_row {graph : Graph} {entry : EntryId} {successor : Option EntryId}
    {reason : Option String}
    (listed : (entry, successor, reason) ∈ graph.entries.rows.map EntryRow.fate) :
    ∃ row ∈ graph.entries, row.entryId = entry ∧ row.supersededBy = successor ∧
      row.retractedReason = reason := by
  obtain ⟨row, member, found⟩ := List.mem_map.mp listed
  cases found
  exact ⟨row, member, rfl, rfl, rfl⟩

/-! Ines corrects herself in one turn. A slip names the same line on both sides. -/

namespace Slip

def launch : MemoryId := ⟨1⟩
def friday : EntryId := ⟨11⟩
def monday : EntryId := ⟨12⟩

def turn : MemoryBlock := .open Graph.fresh (.participant ⟨2⟩) .platform none none [] 4000

def tells : Operation :=
  .create launch friday ⟨"topic/launch"⟩ (some "it is on Friday") { visibility := some .public }

def adds : Operation := .append monday launch "it is on Monday" { visibility := some .public }
def corrects (successor : EntryId) : Operation := .supersede launch friday successor

def ran (block : MemoryBlock) (op : Operation) : MemoryBlock :=
  ((op.run ⟨Graph.fresh, ⟨1⟩⟩ block).toOption).getD block

def told : MemoryBlock := ran turn tells
def added : MemoryBlock := ran told adds
def corrected (successor : EntryId) : MemoryBlock := ran added (corrects successor)

def opened : System := { graph := Graph.fresh : System }.put 0 (some turn)
def telling : System := opened.put 0 (some told)
def adding : System := telling.put 0 (some added)
def correcting (successor : EntryId) : System := adding.put 0 (some (corrected successor))

def ended (successor : EntryId) : System :=
  ((correcting successor).append ⟨1⟩ .agent (corrected successor).buffer).put 0 none

def moves (successor : EntryId) : List System.Move :=
  [.open 0 turn, .call 0 ⟨1⟩ tells, .call 0 ⟨1⟩ adds, .call 0 ⟨1⟩ (corrects successor),
    .commit 0 ⟨1⟩ .agent]

theorem opens : System.Step { graph := Graph.fresh } (.open 0 turn) opened := .open rfl rfl
theorem tells_step : System.Step opened (.call 0 ⟨1⟩ tells) telling := .call rfl rfl
theorem adds_step : System.Step telling (.call 0 ⟨1⟩ adds) adding := .call rfl rfl

/-- An entry that supersedes itself is never followed by anything. -/
theorem self_superseded :
    Trace System.Step { graph := Graph.fresh } (moves friday) (ended friday) ∧
      ¬CorrectionsEnd (ended friday).graph := by
  have corrects : System.Step adding (.call 0 ⟨1⟩ (corrects friday)) (correcting friday) :=
    .call rfl rfl
  have commits : System.Step (correcting friday) (.commit 0 ⟨1⟩ .agent) (ended friday) := .commit rfl
  refine ⟨.cons opens (.cons tells_step (.cons adds_step (.cons corrects (.single commits)))), ?_⟩
  intro ends
  have rows : (ended friday).graph.entries.rows.map EntryRow.fate =
      [(friday, some friday, none), (monday, none, none)] := rfl
  obtain ⟨row, member, owner, points, reason⟩ := exists_row (rows ▸ List.mem_cons_self)
  have loop : PointsTo (ended friday).graph row.entryId row.entryId :=
    ⟨row, member, rfl, owner ▸ points⟩
  refine not_ends_of_cycle pointsTo_unique settled_leads loop .refl ?_ (ends row member)
  rintro ⟨other, otherMem, same, live | withdrawn⟩
  · obtain rfl := Table.eq_of_key_eq otherMem member same
    rw [points] at live
    cases live
  · obtain rfl := Table.eq_of_key_eq otherMem member same
    have withdrawn := withdrawn.2
    rw [reason] at withdrawn
    cases withdrawn

def foundGraph : Graph := ((commit ⟨1⟩ .agent added.buffer Graph.fresh).toOption).getD Graph.fresh

theorem monday_settled : Settled foundGraph monday := by
  have rows : foundGraph.entries.rows.map EntryRow.fate =
      [(friday, none, none), (monday, none, none)] := rfl
  obtain ⟨row, member, owner, live, _⟩ := exists_row (rows ▸ List.mem_cons_of_mem _ List.mem_cons_self)
  exact ⟨row, member, owner, .inl live⟩

/-- The correction she meant finds its successor live, and ends at it. -/
theorem corrections_end_slip : CorrectionsEnd (ended monday).graph := by
  have corrects : System.Step adding (.call 0 ⟨1⟩ (corrects monday)) (correcting monday) :=
    .call rfl rfl
  have commits : System.Step (correcting monday) (.commit 0 ⟨1⟩ .agent) (ended monday) := .commit rfl
  have buffered : (corrected monday).buffer = added.buffer ++ [.memorySuperseded launch friday monday] :=
    rfl
  have found : CorrectsAsFolded ⟨1⟩ .agent (corrected monday).buffer Graph.fresh := by
    rw [buffered]
    refine InOrder.append (inOrder_of_forall fun payload member earlier middle _ => ?_) ?_
    · have quiet : ∀ payload ∈ added.buffer, replaces payload = none := by decide
      intro sources successor retires
      rw [quiet payload member] at retires
      cases retires
    · intro earlier payload later split middle committed
      cases earlier with
      | nil =>
        obtain ⟨rfl, _⟩ := List.cons.inj split
        have folded : commit ⟨1⟩ .agent added.buffer Graph.fresh = .ok foundGraph := rfl
        rw [List.append_nil, folded] at committed
        cases committed
        intro sources successor retires
        cases retires
        exact mayReplace_of_settled monday_settled (by decide)
      | cons => simp at split
  have permitted : (correcting monday).Corrects (.commit 0 ⟨1⟩ .agent) := by
    intro block held
    cases held
    exact found
  exact corrections_end (.cons ⟨opens, trivial⟩ (.cons ⟨tells_step, trivial⟩
    (.cons ⟨adds_step, trivial⟩ (.cons ⟨corrects, trivial⟩ (.single ⟨commits, permitted⟩)))))

end Slip

end Zuihitsu
