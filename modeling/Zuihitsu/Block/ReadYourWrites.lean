/-
# What a block reads of its own writes, against the fold

The guards of a block read the committed entries of a class overlaid with the
block's buffer, and that overlay is a second, hand-written account of what the
fold does. The main result says exactly when the two agree: the overlay does not
know that an entry goes with its last endorsement, nor that nothing is read
through a deleted memory, and in everything else it is the fold.
-/

import Mathlib.Data.Set.Basic
import Zuihitsu.Block.Operations
import Zuihitsu.Block.Pending
import Zuihitsu.Library.Trace

namespace Zuihitsu

open Zuihitsu.Core Zuihitsu.Graph Zuihitsu.Library Zuihitsu.MemoryBlock

/-! ### Entries through a commit -/

/-- An event that withdraws the last endorsement of an entry, as they stand. -/
def Empties (entry : EntryId) (held : Teller → Option Visibility) : EventPayload → Prop
  | .attestationRetracted _ attested teller _ _ =>
    attested = entry ∧ ∀ other posture, held other = some posture → other = teller
  | _ => False

/-- Some event of a buffer withdraws the last endorsement an entry has by then. -/
def Emptied (entry : EntryId) (held : Teller → Option Visibility) (buffer : List EventPayload) :
    Prop :=
  ∃ earlier payload later, buffer = earlier ++ payload :: later ∧
    Empties entry (fun teller => earlier.foldl (heldAfter entry teller) (held teller)) payload

/-- What is recorded once about an entry. -/
structure Telling where
  memory : MemoryId
  toldBy : Teller
  visibility : Visibility
  text : String

/-- The part of an entry's row that no event changes. -/
def Graph.EntryRow.telling (row : EntryRow) : Telling :=
  ⟨row.memoryId, row.toldBy, row.visibility, row.text⟩

/-- What an event records about the entry it appends. -/
def tells : EventPayload → Option (EntryId × Telling)
  | .memoryContentAppended id entry _ _ text toldBy _ visibility =>
    some (entry, ⟨id, toldBy, visibility, text⟩)
  | _ => none

/-- A graph records this about an entry. -/
def Told (graph : Graph) (entry : EntryId) (telling : Telling) : Prop :=
  ∃ row ∈ graph.entries, row.entryId = entry ∧ row.telling = telling

section Entries

variable {event : Event} {before after : Graph} {entry : EntryId} {telling : Telling}
variable {held : Teller → Option Visibility} {payload : EventPayload}
variable {first second payloads : List EventPayload}
variable {recordedAt : Timestamp} {source : EventSource}

theorem retires_iff :
    Retires before entry payload ↔
      entry ∈ supersededBy payload ∨ Empties entry (before.standing entry) payload := by
  cases payload <;> simp [Retires, Empties, supersededBy, StandsAlone, eq_comm]

theorem not_emptied_nil : ¬Emptied entry held [] := by
  rintro ⟨earlier, payload, later, split, _⟩
  simp at split

theorem emptied_cons :
    Emptied entry held (payload :: payloads) ↔
      Empties entry held payload ∨
        Emptied entry (fun teller => heldAfter entry teller (held teller) payload) payloads := by
  constructor
  · rintro ⟨earlier, other, later, split, empties⟩
    cases earlier with
    | nil =>
      obtain ⟨rfl, _⟩ := List.cons.inj split
      exact .inl empties
    | cons head rest =>
      obtain ⟨rfl, rest'⟩ := List.cons.inj split
      exact .inr ⟨rest, other, later, rest', empties⟩
  · rintro (here | ⟨earlier, other, later, rfl, empties⟩)
    · exact ⟨[], payload, payloads, rfl, here⟩
    · exact ⟨payload :: earlier, other, later, rfl, empties⟩

theorem emptied_append :
    Emptied entry held (first ++ second) ↔
      Emptied entry held first ∨
        Emptied entry (fun teller => first.foldl (heldAfter entry teller) (held teller)) second := by
  induction first generalizing held with
  | nil => simp [not_emptied_nil]
  | cons payload rest ih =>
    simp only [List.cons_append, emptied_cons, ih, List.foldl_cons, or_assoc]

theorem not_emptied_of_unretracted
    (unretracted : ∀ payload ∈ payloads, retractedEntry payload ≠ some entry) :
    ¬Emptied entry held payloads := by
  rintro ⟨earlier, payload, later, rfl, empties⟩
  refine unretracted payload (by simp) ?_
  cases payload <;> first | exact empties.elim | exact congrArg some empties.1

theorem not_isLive_apply {event : Event} (there : before.entries.contains entry = true)
    (applied : apply event before = .ok after)
    (gone : IsLive before entry → Retires before entry event.payload) : ¬IsLive after entry := by
  intro lives
  rcases (isLive_apply_iff applied).mp lives with ⟨lived, kept⟩ | appends
  · exact kept (gone lived)
  · have absent := absent_of_appended applied appends
    rw [there] at absent
    cases absent

theorem not_isLive_commit (there : before.entries.contains entry = true)
    (dead : ¬IsLive before entry)
    (committed : commit recordedAt source payloads before = .ok after) : ¬IsLive after entry :=
  (commit_induction
    (motive := fun graph => graph.entries.contains entry = true ∧ ¬IsLive graph entry)
    (fun _ _ _ _ applied ⟨known, gone⟩ =>
      ⟨contains_entry_apply known applied,
        not_isLive_apply known applied fun lived => absurd lived gone⟩)
    committed ⟨there, dead⟩).2

theorem isLive_commit_iff (live : IsLive before entry)
    (committed : commit recordedAt source payloads before = .ok after) :
    IsLive after entry ↔
      entry ∉ payloads.flatMap supersededBy ∧ ¬Emptied entry (before.standing entry) payloads := by
  induction payloads generalizing before with
  | nil =>
    cases committed
    simp [live, not_emptied_nil]
  | cons payload rest ih =>
    obtain ⟨middle, applied, remaining⟩ := commit_cons_ok.mp committed
    have stands : middle.standing entry =
        fun teller => heldAfter entry teller (before.standing entry teller) payload :=
      funext fun _ => standing_apply applied
    rw [List.flatMap_cons, List.mem_append, emptied_cons, ← stands]
    have here := @retires_iff before entry payload
    by_cases retires : Retires before entry payload
    · have known : before.entries.contains entry = true := by
        obtain ⟨row, member, rfl, _⟩ := live
        exact Table.contains_of_mem member
      have dead : ¬IsLive middle entry := not_isLive_apply known applied fun _ => retires
      have stays : ¬IsLive after entry :=
        not_isLive_commit (contains_entry_apply known applied) dead remaining
      refine iff_of_false stays ?_
      rintro ⟨kept, unemptied⟩
      rcases here.mp retires with taken | empties
      · exact kept (.inl taken)
      · exact unemptied (.inl empties)
    · have lives : IsLive middle entry := (isLive_apply_iff applied).mpr (.inl ⟨live, retires⟩)
      rw [ih lives remaining]
      rw [here, not_or] at retires
      simp [retires.1, retires.2]

theorem Told.unique {other : Telling} (left : Told before entry telling)
    (right : Told before entry other) : telling = other := by
  obtain ⟨row, member, same, rfl⟩ := left
  obtain ⟨row', member', same', rfl⟩ := right
  exact congrArg EntryRow.telling (Table.eq_of_key_eq member member' (same.trans same'.symm))

theorem Told.contains (told : Told before entry telling) :
    before.entries.contains entry = true := by
  obtain ⟨row, member, rfl, _⟩ := told
  exact Table.contains_of_mem member

theorem entryChange_telling (row : EntryRow) :
    (entryChange event before row).telling = row.telling := by
  unfold entryChange
  split <;> (try split) <;> rfl

theorem Told.apply (told : Told before entry telling) (applied : apply event before = .ok after) :
    Told after entry telling := by
  obtain ⟨row, member, rfl, rfl⟩ := told
  exact ⟨_, (mem_entries_apply applied).mpr (.inl ⟨row, member, rfl⟩), entryChange_entryId row,
    entryChange_telling row⟩

theorem Told.commit (told : Told before entry telling)
    (committed : commit recordedAt source payloads before = .ok after) : Told after entry telling :=
  commit_induction (motive := fun graph => Told graph entry telling)
    (fun _ _ _ _ applied earlier => earlier.apply applied) committed told

theorem told_of_tells (applied : apply event before = .ok after)
    (recorded : tells event.payload = some (entry, telling)) : Told after entry telling := by
  unfold tells at recorded
  split at recorded
  · rename_i payload
    cases recorded
    obtain ⟨row, appends⟩ : ∃ row, appendedRow event before = some row := by
      simp only [appendedRow, payload]
      exact ⟨_, rfl⟩
    have stored := (mem_entries_apply applied).mpr (.inr appends)
    simp only [appendedRow, payload, Option.some.injEq] at appends
    subst appends
    exact ⟨_, stored, rfl, rfl⟩
  · cases recorded

theorem appended_of_tells (recorded : tells payload = some (entry, telling)) :
    appended payload = some entry := by
  cases payload <;> first | (cases recorded; rfl) | cases recorded

theorem exists_tells (appends : appended payload = some entry) :
    ∃ telling, tells payload = some (entry, telling) := by
  cases payload <;> first | (cases appends; exact ⟨_, rfl⟩) | cases appends

theorem told_of_mem (committed : Graph.commit recordedAt source payloads before = .ok after)
    (member : payload ∈ payloads) (recorded : tells payload = some (entry, telling)) :
    Told after entry telling := by
  obtain ⟨earlier, later, rfl⟩ := List.append_of_mem member
  obtain ⟨middle, _, rest⟩ := commit_append_ok.mp committed
  obtain ⟨next, applied, last⟩ := commit_cons_ok.mp rest
  exact (told_of_tells applied recorded).commit last

end Entries

/-! ### Buffers that name known entries -/

/-- An entry is in the graph, or recorded by an event waiting to fold. -/
def Known (graph : Graph) (waiting : List EventPayload) (entry : EntryId) : Prop :=
  graph.entries.contains entry = true ∨ ∃ payload ∈ waiting, appended payload = some entry

/-- Whatever a buffer retracts, supersedes or consolidates is known by then. -/
def RetiresKnown (graph : Graph) (buffer : List EventPayload) : Prop :=
  InOrder (fun earlier payload => ∀ entry,
    retractedEntry payload = some entry ∨ entry ∈ supersededBy payload → Known graph earlier entry)
    buffer

section Knowing

variable {graph before after committed : Graph} {block : MemoryBlock} {entry : EntryId}
variable {recordedAt : Timestamp} {source : EventSource} {payload : EventPayload}
variable {waiting more earlier later buffer : List EventPayload}

theorem Known.append (known : Known graph waiting entry) : Known graph (waiting ++ more) entry :=
  known.imp_right fun ⟨payload, member, appends⟩ => ⟨payload, List.mem_append_left _ member, appends⟩

theorem Known.apply {event : Event} (known : Known before waiting entry)
    (applied : Graph.apply event before = .ok after) : Known after waiting entry :=
  known.imp_left fun there => contains_entry_apply there applied

theorem Known.commit (known : Known graph waiting entry)
    (done : Graph.commit recordedAt source waiting graph = .ok committed) :
    committed.entries.contains entry = true := by
  rcases known with there | ⟨payload, member, appends⟩
  · exact contains_entry_commit there done
  · obtain ⟨telling, recorded⟩ := exists_tells appends
    exact (told_of_mem done member recorded).contains

theorem Known.of_commit (done : Graph.commit recordedAt source buffer graph = .ok committed)
    (there : committed.entries.contains entry = true) : Known graph buffer entry := by
  induction buffer generalizing graph with
  | nil =>
    cases done
    exact .inl there
  | cons payload rest ih =>
    obtain ⟨middle, applied, remaining⟩ := commit_cons_ok.mp done
    rcases ih remaining with inMiddle | ⟨other, member, appends⟩
    · obtain ⟨row, rowMem, rfl⟩ := Table.contains_iff.mp inMiddle
      rcases (mem_entries_apply applied).mp rowMem with ⟨old, oldMem, rfl⟩ | inserted
      · rw [entryChange_entryId]
        exact .inl (Table.contains_of_mem oldMem)
      · exact .inr ⟨payload, List.mem_cons_self, appendedRow_entryId inserted⟩
    · exact .inr ⟨other, List.mem_cons_of_mem _ member, appends⟩

theorem absent_of_buffered (done : Graph.commit recordedAt source buffer graph = .ok committed)
    (member : payload ∈ buffer) (appends : appended payload = some entry) :
    graph.entries.contains entry = false := by
  obtain ⟨earlier, later, rfl⟩ := List.append_of_mem member
  obtain ⟨before, first, rest⟩ := commit_append_ok.mp done
  obtain ⟨after, applied, _⟩ := commit_cons_ok.mp rest
  rw [← Bool.not_eq_true]
  intro there
  have absent : before.entries.contains entry = false := absent_of_appended applied appends
  rw [contains_entry_commit there first] at absent
  cases absent

theorem RetiresKnown.unnamed (known : RetiresKnown graph (earlier ++ payload :: later))
    (first : Graph.commit recordedAt source earlier graph = .ok before)
    (applied : apply ⟨before.head + 1, recordedAt, source, payload⟩ before = .ok after)
    (appends : appended payload = some entry) :
    ∀ other ∈ earlier, retractedEntry other ≠ some entry ∧ entry ∉ supersededBy other := by
  have absent : before.entries.contains entry = false := absent_of_appended applied appends
  intro other member
  have unknown : ∀ leading between, earlier = leading ++ other :: between →
      ¬Known graph leading entry := by
    rintro leading between rfl named
    rw [named.append.commit first] at absent
    cases absent
  obtain ⟨leading, between, split⟩ := List.append_of_mem member
  have here : earlier ++ payload :: later = leading ++ other :: (between ++ payload :: later) := by
    simp [split]
  exact ⟨fun retracts => unknown leading between split (known leading other _ here entry (.inl retracts)),
    fun taken => unknown leading between split (known leading other _ here entry (.inr taken))⟩

theorem isLive_commit_buffer_iff (known : RetiresKnown graph buffer)
    (done : Graph.commit recordedAt source buffer graph = .ok committed) :
    IsLive committed entry ↔
      (IsLive graph entry ∨ ∃ payload ∈ buffer, appended payload = some entry) ∧
        entry ∉ buffer.flatMap supersededBy ∧ ¬Emptied entry (graph.standing entry) buffer := by
  by_cases recorded : ∃ payload ∈ buffer, appended payload = some entry
  · obtain ⟨payload, member, appends⟩ := recorded
    obtain ⟨earlier, later, rfl⟩ := List.append_of_mem member
    obtain ⟨before, first, rest⟩ := commit_append_ok.mp done
    obtain ⟨after, applied, last⟩ := commit_cons_ok.mp rest
    have unnamed := known.unnamed first applied appends
    have quiet : entry ∉ earlier.flatMap supersededBy := by
      intro taken
      obtain ⟨other, inEarlier, taken⟩ := List.mem_flatMap.mp taken
      exact (unnamed other inEarlier).2 taken
    have unemptied : ∀ held, ¬Emptied entry held earlier := fun _ =>
      not_emptied_of_unretracted fun other inEarlier => (unnamed other inEarlier).1
    have spared : entry ∉ supersededBy payload := by
      cases payload <;> first | (cases appends; exact List.not_mem_nil) | cases appends
    have inert : ∀ held, ¬Empties entry held payload := by
      intro held
      cases payload <;> first | (cases appends; exact id) | cases appends
    have there : IsLive graph entry ∨
        ∃ other ∈ earlier ++ payload :: later, appended other = some entry :=
      .inr ⟨payload, member, appends⟩
    have stands : after.standing entry = fun teller => heldAfter entry teller
        (earlier.foldl (heldAfter entry teller) (graph.standing entry teller)) payload := by
      funext teller
      rw [standing_apply applied, standing_commit first]
    rw [isLive_commit_iff ((isLive_apply_iff applied).mpr (.inr appends)) last, emptied_append,
      emptied_cons, ← stands, and_iff_right there]
    simp only [List.flatMap_append, List.flatMap_cons, List.mem_append, quiet, spared, false_or,
      unemptied, inert]
  · by_cases live : IsLive graph entry
    · rw [isLive_commit_iff live done]
      simp [live]
    · refine iff_of_false ?_ (by simp [live, recorded])
      have through : IsLive committed entry → IsLive graph entry ∨
          ∃ payload ∈ buffer, appended payload = some entry := by
        refine commit_induction (motive := fun one => IsLive one entry → IsLive graph entry ∨
          ∃ payload ∈ buffer, appended payload = some entry) ?_ done .inl
        intro payload member one next applied earlier lives
        rcases (isLive_apply_iff applied).mp lives with ⟨lived, _⟩ | appends
        · exact earlier lived
        · exact .inr ⟨payload, member, appends⟩
      intro lives
      exact (through lives).elim live recorded

end Knowing

/-! ### What a block retires is known to it -/

section Calls

variable {graph : Graph} {block after : MemoryBlock} {id : MemoryId} {entry : EntryId}
variable {now : Timestamp} {events : List EventPayload}

theorem known_of_liveEntry {live : LiveEntry} (found : liveEntry graph block id entry = .ok live) :
    Known graph block.buffer entry := by
  obtain ⟨member, rfl⟩ := mem_of_liveEntry found
  rcases List.mem_append.mp member with stored | pending
  · obtain ⟨view, listed, rfl⟩ := List.mem_map.mp stored
    obtain ⟨row, rowMem, rfl⟩ := List.mem_map.mp (List.mem_filter.mp listed).1
    exact .inl (Table.contains_of_mem (mem_entryRowsWhere.mp rowMem).1)
  · obtain ⟨payload, inBuffer, read⟩ := List.mem_filterMap.mp pending
    exact .inr ⟨payload, inBuffer, appended_of_livePending read⟩

theorem RetiresKnown.quiet (known : RetiresKnown graph block.buffer)
    (buffers : Buffers block events after)
    (quiet : ∀ payload ∈ events, retractedEntry payload = none ∧ supersededBy payload = []) :
    RetiresKnown graph after.buffer := by
  refine known.buffers buffers (inOrder_of_forall fun payload member _ entry retires => ?_)
  rw [(quiet payload member).1, (quiet payload member).2] at retires
  rcases retires with retracts | taken
  · cases retracts
  · cases taken

theorem RetiresKnown.reads (known : RetiresKnown graph block.buffer)
    (buffers : Buffers block events after)
    (read : ∀ payload ∈ events, ∀ entry, retractedEntry payload = some entry ∨
      entry ∈ supersededBy payload → ∃ owner live, liveEntry graph block owner entry = .ok live) :
    RetiresKnown graph after.buffer := by
  refine known.buffers buffers (inOrder_of_forall fun payload member _ entry retires => ?_)
  obtain ⟨owner, live, found⟩ := read payload member entry retires
  exact (known_of_liveEntry found).append

theorem inlineVolatility_retires {opts : AppendOptions} :
    ∀ payload ∈ inlineVolatility id opts, retractedEntry payload = none ∧ supersededBy payload = [] :=
  forall_inlineVolatility fun _ => ⟨rfl, rfl⟩

theorem RetiresKnown.append (known : RetiresKnown graph block.buffer) {fresh : EntryId}
    {text : String} {opts : AppendOptions}
    (done : append ⟨graph, now⟩ fresh block id text opts = .ok after) :
    RetiresKnown graph after.buffer := by
  obtain ⟨_, _, _, _, rfl⟩ := append_ok done
  exact known.quiet buffers_pushAll (List.forall_mem_cons.mpr ⟨⟨rfl, rfl⟩, inlineVolatility_retires⟩)

theorem RetiresKnown.supersede (known : RetiresKnown graph block.buffer) {old new : EntryId}
    (done : supersede ⟨graph, now⟩ block id old new = .ok after) :
    RetiresKnown graph after.buffer := by
  obtain ⟨⟨live, found⟩, _, rfl⟩ := supersede_ok done
  refine known.reads buffers_pushAll fun payload member entry retires => ?_
  obtain rfl := List.mem_singleton.mp member
  obtain rfl : entry = old := by simpa [retractedEntry, supersededBy] using retires
  exact ⟨_, live, found⟩

theorem RetiresKnown.consolidate (known : RetiresKnown graph block.buffer) {fresh : EntryId}
    {sources : List EntryId} {text : String} {producedBy : Option ProducedBy}
    (done : consolidate ⟨graph, now⟩ fresh block id sources text producedBy = .ok after) :
    RetiresKnown graph after.buffer := by
  obtain ⟨toldBy, visibility, level, _, _, _, rfl⟩ := consolidate_ok done
  refine known.reads buffers_pushAll fun payload member entry retires => ?_
  rcases List.mem_cons.mp member with rfl | rest
  · simp [retractedEntry, supersededBy] at retires
  · rcases List.mem_append.mp rest with attested | last
    · obtain ⟨group, _, rfl⟩ := List.mem_map.mp attested
      simp [retractedEntry, supersededBy, SourceTeller.attestation] at retires
    · obtain rfl := List.mem_singleton.mp last
      have source : entry ∈ sources := by simpa [retractedEntry, supersededBy] using retires
      obtain ⟨live, found, _⟩ := level entry source
      exact ⟨_, live, found⟩

theorem RetiresKnown.consolidateInto (known : RetiresKnown graph block.buffer)
    {sources : List EntryId} {replacement : EntryId} {producedBy : Option ProducedBy}
    (done : consolidateInto ⟨graph, now⟩ block id sources replacement producedBy = .ok after) :
    RetiresKnown graph after.buffer := by
  obtain ⟨_, _, _, read, _, _, _, rfl⟩ := consolidateInto_ok done
  refine known.reads buffers_pushAll fun payload member entry retires => ?_
  rcases List.mem_append.mp member with attested | last
  · obtain ⟨group, _, rfl⟩ := List.mem_map.mp attested
    simp [retractedEntry, supersededBy, absorbingAttestation] at retires
  · obtain rfl := List.mem_singleton.mp last
    have source : entry ∈ sources := by simpa [retractedEntry, supersededBy] using retires
    obtain ⟨live, found⟩ := read entry source
    exact ⟨_, live, found⟩

theorem eq_of_retracts {payload : EventPayload} {other : EntryId}
    (retracts : retractedEntry payload = some entry) (taken : other ∈ supersededBy payload) :
    other = entry := by
  cases payload with
  | entryRetracted =>
    cases retracts
    exact List.mem_singleton.mp taken
  | attestationRetracted => cases taken
  | _ => cases retracts

theorem RetiresKnown.retracts (known : RetiresKnown graph block.buffer) {owner : MemoryId}
    {live : LiveEntry} (found : liveEntry graph block owner entry = .ok live)
    (extended : after = block.pushAll events)
    (named : ∀ event ∈ events, retractedEntry event = some entry) :
    RetiresKnown graph after.buffer := by
  subst extended
  refine known.reads buffers_pushAll fun payload member other retires => ?_
  rcases retires with retracts | taken
  · obtain rfl := Option.some.inj (retracts.symm.trans (named payload member))
    exact ⟨owner, live, found⟩
  · obtain rfl := eq_of_retracts (named payload member) taken
    exact ⟨owner, live, found⟩

theorem RetiresKnown.call (known : RetiresKnown graph block.buffer) {op : Operation}
    (ran : Calls graph block (now, op) after) : RetiresKnown graph after.buffer := by
  cases op with
  | supersede => exact known.supersede ran
  | revise =>
    obtain ⟨_, middle, first, second⟩ := revise_ok ran
    exact (known.append first).supersede second
  | retract =>
    obtain ⟨live, events, found, extended, named⟩ := retract_reads ran
    exact known.retracts found extended named
  | retractAttestation =>
    obtain ⟨live, events, found, extended, named⟩ := retractAttestation_reads ran
    exact known.retracts found extended named
  | consolidate => exact known.consolidate ran
  | consolidateInto => exact known.consolidateInto ran
  | _ =>
    -- the other operations buffer no event that retires
    obtain ⟨events, buffers, kinds⟩ := call_mayBuffer ran
    refine known.quiet buffers fun payload member => ?_
    have kind := kinds payload member
    cases payload with
    | memorySuperseded | entriesConsolidated | entryRetracted | attestationRetracted => cases kind
    | _ => exact ⟨rfl, rfl⟩

end Calls

/-! ### The two readings of a class -/

/-- What a reader learns of an entry: its teller, level and text, and who stands behind
it at which posture. -/
structure Reading where
  toldBy : Teller
  visibility : Visibility
  text : String
  held : Set (Teller × Visibility)

def MemoryBlock.LiveEntry.reading (entry : LiveEntry) : Reading :=
  ⟨entry.toldBy, entry.visibility, entry.text, {pair | pair ∈ entry.attestations}⟩

def Graph.EntryView.reading (entry : EntryView) : Reading :=
  ⟨entry.toldBy, entry.visibility, entry.text,
    {pair | ∃ view ∈ entry.attestations, view.teller = pair.1 ∧ view.posture = pair.2}⟩

/-- The live entries of a class as a block reads them, each with its id. -/
def liveReadings (graph : Graph) (block : MemoryBlock) (id : MemoryId) : Set (EntryId × Reading) :=
  {read | ∃ live ∈ liveClassEntries graph block id, (live.entryId, live.reading) = read}

/-- The live entries of a class as a graph has them, each with its id. -/
def classReadings (graph : Graph) (id : MemoryId) : Set (EntryId × Reading) :=
  {read | ∃ view ∈ graph.classEntries id, (view.entryId, view.reading) = read}

/-- What is recorded of an entry, with who stands behind it in a graph. -/
def Telling.readIn (telling : Telling) (graph : Graph) (entry : EntryId) : Reading :=
  ⟨telling.toldBy, telling.visibility, telling.text,
    {pair | graph.standing entry pair.1 = some pair.2}⟩

/-- A live entry of the graph or an append of the buffer, on a memory. -/
def ListedOn (graph : Graph) (buffer : List EventPayload) (entry : EntryId) (memory : MemoryId) :
    Prop :=
  (∃ row ∈ graph.entries, row.entryId = entry ∧ row.supersededBy = none ∧ row.memoryId = memory) ∨
    ∃ payload ∈ buffer, ∃ telling, tells payload = some (entry, telling) ∧ telling.memory = memory

/-- Where the overlay of a class is the fold. -/
structure OverlayFits (graph : Graph) (block : MemoryBlock) (id : MemoryId) : Prop where
  /-- No entry of the class that the block leaves in place loses its last endorsement. -/
  standing : ∀ entry memory, ListedOn graph block.buffer entry memory →
    graph.inClass id memory = true → entry ∉ pendingSuperseded block →
      ¬Emptied entry (graph.standing entry) block.buffer
  /-- Nothing the block leaves in place is appended to the memory when it is deleted. -/
  living : graph.liveRow id = none → ∀ payload ∈ block.buffer, ∀ entry telling,
    tells payload = some (entry, telling) → telling.memory = id → entry ∈ pendingSuperseded block

/-- The operations on the content of memories that are there. -/
def isContentCall : Operation → Bool
  | .create .. => false
  | op => writesContent op

section Overlay

variable {graph committed : Graph} {block : MemoryBlock} {id : MemoryId} {entry : EntryId}
variable {recordedAt : Timestamp} {source : EventSource} {reading : Reading}

theorem mem_classReadings :
    (entry, reading) ∈ classReadings graph id ↔
      IsLive graph entry ∧ ∃ telling, Told graph entry telling ∧
        graph.inClass id telling.memory = true ∧ telling.readIn graph entry = reading := by
  have same : ∀ row : EntryRow, (entryFromRow graph .live row).reading =
      row.telling.readIn graph row.entryId := by
    intro row
    simp only [EntryView.reading, Telling.readIn, Reading.mk.injEq]
    refine ⟨rfl, rfl, rfl, Set.ext fun pair => ?_⟩
    exact exists_live_attestation_iff
  constructor
  · rintro ⟨view, listed, read⟩
    obtain ⟨row, rowMem, rfl⟩ := List.mem_map.mp listed
    obtain ⟨stored, matching⟩ := mem_entryRowsWhere.mp rowMem
    rw [Bool.and_eq_true, Option.isNone_iff_eq_none] at matching
    obtain ⟨rfl, rfl⟩ := Prod.mk.inj read
    exact ⟨⟨row, stored, rfl, matching.2⟩, row.telling, ⟨row, stored, rfl, rfl⟩, matching.1,
      (same row).symm⟩
  · rintro ⟨⟨row, stored, rfl, live⟩, telling, ⟨other, otherStored, owner, rfl⟩, inClass, rfl⟩
    obtain rfl := Table.eq_of_key_eq otherStored stored owner
    refine ⟨entryFromRow graph .live other, List.mem_map_of_mem ?_, Prod.ext rfl (same other)⟩
    have inClass : graph.inClass id other.memoryId = true := inClass
    exact mem_entryRowsWhere.mpr ⟨stored, by simp [live, inClass]⟩

theorem reading_of_live {live : LiveEntry} {telling : Telling} (reachable : Reachable graph)
    (known : RetiresKnown graph block.buffer)
    (done : Graph.commit recordedAt source block.buffer graph = .ok committed)
    (listed : live ∈ liveClassEntries graph block id) (toldBy : live.toldBy = telling.toldBy)
    (visibility : live.visibility = telling.visibility) (text : live.text = telling.text) :
    live.reading = telling.readIn committed live.entryId := by
  have unnamed : ∀ earlier payload later, block.buffer = earlier ++ payload :: later →
      appended payload = some live.entryId →
        ∀ other ∈ earlier, retractedEntry other ≠ some live.entryId := by
    intro earlier payload later split appends other member
    rw [split] at done known
    obtain ⟨before, first, rest⟩ := commit_append_ok.mp done
    obtain ⟨after, applied, _⟩ := commit_cons_ok.mp rest
    exact (known.unnamed first applied appends other member).1
  have standing := listsStanding_of_live reachable done listed unnamed
  simp only [LiveEntry.reading, Telling.readIn, Reading.mk.injEq]
  exact ⟨toldBy, visibility, text, Set.ext fun pair => standing.stands pair.1 pair.2⟩

theorem listed_of_live {live : LiveEntry}
    (done : Graph.commit recordedAt source block.buffer graph = .ok committed)
    (listed : live ∈ liveClassEntries graph block id) :
    ∃ telling, Told committed live.entryId telling ∧ live.toldBy = telling.toldBy ∧
      live.visibility = telling.visibility ∧ live.text = telling.text ∧
      ((IsLive graph live.entryId ∧ graph.inClass id telling.memory = true) ∨
        (∃ payload ∈ block.buffer, tells payload = some (live.entryId, telling)) ∧
          (telling.memory = id ∨ graph.inClass id telling.memory = true)) := by
  rcases List.mem_append.mp listed with stored | pending
  · obtain ⟨view, inClass, rfl⟩ := List.mem_map.mp stored
    obtain ⟨row, rowMem, rfl⟩ := List.mem_map.mp (List.mem_filter.mp inClass).1
    obtain ⟨inEntries, matching⟩ := mem_entryRowsWhere.mp rowMem
    rw [Bool.and_eq_true, Option.isNone_iff_eq_none] at matching
    exact ⟨row.telling, Told.commit ⟨row, inEntries, rfl, rfl⟩ done, rfl, rfl, rfl,
      .inl ⟨⟨row, inEntries, rfl, matching.2⟩, matching.1⟩⟩
  · obtain ⟨payload, inBuffer, appends⟩ := List.mem_filterMap.mp pending
    unfold livePending at appends
    split at appends
    · split at appends
      · rename_i kept
        cases appends
        refine ⟨_, told_of_mem done inBuffer rfl, rfl, rfl, rfl, .inr ⟨⟨_, inBuffer, rfl⟩, ?_⟩⟩
        exact (List.mem_cons.mp kept.1).imp_right mem_classMembers.mp
      · cases appends
    · cases appends

theorem live_of_listed {telling : Telling}
    (done : Graph.commit recordedAt source block.buffer graph = .ok committed)
    (kept : entry ∉ pendingSuperseded block) (told : Told committed entry telling)
    (listed : (IsLive graph entry ∧ graph.inClass id telling.memory = true) ∨
      (∃ payload ∈ block.buffer, tells payload = some (entry, telling)) ∧
        (telling.memory = id ∨ graph.inClass id telling.memory = true)) :
    ∃ live ∈ liveClassEntries graph block id, live.entryId = entry ∧
      live.toldBy = telling.toldBy ∧ live.visibility = telling.visibility ∧
      live.text = telling.text := by
  rcases listed with ⟨⟨row, stored, rfl, live⟩, inClass⟩ | ⟨⟨payload, inBuffer, appends⟩, member⟩
  · have rowTold : Told committed row.entryId row.telling :=
      Told.commit ⟨row, stored, rfl, rfl⟩ done
    obtain rfl := told.unique rowTold
    refine ⟨liveCommitted block (entryFromRow graph .live row),
      List.mem_append_left _ (List.mem_map_of_mem (List.mem_filter.mpr ⟨?_, ?_⟩)), rfl, rfl, rfl,
      rfl⟩
    · refine List.mem_map_of_mem (mem_entryRowsWhere.mpr ⟨stored, ?_⟩)
      have inClass : graph.inClass id row.memoryId = true := inClass
      simp [inClass, live]
    · exact decide_eq_true kept
  · unfold tells at appends
    split at appends
    · rename_i owner entryId assertedAt occurredAt text toldBy toldIn visibility
      cases appends
      have owned : owner ∈ id :: graph.classMembers id :=
        List.mem_cons.mpr (member.imp_right mem_classMembers.mpr)
      let live : LiveEntry :=
        { entryId := entry, toldBy, visibility, text, toldIn, assertedAt
          attestations := foldPendingAttestations block entry [(toldBy, visibility)] }
      have listed : livePending block (id :: graph.classMembers id) (.memoryContentAppended owner
          entry assertedAt occurredAt text toldBy toldIn visibility) = some live := by
        simp only [livePending]
        exact if_pos ⟨owned, kept⟩
      exact ⟨live, List.mem_append_right _ (List.mem_filterMap.mpr ⟨_, inBuffer, listed⟩), rfl,
        rfl, rfl, rfl⟩
    · cases appends

theorem mem_liveReadings (reachable : Reachable graph) (known : RetiresKnown graph block.buffer)
    (done : Graph.commit recordedAt source block.buffer graph = .ok committed) :
    (entry, reading) ∈ liveReadings graph block id ↔
      entry ∉ pendingSuperseded block ∧ ∃ telling, Told committed entry telling ∧
        telling.readIn committed entry = reading ∧
        ((IsLive graph entry ∧ graph.inClass id telling.memory = true) ∨
          (∃ payload ∈ block.buffer, tells payload = some (entry, telling)) ∧
            (telling.memory = id ∨ graph.inClass id telling.memory = true)) := by
  constructor
  · rintro ⟨live, listed, same⟩
    obtain ⟨rfl, rfl⟩ := Prod.mk.inj same
    obtain ⟨telling, told, toldBy, visibility, text, source⟩ := listed_of_live done listed
    refine ⟨by simpa [pendingSuperseded] using not_superseded_of_live listed, telling, told, ?_, source⟩
    exact (reading_of_live reachable known done listed toldBy visibility text).symm
  · rintro ⟨kept, telling, told, rfl, listed⟩
    obtain ⟨live, member, rfl, toldBy, visibility, text⟩ := live_of_listed done kept told listed
    exact ⟨live, member,
      Prod.ext rfl (reading_of_live reachable known done member toldBy visibility text)⟩

theorem keepsClasses_of_mayBuffer {op : Operation} {payload : EventPayload}
    (content : isContentCall op = true) (kind : op.mayBuffer payload = true) :
    keepsClasses payload = true := by
  cases op with
  | append | appendDedup | supersede | revise | attest | retract | retractAttestation | consolidate
    | consolidateInto =>
    cases payload with
    | memoryCreated | memoryDeleted | linkCreated | linkRemoved | classPrimaryDesignated => cases kind
    | _ => rfl
  | _ => cases content

theorem contentCall_keepsClasses {call : Timestamp × Operation} {after : MemoryBlock}
    (content : isContentCall call.2 = true) (calls : Calls graph block call after) :
    ∃ events, Buffers block events after ∧ ∀ payload ∈ events, keepsClasses payload = true := by
  obtain ⟨events, buffers, kinds⟩ := call_mayBuffer calls
  exact ⟨events, buffers,
    fun payload member => keepsClasses_of_mayBuffer content (kinds payload member)⟩

/-- What a run of content operations leaves in the buffer: it retires what it knows, and
leaves the classes alone. -/
structure OfContent (graph : Graph) (block : MemoryBlock) : Prop where
  known : RetiresKnown graph block.buffer
  keeps : ∀ payload ∈ block.buffer, keepsClasses payload = true

theorem OfContent.call {call : Timestamp × Operation} {after : MemoryBlock}
    (earlier : OfContent graph block) (content : isContentCall call.2 = true)
    (calls : Calls graph block call after) : OfContent graph after := by
  refine ⟨earlier.known.call calls, ?_⟩
  obtain ⟨events, buffers, keeps⟩ := contentCall_keepsClasses content calls
  rw [buffers.buffer]
  exact List.forall_mem_append.mpr ⟨earlier.keeps, keeps⟩

theorem OfContent.inClass (content : OfContent graph block)
    (done : Graph.commit recordedAt source block.buffer graph = .ok committed) (memory : MemoryId) :
    committed.inClass id memory = graph.inClass id memory :=
  inClass_congr (fun other => classId_commit done content.keeps other) memory

theorem OfContent.fits_of_same (reachable : Reachable graph) (content : OfContent graph block)
    (done : Graph.commit recordedAt source block.buffer graph = .ok committed)
    (same : liveReadings graph block id = classReadings committed id) :
    OverlayFits graph block id := by
  refine ⟨fun entry memory listed inClass kept emptied => ?_, ?_⟩
  · have read : ∃ telling : Telling,
        (entry, telling.readIn committed entry) ∈ liveReadings graph block id := by
      rcases listed with ⟨row, stored, rfl, live, rfl⟩ | ⟨payload, member, telling, tells, rfl⟩
      · refine ⟨row.telling, (mem_liveReadings reachable content.known done).mpr ⟨kept, _, ?_, rfl, ?_⟩⟩
        · exact Told.commit ⟨row, stored, rfl, rfl⟩ done
        · exact .inl ⟨⟨row, stored, rfl, live⟩, inClass⟩
      · refine ⟨telling, (mem_liveReadings reachable content.known done).mpr ⟨kept, _, ?_, rfl, ?_⟩⟩
        · exact told_of_mem done member tells
        · exact .inr ⟨⟨payload, member, tells⟩, .inr inClass⟩
    obtain ⟨telling, read⟩ := read
    rw [same, mem_classReadings] at read
    exact ((isLive_commit_buffer_iff content.known done).mp read.1).2.2 emptied
  · rintro deleted payload member entry telling tells rfl
    by_contra kept
    have read : (entry, telling.readIn committed entry) ∈ liveReadings graph block telling.memory :=
      (mem_liveReadings reachable content.known done).mpr ⟨kept, telling,
        told_of_mem done member tells, rfl, .inr ⟨⟨payload, member, tells⟩, .inl rfl⟩⟩
    rw [same, mem_classReadings] at read
    obtain ⟨_, other, told, inClass, _⟩ := read
    obtain rfl := told.unique (told_of_mem done member tells)
    -- but nothing is in the class of a deleted memory
    rw [content.inClass done] at inClass
    have live := live_of_inClass inClass
    rw [deleted] at live
    cases live

theorem OfContent.same_of_fits (reachable : Reachable graph) (content : OfContent graph block)
    (done : Graph.commit recordedAt source block.buffer graph = .ok committed)
    (fits : OverlayFits graph block id) :
    liveReadings graph block id = classReadings committed id := by
  refine Set.ext fun ⟨entry, reading⟩ => ?_
  rw [mem_liveReadings reachable content.known done, mem_classReadings,
    isLive_commit_buffer_iff content.known done]
  simp only [content.inClass done]
  constructor
  · rintro ⟨kept, telling, told, rfl, listed⟩
    have inClass : graph.inClass id telling.memory = true := by
      rcases listed with ⟨_, inClass⟩ | ⟨⟨payload, member, tells⟩, rfl | inClass⟩
      · exact inClass
      · -- an append to the memory itself, which is not deleted
        cases live : graph.liveRow telling.memory with
        | none => exact absurd (fits.living live payload member entry telling tells rfl) kept
        | some => exact inClass_self (by simp [live])
      · exact inClass
    have isListed : ListedOn graph block.buffer entry telling.memory := by
      rcases listed with ⟨⟨row, stored, rfl, live⟩, _⟩ | ⟨⟨payload, member, tells⟩, _⟩
      · obtain rfl := told.unique (Told.commit ⟨row, stored, rfl, rfl⟩ done)
        exact .inl ⟨row, stored, rfl, live, rfl⟩
      · exact .inr ⟨payload, member, telling, tells, rfl⟩
    refine ⟨⟨?_, kept, fits.standing entry telling.memory isListed inClass kept⟩, telling, told,
      inClass, rfl⟩
    exact listed.imp (fun listed => listed.1)
      fun ⟨⟨payload, member, tells⟩, _⟩ => ⟨payload, member, appended_of_tells tells⟩
  · rintro ⟨⟨listed, kept, _⟩, telling, told, inClass, rfl⟩
    refine ⟨kept, telling, told, rfl, ?_⟩
    rcases listed with live | ⟨payload, member, appends⟩
    · exact .inl ⟨live, inClass⟩
    · obtain ⟨other, tells⟩ := exists_tells appends
      obtain rfl := told.unique (told_of_mem done member tells)
      exact .inr ⟨⟨payload, member, tells⟩, .inr inClass⟩

/-- After any sequence of content operations on any graph, what the block reads of a class
is what its buffer folds to exactly when no entry of the class that it leaves in place
loses its last endorsement on the way, and it leaves nothing appended to the memory when
that is deleted. -/
theorem overlay_is_fold_iff {graph committed : Graph} {block after : MemoryBlock}
    (reachable : Reachable graph) (opened : block.buffer = [])
    {calls : List (Timestamp × Operation)}
    (run : Trace (fun one call other => Calls graph one call other ∧ isContentCall call.2 = true)
      block calls after)
    {recordedAt : Timestamp} {source : EventSource}
    (done : Graph.commit recordedAt source after.buffer graph = .ok committed) (id : MemoryId) :
    liveReadings graph after id = classReadings committed id ↔ OverlayFits graph after id := by
  have start : OfContent graph block := by
    refine ⟨?_, ?_⟩
    · rw [opened]
      exact inOrder_nil
    · simp [opened]
  have content : OfContent graph after := run.invariant (OfContent graph)
    (fun _ _ _ ⟨calls, content⟩ earlier => earlier.call content calls) start
  exact ⟨content.fits_of_same reachable done, content.same_of_fits reachable done⟩

end Overlay

/-! Ines says when the launch is. A pass withdraws what she said in one block, and in
another one Jonas stands behind it. -/

namespace Launch

def launch : MemoryId := ⟨1⟩
def ines : Teller := .participant ⟨2⟩
def jonas : Teller := .participant ⟨3⟩
def friday : EntryId := ⟨11⟩

def telling : List EventPayload :=
  [.memoryCreated launch ⟨"topic/launch"⟩,
    .memoryContentAppended launch friday ⟨0⟩ none "it is on Friday" ines none .public]

def toldGraph : Graph := ((commit ⟨0⟩ .agent telling Graph.fresh).toOption).getD Graph.fresh

theorem toldGraph_reachable : Reachable toldGraph := by
  have committed : commit ⟨0⟩ .agent telling Graph.fresh = .ok toldGraph := rfl
  exact Reachable.fresh.commit committed

def opened : MemoryBlock := .open toldGraph .agent .agent none none [] 4000

def withdraws : Operation := .retractAttestation launch friday ines "she was wrong" none
def confirms : Operation :=
  .attest launch friday { toldBy := some jonas, visibility := some .public }

def left (op : Operation) : MemoryBlock := ((op.run ⟨toldGraph, ⟨1⟩⟩ opened).toOption).getD opened

def committed (op : Operation) : Graph :=
  ((commit ⟨1⟩ .orchestration (left op).buffer toldGraph).toOption).getD toldGraph

/-- The block still reads the entry it has taken the last endorsement of. -/
theorem emptied_entry_read :
    Reachable toldGraph ∧ opened.buffer = [] ∧
      Trace (fun one call other => Calls toldGraph one call other ∧ isContentCall call.2 = true)
        opened [(⟨1⟩, withdraws)] (left withdraws) ∧
      commit ⟨1⟩ .orchestration (left withdraws).buffer toldGraph = .ok (committed withdraws) ∧
      liveReadings toldGraph (left withdraws) launch ≠
        classReadings (committed withdraws) launch := by
  have calls : Calls toldGraph opened (⟨1⟩, withdraws) (left withdraws) := rfl
  refine ⟨toldGraph_reachable, rfl, .single ⟨calls, rfl⟩, rfl, fun same => ?_⟩
  have listed : (liveClassEntries toldGraph (left withdraws) launch).map (·.entryId) = [friday] := rfl
  have gone : (committed withdraws).classEntries launch = [] := rfl
  obtain ⟨live, member, _⟩ := List.mem_map.mp (listed ▸ List.mem_singleton.mpr rfl)
  have read : (live.entryId, live.reading) ∈ liveReadings toldGraph (left withdraws) launch :=
    ⟨live, member, rfl⟩
  rw [same] at read
  obtain ⟨view, listed, _⟩ := read
  rw [gone] at listed
  cases listed

theorem overlay_is_fold_iff_launch :
    liveReadings toldGraph (left confirms) launch = classReadings (committed confirms) launch := by
  have calls : Calls toldGraph opened (⟨1⟩, confirms) (left confirms) := rfl
  have done : commit ⟨1⟩ .orchestration (left confirms).buffer toldGraph = .ok (committed confirms) :=
    rfl
  refine (overlay_is_fold_iff toldGraph_reachable rfl (.single ⟨calls, rfl⟩) done launch).mpr ⟨?_, ?_⟩
  · intro entry memory _ _ _
    refine not_emptied_of_unretracted fun payload member => ?_
    have buffered : (left confirms).buffer =
        [.entryAttested launch friday jonas none ⟨1⟩ .public none none none] := rfl
    rw [buffered] at member
    obtain rfl := List.mem_singleton.mp member
    simp [retractedEntry]
  · intro deleted
    cases deleted

end Launch

end Zuihitsu
