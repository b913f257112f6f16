/-
# Stated and inferred dates

A date that came with an append counts as stated, and one that was resolved afterwards
as inferred. A stated date stands before every inferred one wherever a single date is
shown for a memory. A revision appends the successor of an entry, and when it is given no
date of its own it takes over the entry's: the fold of that append then counts the date
as stated, whether or not the one that was taken over did.

The main result follows a date back to the call that stated it, along runs in which no
revision takes over an inferred one.
-/

import Zuihitsu.Block.Interleaving
import Zuihitsu.Search.Blend

namespace Zuihitsu

open Zuihitsu.Core Zuihitsu.Graph Zuihitsu.Library Zuihitsu.MemoryBlock

/-! ### Where a date comes from -/

/-- Where the date of a recorded entry comes from: its caller, or the entry it replaces. -/
inductive DateOrigin where
  | stated
  | carried (source : EntryId) (authored : Bool)
  deriving DecidableEq

/-- The date a call records an entry with. -/
structure Dating where
  entry : EntryId
  occurredAt : TemporalRef
  origin : DateOrigin
  deriving DecidableEq

/-- The date was given by the caller, or taken over from an entry it counts as stated on. -/
def Dating.Founded (dating : Dating) : Prop := ∀ source, dating.origin ≠ .carried source false

namespace MemoryBlock

/-- Whether the date a revision finds on an entry counts as stated: that of an append of
this block will, and that of a committed entry where the fold has it so. -/
def entryOccurredAuthored (graph : Graph) (block : MemoryBlock) (id : MemoryId) (old : EntryId) :
    Bool :=
  match block.buffer.findSome? (pendingOccurredAt old) with
  | some occurredAt => occurredAt.isSome
  | none => ((graph.classHistory id).find? (·.entryId = old)).any (·.occurredAuthored)

/-- The date a revision records its entry with. -/
def revisionDating (graph : Graph) (block : MemoryBlock) (fresh : EntryId) (id : MemoryId)
    (old : EntryId) (opts : AppendOptions) : Option Dating :=
  match opts.occurredAt with
  | some occurredAt => some ⟨fresh, occurredAt, .stated⟩
  | none => (entryOccurredAt graph block id old).map fun occurredAt =>
    ⟨fresh, occurredAt, .carried old (entryOccurredAuthored graph block id old)⟩

/-- The date of an entry recorded with the options of its caller. -/
def statedDating (fresh : EntryId) (opts : AppendOptions) : Option Dating :=
  opts.occurredAt.map fun given => ⟨fresh, given, .stated⟩

/-- The date a call records its entry with, if it records one with a date. -/
def Operation.dating (graph : Graph) (block : MemoryBlock) : Operation → Option Dating
  | .create _ freshEntry _ (some _) opts => statedDating freshEntry opts
  | .append fresh _ _ opts => statedDating fresh opts
  | .appendDedup fresh id _ opts distinctFrom hits =>
    -- a captured append endorses the entry it duplicates
    match findDedupTarget graph block id distinctFrom (entryTeller opts block.teller) hits with
    | some _ => none
    | none => statedDating fresh opts
  | .revise fresh id old _ opts => revisionDating graph block fresh id old opts
  | _ => none

end MemoryBlock

/-- The entry an append records with a date, and the date. -/
def datedAppend : EventPayload → Option (EntryId × TemporalRef)
  | .memoryContentAppended _ entry _ occurredAt _ _ _ _ => occurredAt.map fun given => (entry, given)
  | _ => none

/-- Other writers date no entry they append. Extraction resolves dates afterwards. -/
def System.Move.Undated : System.Move → Prop
  | .append _ _ payloads => ∀ payload ∈ payloads, datedAppend payload = none
  | _ => True

section Calls

variable {graph : Graph} {block after : MemoryBlock} {now : Timestamp} {op : Operation}
variable {opts : AppendOptions} {fresh : EntryId} {text : String} {id : MemoryId}

/-- What a call buffers is dated as the call says. -/
def DatedBy (dating : Option Dating) (events : List EventPayload) : Prop :=
  ∀ payload ∈ events, ∀ entry given, datedAppend payload = some (entry, given) →
    ∃ origin, dating = some ⟨entry, given, origin⟩

theorem datedBy_of_undated {dating : Option Dating} {events : List EventPayload}
    (undated : ∀ payload ∈ events, datedAppend payload = none) : DatedBy dating events := by
  intro payload member entry given dated
  rw [undated payload member] at dated
  cases dated

theorem inlineVolatility_undated : ∀ payload ∈ inlineVolatility id opts, datedAppend payload = none :=
  forall_inlineVolatility fun _ => rfl

theorem append_datedBy {dating : Option Dating}
    (dates : ∀ given, opts.occurredAt = some given → ∃ origin, dating = some ⟨fresh, given, origin⟩)
    (done : append ⟨graph, now⟩ fresh block id text opts = .ok after) :
    ∃ events, Buffers block events after ∧ DatedBy dating events := by
  obtain ⟨_, _, _, _, rfl⟩ := append_ok done
  refine ⟨_, buffers_pushAll, List.forall_mem_cons.mpr ⟨?_, datedBy_of_undated inlineVolatility_undated⟩⟩
  intro entry given dated
  obtain ⟨occurredAt, found, pair⟩ := Option.map_eq_some_iff.mp dated
  cases pair
  exact dates _ found

theorem revise_append {old : EntryId}
    (done : revise ⟨graph, now⟩ fresh block id old text opts = .ok after) :
    ∃ appended, append ⟨graph, now⟩ fresh block id text
        { opts with occurredAt := opts.occurredAt.or (entryOccurredAt graph block id old) } =
          .ok appended ∧
      supersede ⟨graph, now⟩ appended id old fresh = .ok after := by
  simpa only [revise, bind_eq_ok] using done

theorem revisionDating_eq {old : EntryId} {given : TemporalRef}
    (dated : opts.occurredAt.or (entryOccurredAt graph block id old) = some given) :
    ∃ origin, revisionDating graph block fresh id old opts = some ⟨fresh, given, origin⟩ := by
  unfold revisionDating
  cases stated : opts.occurredAt with
  | some =>
    rw [stated, Option.some_or] at dated
    cases dated
    exact ⟨.stated, rfl⟩
  | none =>
    rw [stated, Option.none_or] at dated
    rw [dated]
    exact ⟨_, rfl⟩

theorem datedBy_nil {dating : Option Dating} : DatedBy dating [] := fun _ member => by cases member

theorem undated_of_mayBuffer {payload : EventPayload} (kind : op.mayBuffer payload = true)
    (other : ∀ id entry assertedAt occurredAt text toldBy toldIn visibility,
      op.mayBuffer (.memoryContentAppended id entry assertedAt occurredAt text toldBy toldIn
        visibility) = false) : datedAppend payload = none := by
  cases payload with
  | memoryContentAppended =>
    rw [other] at kind
    cases kind
  | _ => rfl

theorem datedBy_of_mayBuffer (calls : Calls graph block (now, op) after)
    (other : ∀ id entry assertedAt occurredAt text toldBy toldIn visibility,
      op.mayBuffer (.memoryContentAppended id entry assertedAt occurredAt text toldBy toldIn
        visibility) = false) :
    ∃ events, Buffers block events after ∧ DatedBy (op.dating graph block) events := by
  obtain ⟨events, buffers, kinds⟩ := call_mayBuffer calls
  exact ⟨events, buffers, datedBy_of_undated fun payload member =>
    undated_of_mayBuffer (kinds payload member) other⟩

theorem createWithOpts_content {freshMemory : MemoryId} {freshEntry : EntryId} {name : MemoryName}
    {content : Option String} {seed : EventPayload} {rest : List EventPayload}
    (done : createWithOpts ⟨graph, now⟩ freshMemory freshEntry block name content opts = .ok after)
    (buffers : Buffers block (.memoryCreated freshMemory name :: seed :: rest) after) :
    ∃ text, content = some text := by
  cases content with
  | some text => exact ⟨text, rfl⟩
  | none =>
    simp only [createWithOpts, bind_eq_ok, exists_const, refuseIf_ok] at done
    obtain ⟨_, done⟩ := done
    cases done
    have lengths := congrArg List.length buffers.buffer
    simp at lengths

theorem call_datedBy (calls : Calls graph block (now, op) after) :
    ∃ events, Buffers block events after ∧ DatedBy (op.dating graph block) events := by
  have given : ∀ {fresh : EntryId} {opts : AppendOptions} (occurredAt : TemporalRef),
      opts.occurredAt = some occurredAt →
        ∃ origin, statedDating fresh opts = some ⟨fresh, occurredAt, origin⟩ := by
    intro fresh opts occurredAt found
    exact ⟨.stated, by rw [statedDating, found, Option.map_some]⟩
  cases op with
  | create =>
    rcases (createWithOpts_ok calls).2 with empty | ⟨text, visibility, seeded⟩
    · exact ⟨_, empty, datedBy_of_undated (by simp [datedAppend])⟩
    · obtain ⟨text', rfl⟩ := createWithOpts_content calls seeded
      refine ⟨_, seeded, List.forall_mem_cons.mpr ⟨?_, List.forall_mem_cons.mpr ⟨?_, ?_⟩⟩⟩
      · intro entry occurredAt dated
        cases dated
      · intro entry occurredAt dated
        obtain ⟨_, found, pair⟩ := Option.map_eq_some_iff.mp dated
        cases pair
        exact given _ found
      · refine List.forall_mem_cons.mpr ⟨?_, datedBy_of_undated inlineVolatility_undated⟩
        intro entry occurredAt dated
        cases dated
  | append => exact append_datedBy given calls
  | appendDedup fresh id text opts distinctFrom hits =>
    have done : appendDedup ⟨graph, now⟩ fresh block id text opts distinctFrom hits = .ok after := calls
    unfold appendDedup at done
    cases captured : findDedupTarget graph block id distinctFrom (entryTeller opts block.teller) hits with
    | none =>
      rw [captured] at done
      refine append_datedBy (fun occurredAt found => ?_) done
      simpa only [Operation.dating, captured] using given occurredAt found
    | some =>
      rw [captured] at done
      simp only [corroborateAppend, bind_eq_ok, exists_const, refuseIf_ok] at done
      obtain ⟨_, _, _, _, _, recorded⟩ := done
      rcases (recordAttestation_ok recorded).2 with rfl | rfl
      · exact ⟨[], buffers_self, datedBy_nil⟩
      · exact ⟨_, buffers_pushAll, datedBy_of_undated (by simp [datedAppend])⟩
  | revise =>
    obtain ⟨appended, first, second⟩ := revise_append calls
    obtain ⟨events, buffers, dated⟩ := append_datedBy
      (fun occurredAt found => revisionDating_eq found) first
    obtain ⟨_, _, rfl⟩ := supersede_ok second
    exact ⟨_, buffers.trans buffers_pushAll, List.forall_mem_append.mpr
      ⟨dated, datedBy_of_undated (by simp [datedAppend])⟩⟩
  | consolidate =>
    obtain ⟨_, _, _, _, _, _, rfl⟩ := consolidate_ok calls
    -- a replacement is recorded without a date
    refine ⟨_, buffers_pushAll, datedBy_of_undated ?_⟩
    simp only [List.forall_mem_cons, List.forall_mem_append, List.forall_mem_map]
    exact ⟨rfl, fun _ _ => rfl, rfl, by simp⟩
  | _ => exact datedBy_of_mayBuffer calls fun _ _ _ _ _ _ _ _ => rfl

end Calls

/-! ### Dates followed back -/

/-- A date was stated, or taken over from an entry whose date was stated in turn. -/
inductive StatedAt (dated : Dating → Prop) : EntryId → TemporalRef → Prop
  | stated {entry : EntryId} {given : TemporalRef} (call : dated ⟨entry, given, .stated⟩) :
      StatedAt dated entry given
  | carried {entry source : EntryId} {given : TemporalRef}
      (call : dated ⟨entry, given, .carried source true⟩) (before : StatedAt dated source given) :
      StatedAt dated entry given

/-- The entries whose date counts as stated were dated by callers. -/
def EntriesStated (dated : Dating → Prop) (graph : Graph) : Prop :=
  ∀ row ∈ graph.entries, row.occurredAuthored = true →
    ∃ given, row.occurrence.occurredAt = some given ∧ StatedAt dated row.entryId given

/-- So will those of a buffer be. -/
def AppendsStated (dated : Dating → Prop) (buffer : List EventPayload) : Prop :=
  ∀ payload ∈ buffer, ∀ entry given, datedAppend payload = some (entry, given) →
    StatedAt dated entry given

section Following

variable {dated wider : Dating → Prop} {before after graph : Graph} {event : Event}
variable {block : MemoryBlock} {id : MemoryId} {old entry : EntryId} {given : TemporalRef}

theorem StatedAt.mono (widens : ∀ dating, dated dating → wider dating)
    (stated : StatedAt dated entry given) : StatedAt wider entry given := by
  induction stated with
  | stated call => exact .stated (widens _ call)
  | carried call _ ih => exact .carried (widens _ call) ih

theorem EntriesStated.mono (widens : ∀ dating, dated dating → wider dating)
    (stated : EntriesStated dated graph) : EntriesStated wider graph := by
  intro row member authored
  obtain ⟨given, occurs, stated⟩ := stated row member authored
  exact ⟨given, occurs, stated.mono widens⟩

theorem AppendsStated.mono {buffer : List EventPayload}
    (widens : ∀ dating, dated dating → wider dating) (stated : AppendsStated dated buffer) :
    AppendsStated wider buffer :=
  fun payload member entry given dates => (stated payload member entry given dates).mono widens

theorem entryChange_authored {row : EntryRow}
    (authored : (entryChange event before row).occurredAuthored = true) :
    row.occurredAuthored = true ∧ (entryChange event before row).occurrence = row.occurrence := by
  cases payload : event.payload with
  | entryTemporalResolved memory resolved occurredAt producedBy =>
    -- a resolved date counts as inferred
    simp only [entryChange, payload] at authored ⊢
    split at authored
    · cases authored
    · rename_i other
      exact ⟨authored, by rw [if_neg other]⟩
  | _ =>
    have kept : (entryChange event before row).occurredAuthored = row.occurredAuthored ∧
        (entryChange event before row).occurrence = row.occurrence := by
      simp only [entryChange, payload]
      first
        | exact ⟨trivial, trivial⟩
        | (split <;> exact ⟨rfl, rfl⟩)
    exact ⟨kept.1 ▸ authored, kept.2⟩

theorem EntriesStated.apply (stated : EntriesStated dated before)
    (applied : Graph.apply event before = .ok after)
    (appends : ∀ entry given, datedAppend event.payload = some (entry, given) →
      StatedAt dated entry given) : EntriesStated dated after := by
  intro row member authored
  rcases (mem_entries_apply applied).mp member with ⟨old, oldMem, rfl⟩ | appended
  · obtain ⟨before', occurrence⟩ := entryChange_authored authored
    rw [entryChange_entryId, occurrence]
    exact stated old oldMem before'
  · unfold appendedRow at appended
    split at appended
    · rename_i id entryId assertedAt occurredAt text toldBy toldIn visibility payload
      cases appended
      obtain ⟨given, occurs⟩ := Option.isSome_iff_exists.mp authored
      refine ⟨given, occurs, appends _ _ ?_⟩
      rw [payload]
      exact congrArg (Option.map fun given => (entryId, given)) occurs
    · cases appended

theorem EntriesStated.commit {recordedAt : Timestamp} {source : EventSource}
    {payloads : List EventPayload} (stated : EntriesStated dated before)
    (appends : AppendsStated dated payloads)
    (committed : Graph.commit recordedAt source payloads before = .ok after) :
    EntriesStated dated after :=
  commit_induction (motive := EntriesStated dated)
    (fun payload member _ _ applied held => held.apply applied (appends payload member))
    committed stated

theorem carried_stated (graphStated : EntriesStated dated graph)
    (blockStated : AppendsStated dated block.buffer)
    (occurs : entryOccurredAt graph block id old = some given)
    (authored : entryOccurredAuthored graph block id old = true) : StatedAt dated old given := by
  unfold entryOccurredAt at occurs
  unfold entryOccurredAuthored at authored
  cases pending : block.buffer.findSome? (pendingOccurredAt old) with
  | some occurredAt =>
    rw [pending] at occurs
    obtain ⟨payload, member, found⟩ := List.exists_of_findSome?_eq_some pending
    -- the entry was appended in this block, under that date
    refine blockStated payload member old given ?_
    cases payload with
    | memoryContentAppended id appended assertedAt occurredAt' text toldBy toldIn visibility =>
      simp only [pendingOccurredAt] at found
      split at found
      · rename_i same
        cases found
        rw [same]
        exact congrArg (Option.map fun given => (old, given)) occurs
      · cases found
    | _ => cases found
  | none =>
    rw [pending] at occurs authored
    obtain ⟨view, found, carries⟩ := Option.bind_eq_some_iff.mp occurs
    rw [found] at authored
    obtain ⟨row, member, rfl⟩ := List.mem_map.mp (List.mem_of_find?_eq_some found)
    have named := List.find?_some found
    have same : row.entryId = old := of_decide_eq_true named
    obtain ⟨given', occurs', stated⟩ := graphStated row (mem_entryRowsWhere.mp member).1 authored
    have agree : given' = given := Option.some.inj (occurs'.symm.trans carries)
    rw [← same, ← agree]
    exact stated

theorem EntriesStated.appends_call {now : Timestamp} {op : Operation} {block' : MemoryBlock}
    (graphStated : EntriesStated dated graph) (blockStated : AppendsStated dated block.buffer)
    (calls : Calls graph block (now, op) block')
    (recorded : ∀ dating, op.dating graph block = some dating → dated dating ∧ dating.Founded) :
    AppendsStated dated block'.buffer := by
  obtain ⟨events, buffers, datedBy⟩ := call_datedBy calls
  rw [buffers.buffer]
  refine List.forall_mem_append.mpr ⟨blockStated, fun payload member entry given dates => ?_⟩
  obtain ⟨origin, dating⟩ := datedBy payload member entry given dates
  obtain ⟨call, founded⟩ := recorded _ dating
  cases origin with
  | stated => exact .stated call
  | carried source authored =>
    cases authored with
    | false => exact absurd rfl (founded source)
    | true =>
      refine .carried call ?_
      -- only a revision takes a date over
      cases op with
      | revise fresh id old text opts =>
        have dating : revisionDating graph block fresh id old opts = _ := dating
        unfold revisionDating at dating
        split at dating
        · cases dating
        · obtain ⟨occurredAt, occurs, found⟩ := Option.map_eq_some_iff.mp dating
          simp only [Dating.mk.injEq, DateOrigin.carried.injEq] at found
          obtain ⟨_, rfl, rfl, authored⟩ := found
          exact carried_stated graphStated blockStated occurs authored
      | create freshMemory freshEntry name content opts =>
        cases content with
        | none => cases dating
        | some =>
          obtain ⟨_, _, found⟩ := Option.map_eq_some_iff.mp dating
          cases found
      | append =>
        obtain ⟨_, _, found⟩ := Option.map_eq_some_iff.mp dating
        cases found
      | appendDedup =>
        unfold Operation.dating at dating
        dsimp only at dating
        split at dating
        · cases dating
        · obtain ⟨_, _, found⟩ := Option.map_eq_some_iff.mp dating
          cases found
      | _ => cases dating

end Following

/-! ### Runs -/

/-- A run took a call that recorded an entry with a date. -/
def Dates (moves : List System.Move) (system : System) (dating : Dating) : Prop :=
  ∃ one slot now op two block,
    Trace.Takes System.Step { graph := Graph.fresh } moves system one (.call slot now op) two ∧
      one.blocks slot = some block ∧ op.dating one.graph block = some dating

/-- No date that counts as stated was inferred: of the entries themselves, and of the one date
a link or a hit carries for a memory, where an entry that is read has a date that counts as
stated. -/
structure DatesStated (dated : Dating → Prop) (graph : Graph) : Prop where
  entries : EntriesStated dated graph
  links : ∀ presentSet memory given, latestDatedOccurrence graph memory presentSet = some given →
    (∃ entry ∈ graph.classEntries memory.id, datesFor graph presentSet memory entry = true ∧
      entry.occurredAuthored = true ∧ entry.occurredAt.isSome = true) →
    ∃ entry ∈ graph.classEntries memory.id, datesFor graph presentSet memory entry = true ∧
      entry.occurredAt = some given ∧ StatedAt dated entry.entryId given
  hits : ∀ presentSet memory given assertedAt,
    Search.visibleOccurrence graph presentSet memory = some (given, assertedAt) →
    (∃ entry ∈ graph.classEntries memory.id, entryShown graph presentSet memory entry = true ∧
      entry.occurredAuthored = true ∧ entry.occurredAt.isSome = true) →
    ∃ entry ∈ graph.classEntries memory.id, entryShown graph presentSet memory entry = true ∧
      entry.occurredAt = some given ∧ StatedAt dated entry.entryId given

section Runs

variable {dated : Dating → Prop} {graph : Graph} {moves : List System.Move} {system : System}

theorem EntriesStated.entry (stated : EntriesStated dated graph) {id : MemoryId} {entry : EntryView}
    (member : entry ∈ graph.classEntries id) (authored : entry.occurredAuthored = true)
    {given : TemporalRef} (occurs : entry.occurredAt = some given) :
    StatedAt dated entry.entryId given := by
  obtain ⟨row, rowMem, rfl⟩ := List.mem_map.mp member
  obtain ⟨given', occurs', dates⟩ := stated row (mem_entryRowsWhere.mp rowMem).1 authored
  have agree : given' = given := Option.some.inj (occurs'.symm.trans occurs)
  exact agree ▸ dates

theorem datesStated_of_entries (stated : EntriesStated dated graph) : DatesStated dated graph where
  entries := stated
  links := by
    intro presentSet memory given found reads
    obtain ⟨entry, member, shown, authored, occurredAt, occurs, rfl⟩ :=
      freshestOccurrence_authored found reads
    exact ⟨entry, member, shown, occurs, stated.entry member authored occurs⟩
  hits := by
    intro presentSet memory given assertedAt found reads
    obtain ⟨entry, member, shown, authored, occurredAt, occurs, carries⟩ :=
      freshestOccurrence_authored found reads
    cases carries
    exact ⟨entry, member, shown, occurs, stated.entry member authored occurs⟩

theorem Dates.append {more : List System.Move} {last : System} {dating : Dating}
    (dates : Dates moves system dating) (rest : Trace System.Step system more last) :
    Dates (moves ++ more) last dating := by
  obtain ⟨one, slot, now, op, two, block, takes, held, dating'⟩ := dates
  exact ⟨one, slot, now, op, two, block, takes.append rest, held, dating'⟩

/-- The graph's entries and the open blocks' appends were dated by callers. -/
def RunStated (moves : List System.Move) (system : System) : Prop :=
  EntriesStated (Dates moves system) system.graph ∧
    ∀ slot block, system.blocks slot = some block →
      AppendsStated (Dates moves system) block.buffer

theorem RunStated.step {before after : System} {move : System.Move}
    (run : Trace System.Step { graph := Graph.fresh } moves before) (stated : RunStated moves before)
    (step : System.Step before move after) (undated : move.Undated)
    (founded : ∀ dating, Dates (moves ++ [move]) after dating → dating.Founded) :
    RunStated (moves ++ [move]) after := by
  have widens : ∀ dating, Dates moves before dating → Dates (moves ++ [move]) after dating :=
    fun dating dates => dates.append (.single step)
  have graphStated := stated.1.mono widens
  have blocksStated : ∀ slot block, before.blocks slot = some block →
      AppendsStated (Dates (moves ++ [move]) after) block.buffer :=
    fun slot block held => (stated.2 slot block held).mono widens
  cases step with
  | «open» free empty =>
    refine ⟨graphStated, fun slot block found => ?_⟩
    rcases System.put_blocks found with ⟨rfl, here⟩ | there
    · cases here
      rw [empty]
      intro payload member
      cases member
    · exact blocksStated slot block there
  | @call slot now op block after held ran =>
    refine ⟨graphStated, fun other block' found => ?_⟩
    rcases System.put_blocks found with ⟨rfl, here⟩ | there
    · cases here
      -- the call is on record with its date
      refine graphStated.appends_call (blocksStated _ _ held) ran fun dating dates => ?_
      have recorded : Dates (moves ++ [_]) _ dating :=
        ⟨before, _, now, op, _, block, .last run (.call held ran), held, dates⟩
      exact ⟨recorded, founded dating recorded⟩
    · exact blocksStated other block' there
  | @commit slot recordedAt source block held =>
    obtain ⟨folded, refused, split, committed⟩ := before.append_spec recordedAt source block.buffer
    refine ⟨graphStated.commit (fun payload member => blocksStated _ _ held payload ?_) committed, ?_⟩
    · exact split ▸ List.mem_append_left _ member
    intro other block' found
    rcases System.put_blocks found with ⟨_, here⟩ | there
    · cases here
    · rw [System.append_blocks] at there
      exact blocksStated other block' there
  | drop =>
    refine ⟨graphStated, fun slot block found => ?_⟩
    rcases System.put_blocks found with ⟨_, here⟩ | there
    · cases here
    · exact blocksStated slot block there
  | @append recordedAt source payloads =>
    obtain ⟨folded, refused, rfl, committed⟩ := before.append_spec recordedAt source payloads
    refine ⟨graphStated.commit (fun payload member entry given dates => ?_) committed, ?_⟩
    · rw [undated payload (List.mem_append_left _ member)] at dates
      cases dates
    · intro slot block found
      rw [System.append_blocks] at found
      exact blocksStated slot block found

theorem runStated_fresh : RunStated [] { graph := Graph.fresh } := by
  refine ⟨fun row member => ?_, fun slot block held => ?_⟩
  · cases member
  · cases held

/-- As long as no revision takes over a date that was inferred, every date that counts as
stated leads back to a call that stated it, and no inferred one stands before it. -/
theorem inferred_dates_stay
    (run : Trace (fun one move other => System.Step one move other ∧ move.Undated)
      { graph := Graph.fresh } moves system)
    (founded : ∀ dating, Dates moves system dating → dating.Founded) :
    DatesStated (Dates moves system) system.graph := by
  have stated : (∀ dating, Dates moves system dating → dating.Founded) → RunStated moves system := by
    refine run.history (fun taken one =>
      (∀ dating, Dates taken one dating → dating.Founded) → RunStated taken one) ?_ ?_
    · intro _
      exact runStated_fresh
    · intro taken one move other before ⟨step, undated⟩ ih founded
      have leading := before.mono fun _ _ _ => And.left
      have earlier := ih fun dating dates => founded dating (dates.append (.single step))
      exact earlier.step leading step undated founded
  exact datesStated_of_entries (stated founded).1

end Runs

/-! Mara tells of a trip and corrects herself once the date has been worked out, or states
the date herself. -/

namespace Trip

def trip : MemoryId := ⟨1⟩
def told : EntryId := ⟨11⟩
def corrected : EntryId := ⟨12⟩
def weekend : TemporalRef := .day ⟨"2026-05-02", some 1777680000000⟩

def turn : MemoryBlock := .open Graph.fresh (.participant ⟨2⟩) .platform none none [] 4000

def tells (given : Option TemporalRef) : Operation :=
  .create trip told ⟨"topic/trip"⟩ (some "the trip is that weekend")
    { visibility := some .public, occurredAt := given }

def corrects : Operation :=
  .revise corrected trip told "the trip is that weekend, by train" { visibility := some .public }

def ran (graph : Graph) (op : Operation) : MemoryBlock :=
  ((op.run ⟨graph, ⟨1⟩⟩ turn).toOption).getD turn

/-- The pass between the turns works the date out when it was left open. -/
def pass (given : Option TemporalRef) : List EventPayload :=
  if given.isSome then [.describePassCompleted [trip]]
  else [.entryTemporalResolved trip told (some weekend) none]

def opened : System := { graph := Graph.fresh : System }.put 0 (some turn)

def telling (given : Option TemporalRef) : System :=
  opened.put 0 (some (ran Graph.fresh (tells given)))

def recorded (given : Option TemporalRef) : System :=
  ((telling given).append ⟨1⟩ .agent (ran Graph.fresh (tells given)).buffer).put 0 none

def described (given : Option TemporalRef) : System :=
  (recorded given).append ⟨2⟩ .agent (pass given)

def reopened (given : Option TemporalRef) : System := (described given).put 0 (some turn)

def correcting (given : Option TemporalRef) : System :=
  (reopened given).put 0 (some (ran (described given).graph corrects))

def ended (given : Option TemporalRef) : System :=
  ((correcting given).append ⟨3⟩ .agent (ran (described given).graph corrects).buffer).put 0 none

def moves (given : Option TemporalRef) : List System.Move :=
  [.open 0 turn, .call 0 ⟨1⟩ (tells given), .commit 0 ⟨1⟩ .agent, .append ⟨2⟩ .agent (pass given),
    .open 0 turn, .call 0 ⟨1⟩ corrects, .commit 0 ⟨3⟩ .agent]

theorem calls_ran {graph : Graph} {op : Operation}
    (succeeds : (op.run ⟨graph, ⟨1⟩⟩ turn).isOk = true) : Calls graph turn (⟨1⟩, op) (ran graph op) := by
  unfold Calls ran
  cases outcome : op.run ⟨graph, ⟨1⟩⟩ turn with
  | ok => rfl
  | error =>
    rw [outcome] at succeeds
    cases succeeds

theorem tells_step (given : Option TemporalRef)
    (succeeds : ((tells given).run ⟨Graph.fresh, ⟨1⟩⟩ turn).isOk = true) :
    System.Step opened (.call 0 ⟨1⟩ (tells given)) (telling given) :=
  .call rfl (calls_ran succeeds)

theorem corrects_step (given : Option TemporalRef)
    (succeeds : (corrects.run ⟨(described given).graph, ⟨1⟩⟩ turn).isOk = true) :
    System.Step (reopened given) (.call 0 ⟨1⟩ corrects) (correcting given) :=
  .call rfl (calls_ran succeeds)

theorem dates_ended {given : Option TemporalRef} {dating : Dating}
    (telling_step : System.Step opened (.call 0 ⟨1⟩ (tells given)) (telling given))
    (correcting_step : System.Step (reopened given) (.call 0 ⟨1⟩ corrects) (correcting given))
    (dates : Dates (moves given) (ended given) dating) :
    (tells given).dating Graph.fresh turn = some dating ∨
      corrects.dating (described given).graph turn = some dating := by
  obtain ⟨one, slot, now, op, two, block, takes, held, dates⟩ := dates
  have opens : System.Step { graph := Graph.fresh } (.open 0 turn) opened := .open rfl rfl
  have commits : System.Step (telling given) (.commit 0 ⟨1⟩ .agent) (recorded given) := .commit rfl
  have passes : System.Step (recorded given) (.append ⟨2⟩ .agent (pass given)) (described given) :=
    .append
  have free : (described given).blocks 0 = none := by
    rw [described, System.append_blocks]
    rfl
  have again : System.Step (described given) (.open 0 turn) (reopened given) := .open free rfl
  have ends : System.Step (correcting given) (.commit 0 ⟨3⟩ .agent) (ended given) := .commit rfl
  rcases takes.of_cons fun _ => opens.determined with ⟨_, other⟩ | takes
  · cases other
  rcases takes.of_cons fun _ => telling_step.determined with ⟨rfl, here⟩ | takes
  · cases here
    cases held
    exact .inl dates
  rcases takes.of_cons fun _ => commits.determined with ⟨_, other⟩ | takes
  · cases other
  rcases takes.of_cons fun _ => passes.determined with ⟨_, other⟩ | takes
  · cases other
  rcases takes.of_cons fun _ => again.determined with ⟨_, other⟩ | takes
  · cases other
  rcases takes.of_cons fun _ => correcting_step.determined with ⟨rfl, here⟩ | takes
  · cases here
    cases held
    exact .inr dates
  rcases takes.of_cons fun _ => ends.determined with ⟨_, other⟩ | takes
  · cases other
  exact absurd takes Trace.not_takes_nil

theorem runs {given : Option TemporalRef}
    (telling_step : System.Step opened (.call 0 ⟨1⟩ (tells given)) (telling given))
    (correcting_step : System.Step (reopened given) (.call 0 ⟨1⟩ corrects) (correcting given)) :
    Trace (fun one move other => System.Step one move other ∧ move.Undated)
      { graph := Graph.fresh } (moves given) (ended given) := by
  have free : (described given).blocks 0 = none := by
    rw [described, System.append_blocks]
    rfl
  have undated : System.Move.Undated (.append ⟨2⟩ .agent (pass given)) := by
    intro payload member
    unfold pass at member
    split at member <;> (cases List.mem_singleton.mp member; rfl)
  exact .cons ⟨.open rfl rfl, trivial⟩ (.cons ⟨telling_step, trivial⟩ (.cons ⟨.commit rfl, trivial⟩
    (.cons ⟨.append, undated⟩ (.cons ⟨.open free rfl, trivial⟩ (.cons ⟨correcting_step, trivial⟩
      (.single ⟨.commit rfl, trivial⟩))))))

/-- A date that was worked out counts as stated on the correction of its entry. -/
theorem inferred_date_stated :
    Trace (fun one move other => System.Step one move other ∧ move.Undated)
        { graph := Graph.fresh } (moves none) (ended none) ∧
      (∃ row ∈ (ended none).graph.entries, row.entryId = corrected ∧ row.supersededBy = none ∧
        row.occurredAuthored = true) ∧
      ∀ dating, Dates (moves none) (ended none) dating → dating.entry = corrected →
        dating.origin = .carried told false := by
  have telling_step := tells_step none (by decide +kernel)
  have correcting_step := corrects_step none (by decide +kernel)
  refine ⟨runs telling_step correcting_step, by decide, fun dating dates named => ?_⟩
  rcases dates_ended telling_step correcting_step dates with first | second
  · cases first
  · have found : corrects.dating (described none).graph turn =
        some ⟨corrected, weekend, .carried told false⟩ := by decide +kernel
    rw [found] at second
    cases second
    rfl

/-- The date Mara states herself is carried over as one she stated. -/
theorem inferred_dates_stay_trip :
    DatesStated (Dates (moves (some weekend)) (ended (some weekend))) (ended (some weekend)).graph := by
  have telling_step := tells_step (some weekend) (by decide +kernel)
  have correcting_step := corrects_step (some weekend) (by decide +kernel)
  refine inferred_dates_stay (runs telling_step correcting_step) fun dating dates source => ?_
  rcases dates_ended telling_step correcting_step dates with first | second
  · have found : (tells (some weekend)).dating Graph.fresh turn = some ⟨told, weekend, .stated⟩ := by
      decide +kernel
    rw [found] at first
    cases first
    exact nofun
  · have found : corrects.dating (described (some weekend)).graph turn =
        some ⟨corrected, weekend, .carried told true⟩ := by decide +kernel
    rw [found] at second
    cases second
    exact nofun

end Trip

end Zuihitsu
