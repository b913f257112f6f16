/-
# Content writes: create, rename, append, supersede, revise, set volatility

Each operation answers the block it leaves, or the teachable error that leaves
the block alone. The ULID a creation or an append generates is an argument. The
lemma beside an operation says once what it checked and which events it buffered,
and callers read that instead of the operation.
-/

import Zuihitsu.Block.State
import Zuihitsu.Library.Script

namespace Zuihitsu

open Zuihitsu.Core Zuihitsu.Graph Zuihitsu.Library

namespace MemoryBlock

/-- Refuse with an error when a condition holds. -/
def refuseIf (refused : Prop) [Decidable refused] (error : MemoryError) : Except MemoryError Unit :=
  if refused then .error error else .ok ()

@[simp] theorem refuseIf_ok {refused : Prop} [Decidable refused] {error : MemoryError}
    {value : Unit} :
    refuseIf refused error = .ok value ↔ ¬refused := by
  unfold refuseIf
  split <;> simp_all

@[simp] theorem exists_checked {check : Except MemoryError Unit} {holds : Prop} :
    (∃ value, check = .ok value ∧ holds) ↔ check = .ok () ∧ holds :=
  ⟨fun ⟨_, passed, rest⟩ => ⟨passed, rest⟩, fun ⟨passed, rest⟩ => ⟨(), passed, rest⟩⟩

section Pushing

variable {block : MemoryBlock} {event : EventPayload} {events : List EventPayload}

@[simp] theorem push_buffer : (block.push event).buffer = block.buffer ++ [event] := rfl

@[simp] theorem pushAll_buffer : (block.pushAll events).buffer = block.buffer ++ events := rfl

theorem push_eq_pushAll : block.push event = block.pushAll [event] := rfl

@[simp] theorem pushAll_nil : block.pushAll [] = block := by
  simp [pushAll]

@[simp] theorem pushAll_pushAll {more : List EventPayload} :
    (block.pushAll events).pushAll more = block.pushAll (events ++ more) := by
  simp [pushAll]

theorem pushContent_ok {engine : Engine} {fresh : EntryId} {id : MemoryId} {text : String}
    {toldBy : Teller} {visibility : Visibility} {occurredAt : Option TemporalRef}
    {after : MemoryBlock} :
    pushContent engine fresh block id text toldBy visibility occurredAt = .ok after ↔
      text.length ≤ block.maxEntryChars ∧
        after = block.pushAll [.memoryContentAppended id fresh engine.now occurredAt text toldBy
          block.toldIn visibility] := by
  unfold pushContent
  split
  · simp_all
  · simp_all [push_eq_pushAll, eq_comm]

/-- Some events were buffered, and nothing else of the block changed but which open
seeds it remembers. -/
def Buffers (block : MemoryBlock) (events : List EventPayload) (after : MemoryBlock) : Prop :=
  ∃ seeds, after = { block with buffer := block.buffer ++ events, openDefaultSeeds := seeds }

theorem Buffers.buffer {after : MemoryBlock} (buffers : Buffers block events after) :
    after.buffer = block.buffer ++ events := by
  obtain ⟨seeds, rfl⟩ := buffers
  rfl

theorem buffers_self : Buffers block [] block := ⟨block.openDefaultSeeds, by simp⟩

theorem buffers_push : Buffers block [event] (block.push event) := ⟨block.openDefaultSeeds, rfl⟩

theorem buffers_pushAll : Buffers block events (block.pushAll events) :=
  ⟨block.openDefaultSeeds, rfl⟩

theorem Buffers.trans {middle after : MemoryBlock} {more : List EventPayload}
    (first : Buffers block events middle) (second : Buffers middle more after) :
    Buffers block (events ++ more) after := by
  obtain ⟨_, rfl⟩ := first
  obtain ⟨seeds, rfl⟩ := second
  exact ⟨seeds, by simp⟩

/-! ### Buffers read in order -/

/-- A property of each event of a buffer, given the events before it. -/
def InOrder (holds : List EventPayload → EventPayload → Prop) (buffer : List EventPayload) : Prop :=
  ∀ earlier payload later, buffer = earlier ++ payload :: later → holds earlier payload

variable {holds : List EventPayload → EventPayload → Prop}

theorem inOrder_nil : InOrder holds [] := by
  intro earlier payload later split
  simp at split

theorem inOrder_of_forall (each : ∀ payload ∈ events, ∀ earlier, holds earlier payload) :
    InOrder holds events := by
  intro earlier payload later split
  exact each payload (by simp [split]) earlier

theorem inOrder_singleton {holds : List EventPayload → EventPayload → Prop} {payload : EventPayload}
    (here : holds [] payload) : InOrder holds [payload] := by
  intro earlier other later split
  cases earlier with
  | nil =>
    obtain ⟨rfl, _⟩ := List.cons.inj split
    exact here
  | cons => simp at split

theorem InOrder.append {first second : List EventPayload} (leading : InOrder holds first)
    (following : InOrder (fun earlier => holds (first ++ earlier)) second) :
    InOrder holds (first ++ second) := by
  intro earlier payload later split
  rcases List.append_eq_append_iff.mp split with ⟨between, rfl, rest⟩ | ⟨between, whole, rest⟩
  · exact following between payload later rest
  · cases between with
    | nil =>
      obtain rfl : earlier = first := by simpa using whole.symm
      simpa using following [] payload later (by simpa using rest.symm)
    | cons head tail =>
      obtain ⟨rfl, _⟩ := List.cons.inj rest
      exact leading earlier payload tail whole

theorem InOrder.buffers {after : MemoryBlock} (leading : InOrder holds block.buffer)
    (buffers : Buffers block events after)
    (following : InOrder (fun earlier => holds (block.buffer ++ earlier)) events) :
    InOrder holds after.buffer := by
  rw [buffers.buffer]
  exact leading.append following

end Pushing

/-- The event of an inline volatility classification. -/
def inlineVolatility (id : MemoryId) (opts : AppendOptions) : List EventPayload :=
  (opts.volatility.map fun volatility => EventPayload.memoryVolatilitySet id volatility).toList

theorem forall_inlineVolatility {id : MemoryId} {opts : AppendOptions} {holds : EventPayload → Prop}
    (sets : ∀ volatility, holds (.memoryVolatilitySet id volatility)) :
    ∀ payload ∈ inlineVolatility id opts, holds payload := by
  intro payload member
  obtain ⟨volatility, _, rfl⟩ := by simpa [inlineVolatility] using member
  exact sets volatility

/-- Whether a posture surfaces to everyone. -/
def isAllAudience : Visibility → Bool
  | .public | .attributed => true
  | .privateToTeller | .exclude _ => false

/-- Whether a posture names parties to withhold from. -/
def isExclude : Visibility → Bool
  | .exclude _ => true
  | _ => false

/-- Remember a seed that took the unforced default and landed open. -/
def rememberOpenSeed (block : MemoryBlock) (id : MemoryId) (forced : Option ForcedVisibility)
    (visibility : Visibility) : MemoryBlock :=
  if forced.isNone && isAllAudience visibility then
    { block with openDefaultSeeds := id :: block.openDefaultSeeds }
  else block

/-- Create a memory under a free name, with an optional first entry. -/
def createWithOpts (engine : Engine) (fresh : MemoryId) (freshEntry : EntryId)
    (block : MemoryBlock) (name : MemoryName) (content : Option String) (opts : AppendOptions) :
    Except MemoryError MemoryBlock := do
  refuseIf (resolve engine.graph block name ≠ none) (.nameExists name)
  match content with
  | none => return block.push (.memoryCreated fresh name)
  | some text =>
    let toldBy := entryTeller opts block.teller
    let forced ← reconcileForcedVisibility opts.visibility opts.exclude
    refuseIf
      (forced = none ∧ block.confidentialContext = false ∧ block.authority = .platform ∧
        aboutAPerson (some name) fresh = true)
      .visibilityRequiredOnCreate
    let visibility ← resolveVisibility block (some name) fresh toldBy forced
    validateOccurredAt opts.occurredAt
    let created := (rememberOpenSeed block fresh forced visibility).push (.memoryCreated fresh name)
    let seeded ← pushContent engine freshEntry created fresh text toldBy visibility opts.occurredAt
    -- the first entry is also the description, until a pass writes one
    return (seeded.push (.entryDescriptionMirrored fresh freshEntry)).pushAll
      (inlineVolatility fresh opts)

/-- What a creation checked and buffered: the name resolved to nothing, and what
follows the memory is its first entry, if there is one. -/
theorem createWithOpts_ok {engine : Engine} {fresh : MemoryId} {freshEntry : EntryId}
    {block after : MemoryBlock} {name : MemoryName} {content : Option String} {opts : AppendOptions}
    (done : createWithOpts engine fresh freshEntry block name content opts = .ok after) :
    resolve engine.graph block name = none ∧
      (Buffers block [.memoryCreated fresh name] after ∨
        ∃ text visibility,
          Buffers block
            (.memoryCreated fresh name ::
              .memoryContentAppended fresh freshEntry engine.now opts.occurredAt text
                (entryTeller opts block.teller) block.toldIn visibility ::
              .entryDescriptionMirrored fresh freshEntry :: inlineVolatility fresh opts) after) := by
  simp only [createWithOpts, bind_eq_ok, exists_const, refuseIf_ok, not_not] at done
  obtain ⟨free, done⟩ := done
  refine ⟨free, ?_⟩
  cases content with
  | none =>
    cases done
    exact .inl buffers_push
  | some text =>
    simp only [bind_eq_ok, exists_checked, exists_const, refuseIf_ok, pushContent_ok, pure, Except.pure,
      Except.ok.injEq] at done
    obtain ⟨forced, _, _, visibility, _, _, seeded, ⟨_, rfl⟩, rfl⟩ := done
    have marked : ∃ seeds, rememberOpenSeed block fresh forced visibility =
        { block with openDefaultSeeds := seeds } := by
      unfold rememberOpenSeed
      split
      · exact ⟨_, rfl⟩
      · exact ⟨block.openDefaultSeeds, rfl⟩
    obtain ⟨seeds, marked⟩ := marked
    exact .inr ⟨text, visibility, seeds, by simp [marked, push, pushAll]⟩

/-- Create a memory under a free name. -/
def create (engine : Engine) (fresh : MemoryId) (freshEntry : EntryId) (block : MemoryBlock)
    (name : MemoryName) (content : Option String) : Except MemoryError MemoryBlock :=
  createWithOpts engine fresh freshEntry block name content {}

/-- Whether a handle is a platform-qualified participant one. -/
def platformQualified (name : MemoryName) : Bool :=
  name.namespaced.any (·.isPlatformQualified)

/-- Rename a memory's handle. -/
def rename (engine : Engine) (block : MemoryBlock) (id : MemoryId) (newName : MemoryName) :
    Except MemoryError MemoryBlock := do
  guardSelf block id
  let existing := resolve engine.graph block newName
  -- renaming a memory to its own name is nothing
  if existing = some id then return block
  refuseIf (block.authority = .platform ∧ platformQualified newName = true)
    (.renameOntoPlatformHandle newName)
  refuseIf (existing ≠ none) (.nameExists newName)
  match resolveName engine.graph block id with
  | none => return block
  | some oldName =>
    refuseIf (block.authority = .platform ∧ platformQualified oldName = true)
      (.renameOfPlatformHandle oldName)
    return block.push (.memoryRenamed id oldName newName)

theorem rename_ok {engine : Engine} {block after : MemoryBlock} {id : MemoryId}
    {newName : MemoryName} (done : rename engine block id newName = .ok after) :
    after = block ∨
      resolve engine.graph block newName = none ∧
        ∃ oldName, resolveName engine.graph block id = some oldName ∧
          after = block.pushAll [.memoryRenamed id oldName newName] := by
  simp only [rename, bind_eq_ok, exists_checked] at done
  obtain ⟨_, done⟩ := done
  split at done
  · cases done
    exact .inl rfl
  · simp only [bind_eq_ok, exists_const, refuseIf_ok, not_not] at done
    obtain ⟨_, free, done⟩ := done
    split at done
    · cases done
      exact .inl rfl
    · rename_i oldName known
      simp only [bind_eq_ok, exists_const, refuseIf_ok] at done
      obtain ⟨_, done⟩ := done
      cases done
      exact .inr ⟨free, oldName, known, rfl⟩

/-- Append a content entry to a memory. -/
def append (engine : Engine) (fresh : EntryId) (block : MemoryBlock) (id : MemoryId)
    (text : String) (opts : AppendOptions) : Except MemoryError MemoryBlock := do
  let id := classWriteTarget engine.graph block id
  guardSelf block id
  guardOperator block id
  let toldBy := entryTeller opts block.teller
  let forced ← reconcileForcedVisibility opts.visibility opts.exclude
  let visibility ← resolveVisibility block (resolveName engine.graph block id) id toldBy forced
  -- an entry with excludees must not stand beside an open seed of this block
  refuseIf (isExclude visibility = true ∧ id ∈ block.openDefaultSeeds) .unguardedSeedBesideExclude
  validateOccurredAt opts.occurredAt
  let appended ← pushContent engine fresh block id text toldBy visibility opts.occurredAt
  return appended.pushAll (inlineVolatility id opts)

theorem append_ok {engine : Engine} {fresh : EntryId} {block after : MemoryBlock} {id : MemoryId}
    {text : String} {opts : AppendOptions}
    (done : append engine fresh block id text opts = .ok after) :
    let target := classWriteTarget engine.graph block id
    ∃ forced visibility,
      reconcileForcedVisibility opts.visibility opts.exclude = .ok forced ∧
      resolveVisibility block (resolveName engine.graph block target) target
          (entryTeller opts block.teller) forced = .ok visibility ∧
      after = block.pushAll
        (.memoryContentAppended target fresh engine.now opts.occurredAt text
            (entryTeller opts block.teller) block.toldIn visibility ::
          inlineVolatility target opts) := by
  simp only [append, bind_eq_ok, exists_checked, exists_const, refuseIf_ok, pushContent_ok, pure,
    Except.pure, Except.ok.injEq] at done
  obtain ⟨_, _, forced, reconciled, visibility, resolved, _, _, appended, ⟨_, rfl⟩, rfl⟩ := done
  exact ⟨forced, visibility, reconciled, resolved, by simp⟩

/-- Supersede one live entry of a class with another. -/
def supersede (engine : Engine) (block : MemoryBlock) (id : MemoryId) (old new : EntryId) :
    Except MemoryError MemoryBlock := do
  let id := classWriteTarget engine.graph block id
  guardSelf block id
  guardOperator block id
  let oldEntry ← liveEntry engine.graph block id old
  let _ ← liveEntry engine.graph block id new
  guardForeignConfidenceSupersede engine.graph block oldEntry
  return block.push (.memorySuperseded id old new)

theorem supersede_ok {engine : Engine} {block after : MemoryBlock} {id : MemoryId}
    {old new : EntryId} (done : supersede engine block id old new = .ok after) :
    let target := classWriteTarget engine.graph block id
    (∃ live, liveEntry engine.graph block target old = .ok live) ∧
      (∃ live, liveEntry engine.graph block target new = .ok live) ∧
      after = block.pushAll [.memorySuperseded target old new] := by
  simp only [supersede, bind_eq_ok, exists_checked, pure, Except.pure, Except.ok.injEq] at done
  obtain ⟨_, _, oldEntry, oldLive, newEntry, newLive, _, rfl⟩ := done
  exact ⟨⟨oldEntry, oldLive⟩, ⟨newEntry, newLive⟩, rfl⟩

/-- The occurrence of a pending append of an entry. -/
def pendingOccurredAt (entry : EntryId) : EventPayload → Option (Option TemporalRef)
  | .memoryContentAppended _ appended _ occurredAt _ _ _ _ =>
    if appended = entry then some occurredAt else none
  | _ => none

/-- The occurrence recorded on an entry: this block's append of it before the graph. -/
def entryOccurredAt (graph : Graph) (block : MemoryBlock) (id : MemoryId) (old : EntryId) :
    Option TemporalRef :=
  match block.buffer.findSome? (pendingOccurredAt old) with
  | some occurredAt => occurredAt
  | none => ((graph.classHistory id).find? (·.entryId = old)).bind (·.occurredAt)

/-- Append an entry and supersede another with it, as one. -/
def revise (engine : Engine) (fresh : EntryId) (block : MemoryBlock) (id : MemoryId)
    (old : EntryId) (text : String) (opts : AppendOptions) : Except MemoryError MemoryBlock := do
  -- the date is carried over unless a new one is given
  let carried := opts.occurredAt.or (entryOccurredAt engine.graph block id old)
  let appended ← append engine fresh block id text { opts with occurredAt := carried }
  supersede engine appended id old fresh

theorem revise_ok {engine : Engine} {fresh : EntryId} {block after : MemoryBlock} {id : MemoryId}
    {old : EntryId} {text : String} {opts : AppendOptions}
    (done : revise engine fresh block id old text opts = .ok after) :
    ∃ occurredAt appended,
      append engine fresh block id text { opts with occurredAt := occurredAt } = .ok appended ∧
        supersede engine appended id old fresh = .ok after := by
  simp only [revise, bind_eq_ok] at done
  obtain ⟨appended, first, second⟩ := done
  exact ⟨_, appended, first, second⟩

/-- Set how fast a memory's facts go out of date. -/
def setVolatility (engine : Engine) (block : MemoryBlock) (id : MemoryId) (level : String) :
    Except MemoryError MemoryBlock := do
  let id := classWriteTarget engine.graph block id
  guardSelf block id
  match Volatility.parse level with
  | none => .error (.unknownVolatility level)
  | some volatility => return block.push (.memoryVolatilitySet id volatility)

theorem setVolatility_ok {engine : Engine} {block after : MemoryBlock} {id : MemoryId}
    {level : String} (done : setVolatility engine block id level = .ok after) :
    ∃ volatility, after = block.pushAll
      [.memoryVolatilitySet (classWriteTarget engine.graph block id) volatility] := by
  simp only [setVolatility, bind_eq_ok, exists_checked] at done
  obtain ⟨_, done⟩ := done
  split at done
  · cases done
  · rename_i volatility _
    cases done
    exact ⟨volatility, rfl⟩

end MemoryBlock

end Zuihitsu
