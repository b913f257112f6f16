/-
# What outlives an attempt

The globals of a session's VM outlive its blocks, and a value that an earlier attempt
minted still acts on that attempt's block and takes locks into that attempt's lock set.
A running attempt keeps to itself where it acts through the values it minted only: its
reads see its own writes, its events are in its own buffer, and no lock of it is left
when it is over.
-/

import Zuihitsu.Block.Reads
import Zuihitsu.Library.Locks
import Zuihitsu.Library.Trace
import Zuihitsu.Turn.Execute

namespace Zuihitsu.Turn

open Zuihitsu.Core Zuihitsu.Graph Zuihitsu.Library

/-! ### The VM of a session -/

/-- What a script reads through a handle or a module table. -/
inductive Reading where
  | name (id : MemoryId)
  | find (name : MemoryName)
  | entries (id : MemoryId)
  | history (id : MemoryId)
  deriving DecidableEq

/-- What a read answers. -/
inductive Answer where
  | name (name : Option MemoryName)
  | memory (id : Option MemoryId)
  | entries (entries : Except MemoryError (List MemoryBlock.EntryRef))

/-- Read through a block, its pending writes included. -/
def Reading.answer (engine : Engine) (block : MemoryBlock) : Reading → Answer
  | name id => .name (MemoryBlock.resolveName engine.graph block id)
  | find sought => .memory (MemoryBlock.resolve engine.graph block sought)
  | entries id => .entries (MemoryBlock.entries engine block id)
  | history id => .entries (MemoryBlock.history engine block id)

/-- A session: the block of every attempt so far, the last of which may be running, the
locks each of them holds and those held elsewhere, and the log. The values an attempt
minted hold on to its block and to its lock set by its number. -/
structure SessionVm where
  blocks : List MemoryBlock := []
  running : Bool := false
  locks : Locks (Option Nat) MemoryId := fun _ => []
  log : List EventPayload := []

/-- What happens in a session. The functions a script calls are those an attempt minted,
by its number. -/
inductive SessionVm.Move where
  | attempt (graph : Graph) (context : BlockContext)
  | wait (minted : Nat) (id : MemoryId)
  | operate (minted : Nat) (engine : Engine) (op : MemoryBlock.Operation)
  | refuse (minted : Nat) (engine : Engine) (op : MemoryBlock.Operation) (failure : MemoryError)
  | read (minted : Nat) (engine : Engine) (reading : Reading) (answer : Answer)
  | commit
  | drop
  | elsewhere (held : List MemoryId)

namespace SessionVm

/-- The number of the last attempt. -/
def latest (vm : SessionVm) : Nat := vm.blocks.length - 1

/-- The block an attempt is given. -/
def freshBlock (graph : Graph) (context : BlockContext) : MemoryBlock :=
  MemoryBlock.open graph context.teller context.authority (some context.conversation)
    (some context.turnId) context.presentSet context.maxEntryChars

/-- End the running attempt, and let go of its lock set. -/
def finish (vm : SessionVm) : SessionVm :=
  { vm with running := false, locks := vm.locks.release (some vm.latest) }

/-- One move. While an attempt runs its script waits for a lock, operates on a block or
reads through one, by any value an attempt minted; then the attempt commits its buffer or
drops it, on an error or when its time is out. -/
inductive Step : SessionVm → Move → SessionVm → Prop
  | attempt {vm : SessionVm} {graph : Graph} {context : BlockContext} (idle : vm.running = false) :
    Step vm (.attempt graph context)
      { vm with blocks := vm.blocks ++ [freshBlock graph context], running := true }
  | wait {vm : SessionVm} {minted : Nat} {id : MemoryId} (running : vm.running = true)
      (known : minted < vm.blocks.length) (free : vm.locks.Free id) :
    Step vm (.wait minted id) { vm with locks := vm.locks.take (some minted) id }
  | operate {vm : SessionVm} {minted : Nat} {engine : Engine} {op : MemoryBlock.Operation}
      {block after : MemoryBlock} (running : vm.running = true)
      (known : vm.blocks[minted]? = some block) (ran : op.run engine block = .ok after) :
    Step vm (.operate minted engine op) { vm with blocks := vm.blocks.set minted after }
  | refuse {vm : SessionVm} {minted : Nat} {engine : Engine} {op : MemoryBlock.Operation}
      {block : MemoryBlock} {failure : MemoryError} (running : vm.running = true)
      (known : vm.blocks[minted]? = some block) (ran : op.run engine block = .error failure) :
    Step vm (.refuse minted engine op failure) vm
  | read {vm : SessionVm} {minted : Nat} {engine : Engine} {reading : Reading}
      {block : MemoryBlock} {answer : Answer} (running : vm.running = true)
      (known : vm.blocks[minted]? = some block) (read : answer = reading.answer engine block) :
    Step vm (.read minted engine reading answer) vm
  | commit {vm : SessionVm} {block : MemoryBlock} (running : vm.running = true)
      (known : vm.blocks[vm.latest]? = some block) :
    Step vm .commit { vm.finish with log := vm.log ++ block.buffer }
  | drop {vm : SessionVm} (running : vm.running = true) : Step vm .drop vm.finish
  | elsewhere {vm : SessionVm} {held : List MemoryId}
      (apart : ∀ id ∈ held, ∀ number, id ∉ vm.locks (some number)) :
    Step vm (.elsewhere held) { vm with locks := Function.update vm.locks none held }

/-- The attempt whose functions a move goes through. -/
def Move.minted? : Move → Option Nat
  | wait minted _ | operate minted .. | refuse minted .. | read minted .. => some minted
  | attempt .. | commit | drop | elsewhere _ => none

/-- A move through the values of the running attempt, if through any. -/
def Through (vm : SessionVm) (move : Move) : Prop :=
  ∀ minted, move.minted? = some minted → minted = vm.latest

/-! ### Attempts kept apart -/

/-- What a move acts on is the running attempt's block, the last one: it operates on that
block and leaves the others, or reads through it. A fresh attempt has buffered nothing. -/
def ActsWithin (vm after : SessionVm) : Move → Prop
  | .attempt .. => ∃ block, block.buffer = [] ∧ after.blocks = vm.blocks ++ [block]
  | .operate _ engine op =>
    ∃ earlier block written, vm.blocks = earlier ++ [block] ∧
      op.run engine block = .ok written ∧ after.blocks = earlier ++ [written]
  | .refuse _ engine op failure =>
    ∃ earlier block, vm.blocks = earlier ++ [block] ∧ op.run engine block = .error failure
  | .read _ engine reading answer =>
    ∃ earlier block, vm.blocks = earlier ++ [block] ∧ answer = reading.answer engine block
  | .wait .. | .commit | .drop | .elsewhere _ => after.blocks = vm.blocks

/-- The log grows by the buffer of the running attempt when that commits, and at no other
time. -/
def LogsWithin (vm after : SessionVm) : Move → Prop
  | .commit =>
    ∃ earlier block, vm.blocks = earlier ++ [block] ∧ after.log = vm.log ++ block.buffer
  | _ => after.log = vm.log

/-- What a move owes the attempt that runs. When it is over, no attempt holds a lock. -/
structure Contained (vm : SessionVm) (move : Move) (after : SessionVm) : Prop where
  acts : ActsWithin vm after move
  logs : LogsWithin vm after move
  released : after.running = false → ∀ number, after.locks (some number) = []

/-- Only the running attempt holds locks. -/
def Tidy (vm : SessionVm) : Prop :=
  ∀ number, vm.locks (some number) ≠ [] → vm.running = true ∧ number = vm.latest

section Steps

variable {vm after : SessionVm} {move : Move}

theorem eq_concat_of_latest {block : MemoryBlock} (known : vm.blocks[vm.latest]? = some block) :
    vm.blocks = vm.blocks.dropLast ++ [block] := by
  rw [latest, ← List.getLast?_eq_getElem?] at known
  exact (List.dropLast_append_getLast? block known).symm

theorem set_latest {block written : MemoryBlock} (known : vm.blocks[vm.latest]? = some block) :
    vm.blocks.set vm.latest written = vm.blocks.dropLast ++ [written] := by
  have last := eq_concat_of_latest known
  have count : vm.latest = vm.blocks.dropLast.length := by simp [latest]
  rw [count]
  nth_rewrite 1 [last]
  simp

theorem Step.determined {other : SessionVm} (again : Step vm move other) (step : Step vm move after) :
    other = after := by
  cases step with
  | operate running known ran =>
    cases again with
    | operate _ known' ran' =>
      cases known.symm.trans known'
      cases ran.symm.trans ran'
      rfl
  | commit running known =>
    cases again with
    | commit _ known' =>
      cases known.symm.trans known'
      rfl
  | _ =>
    cases again
    rfl

theorem tidy_start {log : List EventPayload} : Tidy { log } := fun _ held => absurd rfl held

theorem Tidy.step (tidy : Tidy vm) (step : Step vm move after) (through : Through vm move) :
    Tidy after := by
  cases step with
  | attempt idle =>
    intro number held
    have running := (tidy number held).1
    rw [idle] at running
    cases running
  | @wait minted id running known free =>
    intro number held
    refine ⟨running, ?_⟩
    by_cases same : number = minted
    · exact same.trans (through minted rfl)
    · have apart : some number ≠ some minted := fun eq => same (Option.some.inj eq)
      have before : vm.locks.take (some minted) id (some number) = vm.locks (some number) :=
        Locks.take_other apart
      exact (tidy number fun none => held (before.trans none)).2
  | operate =>
    intro number held
    have stays := tidy number held
    simpa [latest] using stays
  | refuse | read => exact tidy
  | commit running known | drop running =>
    intro number held
    obtain ⟨apart, nonempty⟩ : some number ≠ some vm.latest ∧ vm.locks (some number) ≠ [] := by
      obtain ⟨id, member⟩ := List.exists_mem_of_ne_nil _ held
      have kept := Locks.mem_release.mp member
      exact ⟨kept.1, List.ne_nil_of_mem kept.2⟩
    -- the one attempt that held locks has let go of them
    exact absurd (congrArg some (tidy number nonempty).2) apart
  | elsewhere =>
    exact fun number held => tidy number held

theorem Step.contained (step : Step vm move after) (tidy : Tidy vm) (through : Through vm move) :
    Contained vm move after := by
  have settled := tidy.step step through
  have released : after.running = false → ∀ number, after.locks (some number) = [] := by
    intro idle number
    by_contra held
    have running := (settled number held).1
    rw [idle] at running
    cases running
  cases step with
  | @attempt graph context => exact ⟨⟨freshBlock graph context, rfl, rfl⟩, rfl, released⟩
  | wait | drop | elsewhere => exact ⟨rfl, rfl, released⟩
  | @operate minted engine op block written running known ran =>
    obtain rfl := through minted rfl
    exact ⟨⟨_, block, written, eq_concat_of_latest known, ran, set_latest known⟩, rfl, released⟩
  | @refuse minted engine op block failure running known ran =>
    obtain rfl := through minted rfl
    exact ⟨⟨_, block, eq_concat_of_latest known, ran⟩, rfl, released⟩
  | @read minted engine reading block answer running known read =>
    obtain rfl := through minted rfl
    exact ⟨⟨_, block, eq_concat_of_latest known, read⟩, rfl, released⟩
  | @commit block running known =>
    exact ⟨rfl, ⟨_, block, eq_concat_of_latest known, rfl⟩, released⟩

end Steps

/-- In a session whose scripts go through the values of their own attempt only, every
attempt is kept apart from the others. -/
theorem contained_of_through (log : List EventPayload) (moves : List Move) (vm : SessionVm)
    (through : ∀ before move after,
      Trace.Takes Step { log } moves vm before move after → Through before move)
    (before : SessionVm) (move : Move) (after : SessionVm)
    (takes : Trace.Takes Step { log } moves vm before move after) :
    Contained before move after := by
  have keeps : ∀ one label two, Step one label two → Tidy one → Through one label → Tidy two :=
    fun _ _ _ step tidy through => tidy.step step through
  have tidy : Tidy before := Trace.visited_of_taken tidy_start keeps through takes.visits.1
  have own : Through before move := through before move after takes
  obtain ⟨_, _, _, _, step, _⟩ := takes
  exact step.contained tidy own

namespace Kept

def plan : MemoryId := ⟨1⟩

def creation : EventPayload := .memoryCreated plan ⟨"topic/plan"⟩

def planned : Graph :=
  match Graph.commit ⟨0⟩ .agent [creation] {} with
  | .ok graph => graph
  | .error _ => {}

def firstBlock : MemoryBlock :=
  { freshBlock {} Swallowed.context with buffer := [creation] }

def opened : SessionVm where
  blocks := [freshBlock {} Swallowed.context]
  running := true

def created : SessionVm where
  blocks := [firstBlock]
  running := true

def committed : SessionVm := { created.finish with log := [creation] }

def second : SessionVm :=
  { committed with
    blocks := committed.blocks ++ [freshBlock planned Swallowed.context], running := true }

def locked : SessionVm := { second with locks := second.locks.take (some 0) plan }

def written : SessionVm :=
  { locked with
    blocks :=
      [{ firstBlock with buffer := [creation, .memoryVolatilitySet plan .high] },
        freshBlock planned Swallowed.context] }

def final : SessionVm := { written.finish with log := [creation] }

def creates : MemoryBlock.Operation := .create plan ⟨0⟩ ⟨"topic/plan"⟩ none {}

def writes : MemoryBlock.Operation := .setVolatility plan "high"

def moves : List Move :=
  [.attempt {} Swallowed.context, .operate 0 ⟨{}, ⟨0⟩⟩ creates, .commit,
    .attempt planned Swallowed.context]

theorem made_created : Step opened (.operate 0 ⟨{}, ⟨0⟩⟩ creates) created := by
  have made : creates.run ⟨{}, ⟨0⟩⟩ (freshBlock {} Swallowed.context) = .ok firstBlock := by decide
  exact .operate rfl rfl made

theorem trace_second : Trace Step {} moves second := by
  have opens : Step {} (.attempt {} Swallowed.context) opened := .attempt rfl
  have commits : Step created .commit committed := @Step.commit created firstBlock rfl rfl
  have again : Step committed (.attempt planned Swallowed.context) second := .attempt rfl
  exact .cons opens (.cons made_created (.cons commits (.single again)))

theorem second_wait : Step second (.wait 0 plan) locked := by
  refine .wait rfl (by decide) fun owner => ?_
  simp [second, committed, finish, created, Locks.release]

theorem locked_operate : Step locked (.operate 0 ⟨planned, ⟨1⟩⟩ writes) written := by
  refine @Step.operate locked 0 ⟨planned, ⟨1⟩⟩ writes firstBlock _ rfl rfl ?_
  decide

theorem written_commit : Step written .commit final :=
  @Step.commit written (freshBlock planned Swallowed.context) rfl rfl

def allMoves : List Move :=
  moves ++ [.wait 0 plan, .operate 0 ⟨planned, ⟨1⟩⟩ writes, .commit]

end Kept

open Kept

/-- A write through a handle that an earlier block kept goes to that block's buffer, which no
commit reads, and the lock it took is held when the writing block is over. -/
theorem Kept.not_contained :
    (Trace.Takes Step {} allMoves final locked (.operate 0 ⟨planned, ⟨1⟩⟩ writes) written ∧
        ¬ Contained locked (.operate 0 ⟨planned, ⟨1⟩⟩ writes) written) ∧
      Trace.Takes Step {} allMoves final written .commit final ∧
        ¬ Contained written .commit final := by
  have toLocked : Trace Step {} (moves ++ [.wait 0 plan]) locked :=
    trace_second.append (.single second_wait)
  have toWritten : Trace Step {} (moves ++ [.wait 0 plan] ++
      [.operate 0 ⟨planned, ⟨1⟩⟩ writes]) written := toLocked.append (.single locked_operate)
  refine ⟨⟨⟨_, _, rfl, toLocked, locked_operate, .single written_commit⟩, fun contained => ?_⟩,
    ⟨_, _, rfl, toWritten, written_commit, .nil _⟩, fun contained => ?_⟩
  · obtain ⟨earlier, block, _, before, _, after⟩ := contained.acts
    -- the block that changed is not the last one
    have kept : locked.blocks.dropLast = written.blocks.dropLast := by
      rw [before, after, List.dropLast_concat, List.dropLast_concat]
    exact absurd kept (by decide)
  · have empty := contained.released rfl 0
    exact absurd empty (by decide)

/-- The first block keeps to itself. -/
theorem Kept.first_contained :
    (∀ before move after,
      Trace.Takes Step {} moves second before move after → Through before move) ∧
      ∀ before move after,
        Trace.Takes Step {} moves second before move after → Contained before move after := by
  have opens : Step {} (.attempt {} Swallowed.context) opened := .attempt rfl
  have through : ∀ before move after,
      Trace.Takes Step {} moves second before move after → Through before move := by
    intro before move after takes minted mints
    rcases takes.of_cons fun _ step => step.determined opens with ⟨_, rfl⟩ | takes
    · cases mints
    rcases takes.of_cons fun _ step => step.determined made_created with ⟨rfl, rfl⟩ | takes
    · cases mints
      rfl
    -- what is left goes through no function at all
    obtain ⟨earlier, later, split, _⟩ := takes
    match earlier with
    | [] | [_] => cases split; cases mints
    | _ :: _ :: rest => simp at split
  exact ⟨through, contained_of_through [] moves second through⟩

end SessionVm

end Zuihitsu.Turn
