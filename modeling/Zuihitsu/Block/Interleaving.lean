/-
# Blocks that run side by side

Any number of blocks are open over one graph. Each call runs against the graph as
it is then; a commit appends the block's whole buffer to the log and folds it, and
other writers append events of their own in between. When the graph refuses an
event of the log, the fold stops there for good: the log holds the event, and
every later fold meets it first.

The rule at the end carries an invariant through such runs: one property of the
graph, and one that ties each open buffer to the graph it will fold over.
-/

import Zuihitsu.Block.Operations
import Zuihitsu.Graph.Reachable

namespace Zuihitsu

open Zuihitsu.Core Zuihitsu.Graph Zuihitsu.Library Zuihitsu.MemoryBlock

/-! ### Folding until an event is refused -/

/-- Fold payloads in order up to the first one the graph refuses, with whether there
was one. -/
def foldUntil (recordedAt : Timestamp) (source : EventSource) :
    List EventPayload → Graph → Graph × Bool
  | [], graph => (graph, false)
  | payload :: rest, graph =>
    match apply ⟨graph.head + 1, recordedAt, source, payload⟩ graph with
    | .ok after => foldUntil recordedAt source rest after
    | .error _ => (graph, true)

section FoldUntil

variable {recordedAt : Timestamp} {source : EventSource} {payloads : List EventPayload}
variable {graph after : Graph}

theorem foldUntil_spec :
    ∃ folded refused, payloads = folded ++ refused ∧
      commit recordedAt source folded graph =
        .ok (foldUntil recordedAt source payloads graph).1 := by
  induction payloads generalizing graph with
  | nil => exact ⟨[], [], rfl, rfl⟩
  | cons payload rest ih =>
    cases applied : apply ⟨graph.head + 1, recordedAt, source, payload⟩ graph with
    | ok middle =>
      obtain ⟨folded, refused, rfl, committed⟩ := @ih middle
      refine ⟨payload :: folded, refused, rfl, commit_cons_ok.mpr ⟨middle, applied, ?_⟩⟩
      simpa only [foldUntil, applied] using committed
    | error =>
      -- nothing folds from the refused event on
      refine ⟨[], payload :: rest, rfl, ?_⟩
      simp only [foldUntil, applied, commit_nil]

theorem foldUntil_of_commit (committed : commit recordedAt source payloads graph = .ok after) :
    foldUntil recordedAt source payloads graph = (after, false) := by
  induction payloads generalizing graph with
  | nil =>
    cases committed
    rfl
  | cons payload rest ih =>
    obtain ⟨middle, applied, remaining⟩ := commit_cons_ok.mp committed
    simp only [foldUntil, applied]
    exact ih remaining

theorem commit_of_foldUntil (unrefused : (foldUntil recordedAt source payloads graph).2 = false) :
    commit recordedAt source payloads graph =
      .ok (foldUntil recordedAt source payloads graph).1 := by
  induction payloads generalizing graph with
  | nil => rfl
  | cons payload rest ih =>
    cases applied : apply ⟨graph.head + 1, recordedAt, source, payload⟩ graph with
    | ok middle =>
      simp only [foldUntil, applied] at unrefused ⊢
      exact commit_cons_ok.mpr ⟨middle, applied, ih unrefused⟩
    | error => simp [foldUntil, applied] at unrefused

theorem commit_inOrder {motive : Graph → Prop} {buffer folded refused : List EventPayload}
    (split : buffer = folded ++ refused)
    (each : InOrder (fun earlier payload => ∀ middle next,
      commit recordedAt source earlier graph = .ok middle →
        apply ⟨middle.head + 1, recordedAt, source, payload⟩ middle = .ok next → motive middle →
          motive next) buffer)
    (committed : commit recordedAt source folded graph = .ok after) (start : motive graph) :
    motive after := by
  -- induction on what is left to fold, with what has folded so far before it
  have through : ∀ earlier rest middle, folded = earlier ++ rest →
      commit recordedAt source earlier graph = .ok middle → motive middle →
      commit recordedAt source rest middle = .ok after → motive after := by
    intro earlier rest
    induction rest generalizing earlier with
    | nil =>
      intro middle _ _ held done
      cases done
      exact held
    | cons payload rest ih =>
      intro middle whole first held done
      obtain ⟨next, applied, remaining⟩ := commit_cons_ok.mp done
      have extended : commit recordedAt source (earlier ++ [payload]) graph = .ok next :=
        commit_append_ok.mpr ⟨middle, first, commit_cons_ok.mpr ⟨next, applied, rfl⟩⟩
      have kept : motive next :=
        each earlier payload (rest ++ refused) (by simp [split, whole]) middle next first applied held
      exact ih (earlier ++ [payload]) next (by simp [whole]) extended kept remaining
  exact through [] folded graph rfl rfl start committed

end FoldUntil

/-! ### The system and its moves -/

/-- The graph, whether its fold of the log is stuck at a refused event, and the open
blocks. -/
structure System where
  graph : Graph
  stuck : Bool := false
  blocks : Nat → Option MemoryBlock := fun _ => none

/-- Append payloads to the log and fold what the graph takes of them. -/
def System.append (system : System) (recordedAt : Timestamp) (source : EventSource)
    (payloads : List EventPayload) : System :=
  if system.stuck then system
  else
    let folded := foldUntil recordedAt source payloads system.graph
    { system with graph := folded.1, stuck := folded.2 }

/-- Put a block in a slot, or clear it. -/
def System.put (system : System) (slot : Nat) (block : Option MemoryBlock) : System :=
  { system with blocks := fun other => if other = slot then block else system.blocks other }

/-- What happens to a system. -/
inductive System.Move where
  | «open» (slot : Nat) (block : MemoryBlock)
  | call (slot : Nat) (now : Timestamp) (op : Operation)
  | commit (slot : Nat) (recordedAt : Timestamp) (source : EventSource)
  | drop (slot : Nat)
  | append (recordedAt : Timestamp) (source : EventSource) (payloads : List EventPayload)

/-- One move: a block is opened in a free slot, called against the graph as it is,
committed or dropped; or another writer appends. -/
inductive System.Step : System → System.Move → System → Prop
  | «open» {system : System} {slot : Nat} {block : MemoryBlock} (free : system.blocks slot = none)
      (empty : block.buffer = []) : Step system (.open slot block) (system.put slot (some block))
  | call {system : System} {slot : Nat} {now : Timestamp} {op : Operation}
      {block after : MemoryBlock} (held : system.blocks slot = some block)
      (ran : Calls system.graph block (now, op) after) :
      Step system (.call slot now op) (system.put slot (some after))
  | commit {system : System} {slot : Nat} {recordedAt : Timestamp} {source : EventSource}
      {block : MemoryBlock} (held : system.blocks slot = some block) :
      Step system (.commit slot recordedAt source)
        ((system.append recordedAt source block.buffer).put slot none)
  | drop {system : System} {slot : Nat} : Step system (.drop slot) (system.put slot none)
  | append {system : System} {recordedAt : Timestamp} {source : EventSource}
      {payloads : List EventPayload} :
      Step system (.append recordedAt source payloads) (system.append recordedAt source payloads)

theorem System.Step.determined {before after other : System} {move : System.Move}
    (step : System.Step before move after) (again : System.Step before move other) :
    other = after := by
  cases step with
  | «open» | drop | append => cases again; rfl
  | call held ran =>
    cases again with
    | call again reran =>
      rw [held] at again
      cases again
      rw [Calls, ran] at reran
      cases reran
      rfl
  | commit held =>
    cases again with
    | commit again =>
      rw [held] at again
      cases again
      rfl

section Append

variable {system : System} {recordedAt : Timestamp} {source : EventSource}
variable {payloads : List EventPayload} {slot other : Nat} {held block : MemoryBlock}

@[simp] theorem System.put_graph {block : Option MemoryBlock} :
    (system.put slot block).graph = system.graph := rfl

@[simp] theorem System.put_stuck {block : Option MemoryBlock} :
    (system.put slot block).stuck = system.stuck := rfl

@[simp] theorem System.append_blocks :
    (system.append recordedAt source payloads).blocks = system.blocks := by
  unfold System.append
  split <;> rfl

theorem System.append_spec (system : System) (recordedAt : Timestamp) (source : EventSource)
    (payloads : List EventPayload) :
    ∃ folded refused, payloads = folded ++ refused ∧
      Graph.commit recordedAt source folded system.graph =
        .ok (system.append recordedAt source payloads).graph := by
  unfold System.append
  split
  · exact ⟨[], payloads, rfl, rfl⟩
  · exact foldUntil_spec

theorem System.append_unstuck (unstuck : (system.append recordedAt source payloads).stuck = false) :
    Graph.commit recordedAt source payloads system.graph =
      .ok (system.append recordedAt source payloads).graph := by
  unfold System.append at unstuck ⊢
  split at unstuck
  · rename_i stuck
    rw [stuck] at unstuck
    cases unstuck
  · rename_i going
    rw [if_neg going]
    exact commit_of_foldUntil unstuck

theorem System.put_blocks {block : Option MemoryBlock} (found : (system.put slot block).blocks other =
    some held) : other = slot ∧ block = some held ∨ system.blocks other = some held := by
  unfold System.put at found
  dsimp only at found
  split at found
  · rename_i here
    exact .inl ⟨here, found⟩
  · exact .inr found

end Append

/-! ### Invariants of a run -/

/-- A property of the graph and one of an open block over it, kept by the moves that
are permitted: a fresh block has it, a call keeps it, the graph moving on keeps it, and
folding a buffer that has it keeps the graph's. -/
structure Keeps (permits : System → System.Move → Prop) (holds : Graph → Prop)
    (ready : Nat → Graph → MemoryBlock → Prop) : Prop where
  opens : ∀ slot graph block, holds graph → block.buffer = [] → ready slot graph block
  calls : ∀ system slot now op block after, permits system (.call slot now op) →
    system.blocks slot = some block → holds system.graph → ready slot system.graph block →
      Calls system.graph block (now, op) after → ready slot system.graph after
  moves : ∀ slot event before after block, apply event before = .ok after → ready slot before block →
    ready slot after block
  folds : ∀ system slot recordedAt source block folded refused after,
    permits system (.commit slot recordedAt source) → system.blocks slot = some block →
      block.buffer = folded ++ refused →
        Graph.commit recordedAt source folded system.graph = .ok after → holds system.graph →
          ready slot system.graph block → holds after
  appends : ∀ system recordedAt source payloads folded refused after,
    permits system (.append recordedAt source payloads) → payloads = folded ++ refused →
      Graph.commit recordedAt source folded system.graph = .ok after → holds system.graph →
        holds after

section Keeping

variable {permits : System → System.Move → Prop} {holds : Graph → Prop}
variable {ready : Nat → Graph → MemoryBlock → Prop} {before after : System} {move : System.Move}

/-- The graph has its property, and so has every open block. -/
structure System.Sound (holds : Graph → Prop) (ready : Nat → Graph → MemoryBlock → Prop)
    (system : System) : Prop where
  graph : holds system.graph
  blocks : ∀ slot block, system.blocks slot = some block → ready slot system.graph block

theorem Keeps.commit (keeps : Keeps permits holds ready) {recordedAt : Timestamp}
    {source : EventSource} {payloads : List EventPayload} {first last : Graph} {slot : Nat}
    {block : MemoryBlock} (committed : Graph.commit recordedAt source payloads first = .ok last)
    (waiting : ready slot first block) : ready slot last block :=
  commit_induction (motive := fun graph => ready slot graph block)
    (fun _ _ one other applied earlier => keeps.moves slot _ one other block applied earlier)
    committed waiting

theorem Keeps.step (keeps : Keeps permits holds ready) (step : System.Step before move after)
    (permitted : permits before move) (sound : before.Sound holds ready) :
    after.Sound holds ready := by
  cases step with
  | «open» free empty =>
    refine ⟨sound.graph, fun slot block found => ?_⟩
    rcases System.put_blocks found with ⟨rfl, here⟩ | there
    · cases here
      exact keeps.opens _ _ _ sound.graph empty
    · exact sound.blocks slot block there
  | call held ran =>
    refine ⟨sound.graph, fun slot block found => ?_⟩
    rcases System.put_blocks found with ⟨rfl, here⟩ | there
    · cases here
      -- the other slots are as they were, and so is the graph
      exact keeps.calls before _ _ _ _ _ permitted held sound.graph (sound.blocks _ _ held) ran
    · exact sound.blocks slot block there
  | @commit slot recordedAt source block held =>
    obtain ⟨folded, refused, split, committed⟩ :=
      before.append_spec recordedAt source block.buffer
    -- the slot is cleared, and the other blocks wait over the graph moved on
    refine ⟨keeps.folds _ _ _ _ _ _ _ _ permitted held split committed sound.graph
      (sound.blocks _ _ held), ?_⟩
    intro slot other found
    rcases System.put_blocks found with ⟨_, here⟩ | there
    · cases here
    · rw [System.append_blocks] at there
      exact keeps.commit committed (sound.blocks slot other there)
  | drop =>
    refine ⟨sound.graph, fun slot block found => ?_⟩
    rcases System.put_blocks found with ⟨_, here⟩ | there
    · cases here
    · exact sound.blocks slot block there
  | @append recordedAt source payloads =>
    obtain ⟨folded, refused, rfl, committed⟩ := before.append_spec recordedAt source payloads
    refine ⟨?_, fun slot other found => ?_⟩
    · exact keeps.appends _ _ _ _ _ _ _ permitted rfl committed sound.graph
    · rw [System.append_blocks] at found
      exact keeps.commit committed (sound.blocks slot other found)

theorem Keeps.run (keeps : Keeps permits holds ready) {moves : List System.Move}
    (run : Trace (fun one move other => System.Step one move other ∧ permits one move) before moves
      after)
    (sound : before.Sound holds ready) : after.Sound holds ready :=
  run.invariant (System.Sound holds ready)
    (fun _ _ _ ⟨step, permitted⟩ earlier => keeps.step step permitted earlier) sound

end Keeping

end Zuihitsu
