/-
# The console's replica

The console folds the log it was served through the agent's own materializer. A
replica holds the events, drops what is delivered again, and folds up to a horizon
that need not be its last event. Fed stretches of a committed log that leave no
gap, it holds a front of that log, whatever their order and overlap.
-/

import Zuihitsu.Search.CatchUp

namespace Zuihitsu.Console

open Zuihitsu.Core Zuihitsu.Graph Zuihitsu.Library Zuihitsu.Search

/-- What a server has committed: a numbered log and the graph it folds to. -/
structure Committed where
  log : List Event
  graph : Graph
  numbered : Numbered 0 log
  folded : foldLog apply log Graph.fresh = .ok graph

/-- Nothing committed. -/
def Committed.fresh : Committed := ⟨[], Graph.fresh, trivial, rfl⟩

/-- The events of a log and the graph of those up to a horizon. -/
structure Replica where
  events : List Event
  graph : Graph
  head : Nat

/-- The position of the last event of a log. -/
def headSeq (events : List Event) : Nat := (events.getLast?.map (·.seq)).getD 0

/-- Events by position, those of one position in the order given. -/
def sortBySeq (events : List Event) : List Event :=
  events.mergeSort fun first second => decide (first.seq ≤ second.seq)

/-- Rebuild the graph from the events up to a horizon. -/
def Replica.foldThrough (upTo : Nat) (replica : Replica) : Except Violation Replica :=
  match foldLog apply (replica.events.filter (·.seq ≤ upTo)) Graph.fresh with
  | .error violation => .error violation
  | .ok graph => .ok { replica with graph, head := upTo }

/-- A replica of a log, folded to its head. -/
def Replica.new (events : List Event) : Except Violation Replica :=
  Replica.foldThrough (headSeq (sortBySeq events)) ⟨sortBySeq events, Graph.fresh, 0⟩

/-- Take a tail, without what is at or below the head. -/
def Replica.append (incoming : List Event) (replica : Replica) : Replica :=
  { replica with
    events := replica.events ++
      sortBySeq (incoming.filter fun event => decide (headSeq replica.events < event.seq)) }

/-! ### Fronts of a committed log -/

section Fronts

variable {log : List Event} {after : Nat}

theorem pairwise_of_numbered (numbered : Numbered after log) :
    log.Pairwise (fun first second => first.seq ≤ second.seq) := by
  induction log generalizing after with
  | nil => exact .nil
  | cons first rest ih =>
    refine .cons ?_ (ih numbered.2)
    intro later member
    have bounds := numbered_bounds numbered.2 later member
    omega

theorem sortBySeq_of_sublist (numbered : Numbered after log) {part : List Event}
    (kept : part.Sublist log) : sortBySeq part = part := by
  refine List.mergeSort_of_pairwise ?_
  exact ((pairwise_of_numbered numbered).sublist kept).imp fun ordered => decide_eq_true ordered

theorem headSeq_of_numbered (numbered : Numbered 0 log) : headSeq log = log.length := by
  cases last : log.getLast? with
  | none =>
    rw [List.getLast?_eq_none_iff] at last
    subst last
    rfl
  | some =>
    have stands := last
    rw [List.getLast?_eq_getElem?] at stands
    have position := seq_of_numbered numbered stands
    have some' : log ≠ [] := by
      rintro rfl
      simp at last
    have := List.length_pos_iff.mpr some'
    rw [headSeq, last]
    simp only [Option.map_some, Option.getD_some]
    omega

theorem filter_front (numbered : Numbered 0 log) (front upTo : Nat) :
    (log.take front).filter (fun event => event.seq ≤ upTo) = log.take (min front upTo) := by
  have same := filter_upTo (numbered_take numbered front) upTo
  rw [Nat.zero_add, List.take_take, Nat.min_comm] at same
  exact same

theorem headSeq_take (numbered : Numbered 0 log) {front : Nat} (within : front ≤ log.length) :
    headSeq (log.take front) = front := by
  rw [headSeq_of_numbered (numbered_take numbered front), List.length_take,
    Nat.min_eq_left within]

theorem readFrom_take (numbered : Numbered 0 log) (position upTo : Nat) :
    readFrom (log.take upTo) (position + 1) = (log.take upTo).drop position := by
  have read := readFrom_eq_drop (numbered_take numbered upTo) position
  rwa [Nat.zero_add] at read

theorem readFrom_zero (log : List Event) : readFrom log 0 = log := by
  rw [readFrom, List.filter_eq_self]
  intro event _
  simp

theorem filter_past (numbered : Numbered 0 log) {front position : Nat} (joins : position ≤ front)
    (upTo : Nat) :
    ((log.take upTo).drop position).filter (fun event => decide (front < event.seq)) =
      (log.take upTo).drop front := by
  have past := readFrom_take numbered front upTo
  have served := readFrom_take numbered position upTo
  rw [← served, ← past, readFrom, readFrom, List.filter_filter]
  congr 1
  funext event
  rw [← Bool.decide_and, decide_eq_decide]
  omega

theorem take_append_stretch {front upTo : Nat} :
    log.take front ++ (log.take upTo).drop front = log.take (max front upTo) := by
  rcases Nat.le_total front upTo with ahead | behind
  · have short := List.take_append_drop front (log.take upTo)
    rw [Nat.max_eq_right ahead]
    rwa [List.take_take, Nat.min_eq_left ahead] at short
  · rw [Nat.max_eq_left behind, List.drop_of_length_le, List.append_nil]
    exact (List.length_take_le upTo log).trans behind

end Fronts

namespace Committed

variable {server : Committed} {replica : Replica} {front upTo : Nat}

theorem exists_foldLog_take (server : Committed) (front : Nat) :
    ∃ graph, foldLog apply (server.log.take front) Graph.fresh = .ok graph := by
  have folded := server.folded
  rw [← List.take_append_drop front server.log] at folded
  obtain ⟨graph, earlier, _⟩ := foldLog_append_ok.mp folded
  exact ⟨graph, earlier⟩

theorem exists_foldThrough (holds : replica.events = server.log.take front) (upTo : Nat) :
    ∃ graph, replica.foldThrough upTo = .ok { replica with graph, head := upTo } ∧
      foldLog apply (server.log.take (min front upTo)) Graph.fresh = .ok graph := by
  obtain ⟨graph, folds⟩ := server.exists_foldLog_take (min front upTo)
  refine ⟨graph, ?_, folds⟩
  rw [Replica.foldThrough, holds, filter_front server.numbered, folds]

theorem exists_new (within : upTo ≤ server.log.length) :
    ∃ graph, Replica.new (server.log.take upTo) = .ok ⟨server.log.take upTo, graph, upTo⟩ ∧
      foldLog apply (server.log.take upTo) Graph.fresh = .ok graph := by
  have sorted := sortBySeq_of_sublist server.numbered (List.take_sublist upTo server.log)
  obtain ⟨graph, folds, same⟩ :=
    @exists_foldThrough server ⟨server.log.take upTo, Graph.fresh, 0⟩ upTo rfl upTo
  rw [Nat.min_self] at same
  refine ⟨graph, ?_, same⟩
  rw [Replica.new, sorted, headSeq_take server.numbered within, folds]

theorem append_events (holds : replica.events = server.log.take front)
    (within : front ≤ server.log.length) {position : Nat} (joins : position ≤ front) (upTo : Nat) :
    (replica.append ((server.log.take upTo).drop position)).events =
      server.log.take (max front upTo) := by
  have part : ((server.log.take upTo).drop front).Sublist server.log :=
    (List.drop_sublist _ _).trans (List.take_sublist _ _)
  simp only [Replica.append]
  rw [holds, headSeq_take server.numbered within, filter_past server.numbered joins,
    sortBySeq_of_sublist server.numbered part, take_append_stretch]

end Committed

end Zuihitsu.Console
