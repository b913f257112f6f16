/-
# Union-find without path compression

A forest of parent pointers. `find` follows the pointers to a root and `unite`
points one root at the other. Each edge lengthens a path by at most one step, so
a search needs no more steps than edges were united. After any list of edges,
two elements have the same root exactly when the edges connect them.
-/

import Mathlib.Data.List.Basic
import Mathlib.Logic.Relation
import Mathlib.Logic.Function.Basic

namespace Zuihitsu.Library.UnionFind

variable {α : Type} [DecidableEq α]

/-- Follow parent pointers to a root, for at most `fuel` steps. -/
def find (parent : α → α) : Nat → α → α
  | 0, start => start
  | fuel + 1, start => if parent start = start then start else find parent fuel (parent start)

/-- Point the root of the edge's source at the root of its target. -/
def unite (fuel : Nat) (parent : α → α) (edge : α × α) : α → α :=
  let source := find parent fuel edge.1
  let target := find parent fuel edge.2
  if source ≠ target then Function.update parent source target else parent

/-- The forest after uniting a list of edges, from singletons. -/
def forest (fuel : Nat) (edges : List (α × α)) : α → α :=
  edges.foldl (unite fuel) id

/-- Every search of `fuel` steps ends at a root. -/
def Settled (parent : α → α) (fuel : Nat) : Prop :=
  ∀ start, parent (find parent fuel start) = find parent fuel start

theorem find_of_root {parent : α → α} {start : α} (root : parent start = start) (fuel : Nat) :
    find parent fuel start = start := by
  cases fuel with
  | zero => rfl
  | succ => rw [find, if_pos root]

/-- More steps change nothing once a search ends at a root. -/
theorem find_add {parent : α → α} {fuel : Nat} {start : α}
    (root : parent (find parent fuel start) = find parent fuel start) (extra : Nat) :
    find parent (fuel + extra) start = find parent fuel start := by
  induction fuel generalizing start with
  | zero => exact find_of_root root _
  | succ fuel ih =>
    rw [Nat.succ_add, find, find]
    by_cases here : parent start = start
    · rw [if_pos here, if_pos here]
    · rw [if_neg here, if_neg here]
      rw [find, if_neg here] at root
      exact ih root

theorem Settled.find_le {parent : α → α} {fuel more : Nat} (settled : Settled parent fuel)
    (enough : fuel ≤ more) (start : α) : find parent more start = find parent fuel start := by
  obtain ⟨extra, rfl⟩ := Nat.exists_eq_add_of_le enough
  exact find_add (settled start) extra

/-- After one root is pointed at another, a search that ended at the first ends
at the second, and every other search ends where it did. -/
theorem find_update {parent : α → α} {source target : α} (sourceRoot : parent source = source)
    (targetRoot : parent target = target) (distinct : source ≠ target) {fuel : Nat} {start : α}
    (root : parent (find parent fuel start) = find parent fuel start) :
    find (Function.update parent source target) (fuel + 1) start =
      if find parent fuel start = source then target else find parent fuel start := by
  have targetStays : Function.update parent source target target = target := by
    rw [Function.update_of_ne distinct.symm, targetRoot]
  induction fuel generalizing start with
  | zero =>
    simp only [find] at root ⊢
    by_cases same : start = source
    · subst same
      simp [Ne.symm distinct]
    · simp [same, root]
  | succ fuel ih =>
    by_cases here : parent start = start
    · rw [find_of_root here]
      by_cases same : start = source
      · subst same
        rw [find, Function.update_self, if_neg distinct.symm, if_pos rfl]
        exact find_of_root targetStays _
      · rw [if_neg same]
        exact find_of_root (by rw [Function.update_of_ne same, here]) _
    · have notSource : start ≠ source := by
        rintro rfl
        exact here sourceRoot
      rw [find, Function.update_of_ne notSource, if_neg here]
      have below : find parent (fuel + 1) start = find parent fuel (parent start) := by
        rw [find, if_neg here]
      rw [below] at root ⊢
      exact ih root

/-- The root function after one more edge. -/
theorem find_unite {parent : α → α} {fuel depth : Nat} (settled : Settled parent depth)
    (enough : depth ≤ fuel) (edge : α × α) (start : α) :
    find (unite fuel parent edge) (depth + 1) start =
      if find parent depth start = find parent depth edge.1 then find parent depth edge.2
      else find parent depth start := by
  simp only [unite, settled.find_le enough]
  by_cases same : find parent depth edge.1 = find parent depth edge.2
  · rw [if_neg (not_not_intro same), settled.find_le (Nat.le_succ depth)]
    split
    · rename_i here
      rw [here, same]
    · rfl
  · rw [if_pos same]
    exact find_update (settled edge.1) (settled edge.2) same (settled start)

theorem settled_unite {parent : α → α} {fuel depth : Nat} (settled : Settled parent depth)
    (enough : depth ≤ fuel) (edge : α × α) :
    Settled (unite fuel parent edge) (depth + 1) := by
  intro start
  have rootOf : ∀ other, parent other = other → find parent depth other ≠ find parent depth edge.1 →
      unite fuel parent edge other = other := by
    intro other root different
    rw [find_of_root root] at different
    simp only [unite, settled.find_le enough]
    split
    · rw [Function.update_of_ne different, root]
    · exact root
  rw [find_unite settled enough]
  split
  · rename_i here
    by_cases same : find parent depth edge.1 = find parent depth edge.2
    · simp only [unite, settled.find_le enough, if_neg (not_not_intro same)]
      exact settled edge.2
    · apply rootOf _ (settled edge.2)
      rw [find_of_root (settled edge.2)]
      exact Ne.symm same
  · rename_i different
    apply rootOf _ (settled start)
    rw [find_of_root (settled start)]
    exact different

theorem settled_id : Settled (id : α → α) 0 := fun _ => rfl

/-- Two elements joined by one of the edges. -/
def Edge (edges : List (α × α)) (first second : α) : Prop := (first, second) ∈ edges

/-- Two elements the edges connect, in either direction. -/
def Connected (edges : List (α × α)) : α → α → Prop := Relation.EqvGen (Edge edges)

omit [DecidableEq α] in
theorem Connected.mono {edges more : List (α × α)} (sub : ∀ edge ∈ edges, edge ∈ more)
    {first second : α} (connected : Connected edges first second) :
    Connected more first second :=
  Relation.EqvGen.mono (fun one other => sub (one, other)) first second connected

omit [DecidableEq α] in
/-- What some edges connect, others that connect the ends of each do too. -/
theorem Connected.of_edges {edges more : List (α × α)}
    (each : ∀ edge ∈ edges, Connected more edge.1 edge.2) {first second : α}
    (connected : Connected edges first second) : Connected more first second := by
  induction connected with
  | rel one other member => exact each (one, other) member
  | refl => exact .refl _
  | symm _ _ _ ih => exact ih.symm
  | trans _ _ _ _ _ firstIh secondIh => exact firstIh.trans _ _ _ secondIh

omit [DecidableEq α] in
/-- A value that agrees along every edge agrees on connected elements. -/
theorem Connected.value_eq {β : Type} {edges : List (α × α)} {value : α → β}
    (along : ∀ edge ∈ edges, value edge.1 = value edge.2) {first second : α}
    (connected : Connected edges first second) : value first = value second := by
  induction connected with
  | rel one other member => exact along (one, other) member
  | refl => rfl
  | symm _ _ _ ih => exact ih.symm
  | trans _ _ _ _ _ firstIh secondIh => exact firstIh.trans secondIh

omit [DecidableEq α] in
theorem connected_nil_iff {first second : α} : Connected [] first second ↔ first = second := by
  constructor
  · intro connected
    have same : id first = id second := connected.value_eq (by simp)
    exact same
  · rintro rfl
    exact .refl _

/-- The forest of `edges` extended by `more` edges: settled, and with roots that
agree exactly on what all the edges connect. -/
theorem foldl_unite (fuel : Nat) (more edges : List (α × α)) (parent : α → α)
    (enough : edges.length + more.length ≤ fuel) (settled : Settled parent edges.length)
    (roots : ∀ first second, find parent edges.length first = find parent edges.length second ↔
      Connected edges first second) :
    Settled (more.foldl (unite fuel) parent) (edges.length + more.length) ∧
      ∀ first second,
        find (more.foldl (unite fuel) parent) (edges.length + more.length) first =
          find (more.foldl (unite fuel) parent) (edges.length + more.length) second ↔
        Connected (edges ++ more) first second := by
  induction more generalizing edges parent with
  | nil => simpa using ⟨settled, roots⟩
  | cons edge rest ih =>
    simp only [List.length_cons] at enough
    have reach : edges.length ≤ fuel := by omega
    have grown : (edges ++ [edge]).length = edges.length + 1 := by simp
    have next := ih (edges ++ [edge]) (unite fuel parent edge) (by rw [grown]; omega)
      (by rw [grown]; exact settled_unite settled reach edge) ?_
    · rw [grown, List.append_assoc, List.singleton_append, Nat.add_assoc,
        Nat.add_comm 1 rest.length] at next
      exact next
    · intro first second
      rw [grown, find_unite settled reach, find_unite settled reach]
      have old : ∀ {one other}, Connected edges one other → Connected (edges ++ [edge]) one other :=
        fun connected => connected.mono fun _ member => List.mem_append_left _ member
      have new : Connected (edges ++ [edge]) edge.1 edge.2 :=
        .rel _ _ (List.mem_append_right _ (List.mem_singleton.mpr rfl))
      constructor
      · intro same
        by_cases firstHere : find parent edges.length first = find parent edges.length edge.1 <;>
          by_cases secondHere : find parent edges.length second = find parent edges.length edge.1
        · exact old ((roots _ _).mp (firstHere.trans secondHere.symm))
        · rw [if_pos firstHere, if_neg secondHere] at same
          exact (old ((roots _ _).mp firstHere)).trans _ _ _
            (new.trans _ _ _ (old ((roots _ _).mp same)))
        · rw [if_neg firstHere, if_pos secondHere] at same
          exact (old ((roots _ _).mp same)).trans _ _ _
            ((new.symm _ _).trans _ _ _ (old ((roots _ _).mp secondHere.symm)))
        · rw [if_neg firstHere, if_neg secondHere] at same
          exact old ((roots _ _).mp same)
      · apply Connected.value_eq
        intro other member
        rcases List.mem_append.mp member with earlier | last
        · rw [(roots other.1 other.2).mpr (.rel _ _ earlier)]
        · cases List.mem_singleton.mp last
          rw [if_pos rfl, ite_self]

variable (edges : List (α × α)) {fuel : Nat}

private theorem forest_spec (enough : edges.length ≤ fuel) :
    Settled (forest fuel edges) edges.length ∧ ∀ first second,
      find (forest fuel edges) edges.length first = find (forest fuel edges) edges.length second ↔
        Connected edges first second := by
  have built := foldl_unite fuel edges [] id (by simpa using enough) settled_id
    (fun _ _ => connected_nil_iff.symm)
  simp only [List.length_nil, Nat.zero_add, List.nil_append] at built
  exact built

/-- Roots agree exactly on connected elements. -/
theorem find_forest_eq_iff (enough : edges.length ≤ fuel) (first second : α) :
    find (forest fuel edges) fuel first = find (forest fuel edges) fuel second ↔
      Connected edges first second := by
  have settled := (forest_spec edges enough).1
  rw [settled.find_le enough, settled.find_le enough]
  exact (forest_spec edges enough).2 first second

/-- What one more edge connects was connected before, or is joined by it, one way or the
other. -/
theorem connected_concat {one two first second : α}
    (connected : Connected (edges ++ [(one, two)]) first second) :
    Connected edges first second ∨ (Connected edges first one ∧ Connected edges two second) ∨
      (Connected edges first two ∧ Connected edges one second) := by
  have roots : ∀ first second, find (forest edges.length edges) edges.length first =
      find (forest edges.length edges) edges.length second ↔ Connected edges first second :=
    find_forest_eq_iff edges (Nat.le_refl _)
  generalize find (forest edges.length edges) edges.length = root at roots
  -- the roots once the new edge has joined two of them
  let joined (element : α) : α := if root element = root one then root two else root element
  have along : ∀ edge ∈ edges ++ [(one, two)], joined edge.1 = joined edge.2 := by
    intro edge member
    rcases List.mem_append.mp member with earlier | last
    · simp only [joined, (roots edge.1 edge.2).mpr (.rel _ _ earlier)]
    · cases List.mem_singleton.mp last
      simp only [joined, if_true, ite_self]
  have same : joined first = joined second := connected.value_eq along
  simp only [← roots]
  simp only [joined] at same
  split at same
  · rename_i here
    split at same
    · rename_i there
      exact .inl (here.trans there.symm)
    · exact .inr (.inl ⟨here, same⟩)
  · split at same
    · rename_i there
      exact .inr (.inr ⟨same, there.symm⟩)
    · exact .inl same

end Zuihitsu.Library.UnionFind
