/-
# Sorting, filtering and keeping the last

A stable sort commutes with a filter, so a ranking drawn up after a filter does not
depend on what was filtered out. Keeping the last few of a list does not: a filter
applied before the cut admits older values in the place of those it drops, and agrees
with the cut list exactly when it drops none of them.

Two more ways to thin a list out follow: keeping the first value of each key, and taking
the last value of a preferred tier before the last of the other.
-/

import Mathlib.Data.List.Sort
import Mathlib.Order.Defs.Unbundled

namespace Zuihitsu.Library

section Ranking

variable {α β : Type} {ranks : α → α → Prop} [DecidableRel ranks]

/-- A filter drops the inserted value or inserts it among what it keeps. -/
theorem filter_orderedInsert [IsTrans α ranks] (keep : α → Bool) (value : α) {sorted : List α}
    (ordered : sorted.Pairwise ranks) :
    (sorted.orderedInsert ranks value).filter keep =
      if keep value then (sorted.filter keep).orderedInsert ranks value
      else sorted.filter keep := by
  induction sorted with
  | nil => cases kept : keep value <;> simp [kept]
  | cons first rest ih =>
    rw [List.pairwise_cons] at ordered
    by_cases leads : ranks value first
    · -- the value goes before all the rest, and so before what is kept of it
      have before : ∀ other ∈ (first :: rest).filter keep, ranks value other := by
        intro other member
        rcases List.mem_cons.mp (List.mem_filter.mp member).1 with rfl | later
        · exact leads
        · exact IsTrans.trans _ _ _ leads (ordered.1 other later)
      have front : ((first :: rest).filter keep).orderedInsert ranks value =
          value :: (first :: rest).filter keep := by
        cases kept : (first :: rest).filter keep with
        | nil => rfl
        | cons next others =>
          exact List.orderedInsert_cons_of_le _ _ (before next (kept ▸ List.mem_cons_self))
      rw [List.orderedInsert_cons_of_le _ _ leads, front]
      cases kept : keep value <;> simp [kept]
    · rw [List.orderedInsert_of_not_le _ _ leads, List.filter_cons, ih ordered.2]
      cases kept : keep value <;> cases first_kept : keep first <;>
        simp [first_kept, leads]

/-- A stable sort commutes with a filter. -/
theorem filter_insertionSort [IsTrans α ranks] [Std.Total ranks] (keep : α → Bool)
    (items : List α) :
    (items.insertionSort ranks).filter keep = (items.filter keep).insertionSort ranks := by
  induction items with
  | nil => rfl
  | cons first rest ih =>
    rw [List.insertionSort_cons, filter_orderedInsert keep first (List.pairwise_insertionSort _ _),
      ih]
    cases kept : keep first <;> simp [kept]

/-- A sort by a measure commutes with a filter. -/
theorem filter_insertionSort_by {γ : Type} [LinearOrder γ] (measure : α → γ) (keep : α → Bool)
    (items : List α) :
    (items.insertionSort fun first second => measure first ≤ measure second).filter keep =
      (items.filter keep).insertionSort fun first second => measure first ≤ measure second := by
  have ordered : IsTrans α fun first second => measure first ≤ measure second :=
    ⟨fun _ _ _ => le_trans⟩
  have total : Std.Total fun first second : α => measure first ≤ measure second :=
    ⟨fun _ _ => le_total _ _⟩
  exact filter_insertionSort keep items

end Ranking

section Places

variable {α : Type} {sorted : List α} {keep : α → Bool} {count : Nat}

/-- A filter that keeps all of the first few leaves them the first few. -/
theorem take_filter_of_forall (kept : ∀ value ∈ sorted.take count, keep value = true) :
    (sorted.filter keep).take count = sorted.take count := by
  induction sorted generalizing count with
  | nil => rfl
  | cons value rest ih =>
    cases count with
    | zero => rfl
    | succ =>
      rw [List.take_succ_cons, List.forall_mem_cons] at kept
      rw [List.filter_cons_of_pos kept.1, List.take_succ_cons, List.take_succ_cons, ih kept.2]

/-- A value among the first few has fewer before it. -/
theorem exists_split_of_mem_take {value : α} (member : value ∈ sorted.take count) :
    ∃ before after, sorted = before ++ value :: after ∧ before.length < count := by
  obtain ⟨before, between, split⟩ := List.append_of_mem member
  refine ⟨before, between ++ sorted.drop count, ?_, ?_⟩
  · conv_lhs => rw [← List.take_append_drop count sorted, split]
    simp
  · have length := congrArg List.length split
    simp only [List.length_take, List.length_append, List.length_cons] at length
    omega

/-- Before a value of a sorted list come all that are ranked before it. -/
theorem countP_lt_of_sorted {γ : Type} [LinearOrder γ] (measure : α → γ)
    {before after : List α} {value : α}
    (ordered : (before ++ value :: after).Pairwise fun first second =>
      measure first ≤ measure second) :
    (before ++ value :: after).countP (fun other => measure other < measure value) ≤
      before.length := by
  have later : (value :: after).countP (fun other => measure other < measure value) = 0 := by
    rw [List.countP_eq_zero]
    intro other member
    have behind := (List.pairwise_append.mp ordered).2.1
    rw [List.pairwise_cons] at behind
    rcases List.mem_cons.mp member with rfl | further
    · simp
    · simpa using behind.1 other further
  rw [List.countP_append, later, Nat.add_zero]
  exact List.countP_le_length

end Places

/-! ### The last of a list -/

section Last

variable {α β : Type} {count : Nat} {items : List α}

/-- The last few of a list. -/
def lastOf (count : Nat) (items : List α) : List α := items.drop (items.length - count)

theorem lastOf_map (kind : α → β) : lastOf count (items.map kind) = (lastOf count items).map kind := by
  simp [lastOf]

theorem mem_of_mem_lastOf {value : α} (member : value ∈ lastOf count items) : value ∈ items :=
  List.mem_of_mem_drop member

/-- A filter that drops none of the last few leaves them the last few. -/
theorem lastOf_filter {keep : α → Bool} (kept : ∀ value ∈ lastOf count items, keep value = true) :
    lastOf count (items.filter keep) = lastOf count items := by
  have parts : items.filter keep =
      (items.take (items.length - count)).filter keep ++ lastOf count items := by
    conv_lhs => rw [← List.take_append_drop (items.length - count) items]
    rw [List.filter_append]
    exact congrArg _ (List.filter_eq_self.mpr kept)
  by_cases short : items.length ≤ count
  · have all : lastOf count items = items := by simp [lastOf, Nat.sub_eq_zero_of_le short]
    rw [all] at kept ⊢
    rw [List.filter_eq_self.mpr kept, all]
  · have length : (lastOf count items).length = count := by
      simp only [lastOf, List.length_drop]
      omega
    rw [parts]
    unfold lastOf at length ⊢
    rw [List.length_append, length, Nat.add_sub_cancel, List.drop_left]

/-- A filter leaves the keys of the last few as they are exactly when it drops none of
them. -/
theorem keys_lastOf_filter_iff {key : α → β} {keep : α → Bool}
    (distinct : ∀ first ∈ items, ∀ second ∈ items, key first = key second → first = second) :
    (∀ name, name ∈ (lastOf count items).map key ↔
        name ∈ (lastOf count (items.filter keep)).map key) ↔
      ∀ value ∈ lastOf count items, keep value = true := by
  constructor
  · intro agree value member
    obtain ⟨other, kept, same⟩ := List.mem_map.mp ((agree (key value)).mp (List.mem_map_of_mem member))
    obtain ⟨among, keeps⟩ := List.mem_filter.mp (mem_of_mem_lastOf kept)
    rw [← distinct other among value (mem_of_mem_lastOf member) same]
    exact keeps
  · intro kept name
    rw [lastOf_filter kept]

/-- Among positions, a filter keeps the last few of the values it keeps. -/
theorem position_lastOf_iff {key : α → β} {keep : α → Bool} (distinct : (items.map key).Nodup)
    {place : α × Nat} (member : place ∈ items.zipIdx) :
    place.2 ∈ lastOf count ((items.zipIdx.filter fun place => keep place.1).map (·.2)) ↔
      key place.1 ∈ (lastOf count (items.filter keep)).map key := by
  have values : items.filter keep =
      (items.zipIdx.filter fun place => keep place.1).map (·.1) := by
    conv_lhs => rw [← List.zipIdx_map_fst 0 items]
    rw [List.filter_map]
    rfl
  rw [values, lastOf_map, lastOf_map, List.mem_map, List.map_map, List.mem_map]
  have at_ : items[place.2]? = some place.1 := List.mem_zipIdx_iff_getElem?.mp member
  constructor
  · rintro ⟨other, kept, same⟩
    have there : items[other.2]? = some other.1 :=
      List.mem_zipIdx_iff_getElem?.mp (List.mem_filter.mp (mem_of_mem_lastOf kept)).1
    refine ⟨other, kept, congrArg key ?_⟩
    rw [same, at_] at there
    exact (Option.some.inj there).symm
  · rintro ⟨other, kept, same⟩
    have there : items[other.2]? = some other.1 :=
      List.mem_zipIdx_iff_getElem?.mp (List.mem_filter.mp (mem_of_mem_lastOf kept)).1
    refine ⟨other, kept, ?_⟩
    -- one key, one position
    have bound := (List.getElem?_eq_some_iff.mp there).choose
    refine (List.getElem?_inj (by simpa using bound) distinct).mp ?_
    rw [List.getElem?_map, List.getElem?_map, there, at_]
    exact congrArg some same

end Last

/-! ### The first of each key -/

section Firsts

variable {α κ : Type} [DecidableEq κ] {key : α → κ} {seen : List κ} {items : List α}

/-- The first value of each key, past the keys that were seen before. -/
def firstsPast (key : α → κ) : List κ → List α → List α
  | _, [] => []
  | seen, value :: rest =>
    if key value ∈ seen then firstsPast key seen rest
    else value :: firstsPast key (key value :: seen) rest

/-- The first value of each key. -/
def firsts (key : α → κ) (items : List α) : List α := firstsPast key [] items

theorem firstsPast_sublist : (firstsPast key seen items).Sublist items := by
  induction items generalizing seen with
  | nil => exact List.Sublist.slnil
  | cons value rest ih =>
    unfold firstsPast
    split
    · exact ih.cons value
    · exact ih.cons_cons value

/-- The keys that are kept are those of the list that were not seen before. -/
theorem mem_keys_firstsPast {name : κ} :
    name ∈ (firstsPast key seen items).map key ↔ name ∈ items.map key ∧ name ∉ seen := by
  induction items generalizing seen with
  | nil => simp [firstsPast]
  | cons value rest ih =>
    unfold firstsPast
    split
    · rename_i again
      rw [ih]
      constructor
      · rintro ⟨later, unseen⟩
        exact ⟨List.mem_cons_of_mem _ later, unseen⟩
      · rintro ⟨here, unseen⟩
        rcases List.mem_cons.mp here with rfl | later
        · exact absurd again unseen
        · exact ⟨later, unseen⟩
    · rename_i new
      rw [List.map_cons, List.mem_cons, ih, List.map_cons, List.mem_cons, List.mem_cons]
      constructor
      · rintro (rfl | ⟨later, unseen⟩)
        · exact ⟨.inl rfl, new⟩
        · exact ⟨.inr later, fun before => unseen (.inr before)⟩
      · rintro ⟨here, unseen⟩
        by_cases first : name = key value
        · exact .inl first
        · exact .inr ⟨here.resolve_left first, fun before => before.elim first unseen⟩

/-- A value is kept for every key of the list. -/
theorem mem_keys_firsts {name : κ} : name ∈ (firsts key items).map key ↔ name ∈ items.map key := by
  simp [firsts, mem_keys_firstsPast]

theorem mem_of_mem_firsts {value : α} (member : value ∈ firsts key items) : value ∈ items :=
  firstsPast_sublist.subset member

end Firsts

/-! ### The order in which keys come first -/

section Leading

variable {α κ : Type} [DecidableEq κ] {key : α → κ} {seen : List κ} {items : List α} {one two : κ}

/-- Whether a value is of one of two keys. -/
def eitherKey (key : α → κ) (one two : κ) (value : α) : Bool := key value = one || key value = two

/-- Whether the first value of either of two keys is of the first. With one key twice, whether
there is a value of it. -/
def leads (key : α → κ) (items : List α) (one two : κ) : Bool :=
  (items.find? (eitherKey key one two)).any fun value => key value = one

end Leading

/-! ### The latest of a preferred tier -/

section Tiers

variable {α β : Type} {read : α → Option (Bool × β)} {items : List α} {value : β}

/-- Put a reading in the place of its tier. -/
def placeTier (read : α → Option (Bool × β)) (held : Option β × Option β) (item : α) :
    Option β × Option β :=
  match read item with
  | some (true, value) => (some value, held.2)
  | some (false, value) => (held.1, some value)
  | none => held

/-- The last reading of the preferred tier, or else of the other. -/
def latestPreferred (read : α → Option (Bool × β)) (items : List α) : Option β :=
  let held := items.foldl (placeTier read) (none, none)
  held.1.or held.2

/-- Whatever a fold holds of a tier it began with or read off an item. -/
theorem foldl_placeTier_mem {held : Option β × Option β} :
    (∀ value, (items.foldl (placeTier read) held).1 = some value →
      held.1 = some value ∨ ∃ item ∈ items, read item = some (true, value)) ∧
    ∀ value, (items.foldl (placeTier read) held).2 = some value →
      held.2 = some value ∨ ∃ item ∈ items, read item = some (false, value) := by
  induction items generalizing held with
  | nil => exact ⟨fun _ => .inl, fun _ => .inl⟩
  | cons item rest ih =>
    obtain ⟨first, second⟩ := @ih (placeTier read held item)
    constructor
    · intro value holds
      rcases first value holds with begun | ⟨other, later, reads⟩
      · unfold placeTier at begun
        split at begun
        · rename_i here
          cases begun
          exact .inr ⟨item, List.mem_cons_self, here⟩
        · exact .inl begun
        · exact .inl begun
      · exact .inr ⟨other, List.mem_cons_of_mem _ later, reads⟩
    · intro value holds
      rcases second value holds with begun | ⟨other, later, reads⟩
      · unfold placeTier at begun
        split at begun
        · exact .inl begun
        · rename_i here
          cases begun
          exact .inr ⟨item, List.mem_cons_self, here⟩
        · exact .inl begun
      · exact .inr ⟨other, List.mem_cons_of_mem _ later, reads⟩

/-- A preferred reading is held once one has been read. -/
theorem foldl_placeTier_isSome {held : Option β × Option β}
    (reads : held.1.isSome = true ∨ ∃ item ∈ items, ∃ value, read item = some (true, value)) :
    (items.foldl (placeTier read) held).1.isSome = true := by
  induction items generalizing held with
  | nil => simpa using reads
  | cons item rest ih =>
    refine ih ?_
    rcases reads with before | ⟨other, member, value, reads⟩
    · refine .inl ?_
      unfold placeTier
      split
      · rfl
      · exact before
      · exact before
    · rcases List.mem_cons.mp member with rfl | later
      · exact .inl (by rw [placeTier, reads]; rfl)
      · exact .inr ⟨other, later, value, reads⟩

/-- Where a preferred reading is to be had, the latest is one. -/
theorem latestPreferred_preferred (found : latestPreferred read items = some value)
    (reads : ∃ item ∈ items, ∃ other, read item = some (true, other)) :
    ∃ item ∈ items, read item = some (true, value) := by
  have held := @foldl_placeTier_isSome _ _ read items (none, none) (.inr reads)
  obtain ⟨kept, holds⟩ := Option.isSome_iff_exists.mp held
  rw [latestPreferred, holds, Option.some_or, Option.some.injEq] at found
  subst found
  exact (foldl_placeTier_mem.1 kept holds).resolve_left nofun

end Tiers

end Zuihitsu.Library
