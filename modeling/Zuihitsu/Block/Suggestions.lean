/-
# Names suggested for one that is taken

A collision lists the handles nearest to the attempted one. The candidates are read by two
ranges of the name index, one for each case of the first letter, and most are dropped before
their distance is computed; what is listed is what a reader of every name would list. Only a
subject without a first letter is looked up otherwise, by a pattern that ignores case.
-/

import Zuihitsu.Core.Text
import Zuihitsu.Graph.Reachable
import Zuihitsu.Graph.Reads
import Zuihitsu.Library.Edits
import Zuihitsu.Library.Ranking
import Mathlib.Data.Char
import Mathlib.Data.List.Infix
import Mathlib.Data.List.Lex
import Mathlib.Data.List.TakeWhile
import Mathlib.Data.Prod.Lex

namespace Zuihitsu

open Zuihitsu.Core Zuihitsu.Library

namespace Graph

/-! ### Names by a leading part -/

/-- The character of a code, if it is a scalar value. -/
def charFromU32 (code : Nat) : Option Char :=
  if valid : code.isValidChar then some (Char.ofNatAux code valid) else none

/-- The next scalar value, past the surrogates. -/
def nextScalar (char : Char) : Option Char :=
  let code := char.toNat + 1
  charFromU32 (if 0xD800 ≤ code ∧ code ≤ 0xDFFF then 0xE000 else code)

/-- The upper end of a range, from the characters in reverse. -/
def rangeEndBack : List Char → Option (List Char)
  | [] => none
  | last :: rest =>
    match nextScalar last with
    | some next => some (rest.reverse ++ [next])
    | none => rangeEndBack rest

/-- The exclusive upper end of the range of the texts with a leading part. -/
def prefixRangeEnd (leading : List Char) : Option (List Char) := rangeEndBack leading.reverse

/-- The names of live memories. -/
def liveNames (graph : Graph) : List MemoryName :=
  (graph.memories.rows.filter (!·.deleted)).map (·.name)

/-- Names in the order of the index. -/
def byName (names : List MemoryName) : List MemoryName :=
  names.insertionSort fun first second => first.text.toList ≤ second.text.toList

/-- The names of live memories with a leading part. -/
def memoryNamesWithPrefix (graph : Graph) (leading : List Char) : List MemoryName :=
  match prefixRangeEnd leading with
  | some past => byName (graph.liveNames.filter fun name =>
      leading ≤ name.text.toList ∧ name.text.toList < past)
  | none => (byName (graph.liveNames.filter fun name => leading ≤ name.text.toList)).filter
      fun name => leading.isPrefixOf name.text.toList

/-- The LIKE operator of the database, which ignores the case of ASCII letters. -/
def like : List Char → List Char → Bool
  | [], text => text.isEmpty
  | expected :: pattern, text =>
    if expected = '%' then text.tails.any (like pattern)
    else
      match text with
      | [] => false
      | char :: rest =>
        (expected = '_' || asciiLower expected = asciiLower char) && like pattern rest

/-- The live memories of a namespace. -/
def memoriesInNamespace (graph : Graph) (leading : List Char) : List MemoryView :=
  ((graph.memories.rows.filter fun row =>
      like (leading ++ ['%']) row.name.text.toList && !row.deleted).insertionSort
    fun first second => first.name.text.toList ≤ second.name.text.toList).map
      (assembleMemory graph)

end Graph

namespace Suggest

open Zuihitsu.Graph

/-! ### Ranking candidates -/

def maxSuggestions : Nat := 5

def minSharedPrefix : Nat := 3

def maxEditDistance : Nat := 2

/-- Equality of texts but for the case of ASCII letters. -/
def eqIgnoreAsciiCase (one other : List Char) : Bool :=
  one.map asciiLower = other.map asciiLower

/-- How many leading characters two texts share, whatever their case. -/
def sharedPrefixLen (one other : List Char) : Nat :=
  ((one.zip other).takeWhile fun pair => asciiLower pair.1 = asciiLower pair.2).length

/-- The edit distance of two texts. -/
def editDistance (one other : List Char) : Nat :=
  if one.isEmpty then other.length
  else if other.isEmpty then one.length
  else (fillRows other 0 (List.range (other.length + 1)) one).getLast?.getD 0

/-- A candidate with what it is ranked by. -/
structure Ranked (T : Type) where
  shared : Nat
  distance : Nat
  key : List Char
  item : T

/-- The order candidates are listed in. -/
def Ranked.place {T : Type} (ranked : Ranked T) : ℕᵒᵈ ×ₗ ℕ ×ₗ List Char :=
  toLex (OrderDual.toDual ranked.shared, toLex (ranked.distance, ranked.key))

/-- Rank a candidate, unless it is not near. -/
def rank {T : Type} (attempted : List Char) (candidate : List Char × T) : Option (Ranked T) :=
  let key := candidate.1
  let minPrefix := min attempted.length minSharedPrefix
  if eqIgnoreAsciiCase key attempted then none
  else
    let shared := sharedPrefixLen attempted key
    if shared < minPrefix ∧ (shared = 0 ∨
        maxEditDistance < max (attempted.length - key.length) (key.length - attempted.length)) then
      none
    else
      let distance := editDistance attempted key
      if minPrefix ≤ shared ∨ (distance ≤ maxEditDistance ∧ 1 ≤ shared) then
        some ⟨shared, distance, key, candidate.2⟩
      else none

/-- The nearest candidates, closest first. -/
def mostSimilar {T : Type} (attempted : List Char) (candidates : List (List Char × T)) : List T :=
  (((candidates.filterMap (rank attempted)).insertionSort
    fun first second => first.place ≤ second.place).take maxSuggestions).map (·.item)

/-- The names read for a subject in a namespace. -/
def fetchNames (graph : Graph) (leading subject : List Char) : List MemoryName :=
  match subject.head? with
  | some first =>
    let lower := asciiLower first
    let upper := asciiUpper first
    graph.memoryNamesWithPrefix (leading ++ [lower]) ++
      if upper ≠ lower then graph.memoryNamesWithPrefix (leading ++ [upper]) else []
  | none => (graph.memoriesInNamespace leading).map (·.name)

/-- A name as a candidate, by its subject. -/
def candidate (leading : String) (name : MemoryName) : List Char × MemoryName :=
  (((stripLeading leading name.text).getD name.text).toList, name)

/-- The near-matching handles in the namespace of an attempted one. -/
def similarNames (graph : Graph) (attempted : MemoryName) : List MemoryName :=
  match attempted.namespaced with
  | none => []
  | some named =>
    let leading := named.namespaceOf.handlePrefix
    mostSimilar named.subject.toList
      ((fetchNames graph leading.toList named.subject.toList).map (candidate leading))

/-! ### The plain definition -/

/-- Whether a key is near an attempted one. -/
def Near (attempted key : List Char) : Prop :=
  eqIgnoreAsciiCase key attempted = false ∧
    (min minSharedPrefix attempted.length ≤ sharedPrefixLen attempted key ∨
      Library.distance attempted key ≤ maxEditDistance ∧ 1 ≤ sharedPrefixLen attempted key)

instance (attempted key : List Char) : Decidable (Near attempted key) :=
  inferInstanceAs (Decidable (_ ∧ _))

/-- Where a key comes: by the run it shares, then by its distance, then by itself. -/
def placeOf (attempted key : List Char) : ℕᵒᵈ ×ₗ ℕ ×ₗ List Char :=
  toLex (OrderDual.toDual (sharedPrefixLen attempted key),
    toLex (Library.distance attempted key, key))

/-- The subjects in a namespace, each with its name. -/
def subjectsOf (leading : String) (names : List MemoryName) : List (List Char × MemoryName) :=
  names.filterMap fun name =>
    (stripLeading leading name.text).map fun subject => (subject.toList, name)

/-- The nearest handles of a namespace among all names. -/
def nearest (leading : String) (subject : List Char) (names : List MemoryName) :
    List MemoryName :=
  (((((subjectsOf leading names).filter fun entry => Near subject entry.1).insertionSort
    fun first second => placeOf subject first.1 ≤ placeOf subject second.1).take
      maxSuggestions).map (·.2))

/-- The near-matching handles, by reading every live name. -/
def plainSimilarNames (graph : Graph) (attempted : MemoryName) : List MemoryName :=
  match attempted.namespaced with
  | none => []
  | some named => nearest named.namespaceOf.handlePrefix named.subject.toList graph.liveNames

end Suggest

/-! ### The range of a leading part -/

namespace Graph

theorem toNat_of_charFromU32 {code : Nat} {char : Char} (scalar : charFromU32 code = some char) :
    char.toNat = code := by
  by_cases valid : code.isValidChar
  · rw [charFromU32, dif_pos valid] at scalar
    cases scalar
    rfl
  · rw [charFromU32, dif_neg valid] at scalar
    cases scalar

theorem lt_nextScalar {char next other : Char} (found : nextScalar char = some next) :
    other < next ↔ other ≤ char := by
  have code := toNat_of_charFromU32 found
  have valid : other.toNat < 0xD800 ∨ 0xDFFF < other.toNat ∧ other.toNat < 0x110000 := other.valid
  have own : char.toNat < 0xD800 ∨ 0xDFFF < char.toNat ∧ char.toNat < 0x110000 := char.valid
  rw [Char.lt_def, Char.le_def, UInt32.lt_iff_toNat_lt, UInt32.le_iff_toNat_le]
  change other.toNat < next.toNat ↔ other.toNat ≤ char.toNat
  rw [code]
  split_ifs <;> omega

theorem le_of_nextScalar {char other : Char} (last : nextScalar char = none) : other ≤ char := by
  have valid : other.toNat < 0xD800 ∨ 0xDFFF < other.toNat ∧ other.toNat < 0x110000 := other.valid
  have own : char.toNat < 0xD800 ∨ 0xDFFF < char.toNat ∧ char.toNat < 0x110000 := char.valid
  rw [Char.le_def, UInt32.le_iff_toNat_le]
  change other.toNat ≤ char.toNat
  have invalid : ¬(if 0xD800 ≤ char.toNat + 1 ∧ char.toNat + 1 ≤ 0xDFFF then 0xE000
      else char.toNat + 1).isValidChar := by
    intro scalar
    rw [nextScalar, charFromU32, dif_pos scalar] at last
    cases last
  unfold Nat.isValidChar at invalid
  split_ifs at invalid <;> omega

theorem rangeEndBack_concat (back : List Char) (first : Char) :
    rangeEndBack (back ++ [first]) =
      match rangeEndBack back with
      | some past => some (first :: past)
      | none => (nextScalar first).map ([·]) := by
  induction back with
  | nil => cases next : nextScalar first <;> simp [rangeEndBack, next]
  | cons last rest ih => cases next : nextScalar last <;> simp [rangeEndBack, next, ih]

theorem prefixRangeEnd_cons (first : Char) (rest : List Char) :
    prefixRangeEnd (first :: rest) =
      match prefixRangeEnd rest with
      | some past => some (first :: past)
      | none => (nextScalar first).map ([·]) := by
  rw [prefixRangeEnd, List.reverse_cons, rangeEndBack_concat]
  rfl

theorem cons_le_cons (first other : Char) (rest text : List Char) :
    first :: rest ≤ other :: text ↔ first < other ∨ first = other ∧ rest ≤ text := by
  rw [← not_lt, List.cons_lt_cons_iff, ← not_lt]
  grind

theorem not_cons_le_nil (first : Char) (rest : List Char) : ¬first :: rest ≤ [] := by
  rw [not_le]
  exact List.nil_lt_cons first rest

theorem nil_le (text : List Char) : [] ≤ text := by
  rw [← not_lt]
  exact List.not_lt_nil text

theorem range_spec (leading : List Char) :
    (∀ past, prefixRangeEnd leading = some past →
      ∀ text, leading ≤ text ∧ text < past ↔ leading <+: text) ∧
    (prefixRangeEnd leading = none → ∀ text, leading ≤ text ↔ leading <+: text) := by
  induction leading with
  | nil => exact ⟨fun _ some => (nomatch some), fun _ text => iff_of_true (nil_le text) text.nil_prefix⟩
  | cons first rest ih =>
    rw [prefixRangeEnd_cons]
    cases inner : prefixRangeEnd rest with
    | some stop =>
      refine ⟨?_, fun none => nomatch none⟩
      rintro _ ⟨⟩ text
      cases text with
      | nil => exact iff_of_false (fun range => not_cons_le_nil first rest range.1) (by simp)
      | cons char text =>
        rw [List.cons_prefix_cons, ← ih.1 stop inner text, cons_le_cons,
          List.cons_lt_cons_iff]
        constructor
        · rintro ⟨before | ⟨rfl, above⟩, after | ⟨same, below⟩⟩
          · exact absurd (before.trans after) (lt_irrefl _)
          · exact absurd (same ▸ before) (lt_irrefl _)
          · exact absurd after (lt_irrefl _)
          · exact ⟨rfl, above, below⟩
        · rintro ⟨rfl, above, below⟩
          exact ⟨.inr ⟨rfl, above⟩, .inr ⟨rfl, below⟩⟩
    | none =>
      have all := ih.2 inner
      cases next : nextScalar first with
      | some =>
        refine ⟨?_, fun none => nomatch none⟩
        rintro _ ⟨⟩ text
        cases text with
        | nil => exact iff_of_false (fun range => not_cons_le_nil first rest range.1) (by simp)
        | cons char text =>
          rw [List.cons_prefix_cons, ← all text, cons_le_cons, List.cons_lt_cons_iff,
            lt_nextScalar next]
          constructor
          · rintro ⟨before | ⟨rfl, above⟩, upto | ⟨_, below⟩⟩
            · exact absurd (before.trans_le upto) (lt_irrefl _)
            · exact absurd below (List.not_lt_nil _)
            · exact ⟨rfl, above⟩
            · exact absurd below (List.not_lt_nil _)
          · rintro ⟨rfl, above⟩
            exact ⟨.inr ⟨rfl, above⟩, .inl le_rfl⟩
      | none =>
        refine ⟨fun _ some => (nomatch some), fun _ text => ?_⟩
        cases text with
        | nil => exact iff_of_false (not_cons_le_nil first rest) (by simp)
        | cons char text =>
          rw [List.cons_prefix_cons, ← all text, cons_le_cons]
          constructor
          · rintro (before | inside)
            · exact absurd (le_of_nextScalar next) (not_le.mpr before)
            · exact inside
          · exact .inr

theorem memoryNamesWithPrefix_perm (graph : Graph) (leading : List Char) :
    (graph.memoryNamesWithPrefix leading).Perm
      (graph.liveNames.filter fun name => leading.isPrefixOf name.text.toList) := by
  obtain ⟨bounded, endless⟩ := range_spec leading
  unfold memoryNamesWithPrefix
  cases stop : prefixRangeEnd leading with
  | some past =>
    refine (List.perm_insertionSort _ _).trans (.of_eq (List.filter_congr fun name _ => ?_))
    rw [Bool.eq_iff_iff, decide_eq_true_eq, List.isPrefixOf_iff_prefix]
    exact bounded past stop name.text.toList
  | none =>
    refine ((List.perm_insertionSort _ _).filter _).trans (.of_eq ?_)
    rw [List.filter_filter]
    refine List.filter_congr fun name _ => ?_
    rw [Bool.eq_iff_iff, Bool.and_eq_true, decide_eq_true_eq, List.isPrefixOf_iff_prefix,
      endless stop, and_self]

end Graph

namespace Suggest

open Zuihitsu.Graph

/-! ### What is ranked -/

theorem editDistance_eq (one other : List Char) :
    editDistance one other = Library.distance one other := by
  unfold editDistance
  cases one with
  | nil => rfl
  | cons =>
    cases other with
    | nil => rfl
    | cons =>
      rw [if_neg (by simp), if_neg (by simp), getLast?_fillRows, Option.getD_some]

/-- A candidate as it is ranked. -/
def ranked {T : Type} (attempted : List Char) (candidate : List Char × T) : Ranked T :=
  ⟨sharedPrefixLen attempted candidate.1, Library.distance attempted candidate.1, candidate.1,
    candidate.2⟩

theorem rank_eq {T : Type} (attempted : List Char) (candidate : List Char × T) :
    rank attempted candidate =
      if Near attempted candidate.1 then some (ranked attempted candidate) else none := by
  obtain ⟨key, item⟩ := candidate
  obtain ⟨shorter, longer⟩ := length_le_distance attempted key
  unfold rank
  dsimp only
  rw [editDistance_eq]
  by_cases same : eqIgnoreAsciiCase key attempted = true
  · have far : ¬Near attempted key := fun near => Bool.noConfusion (same.symm.trans near.1)
    rw [if_pos same, if_neg far]
  · rw [if_neg same]
    have apart : eqIgnoreAsciiCase key attempted = false := by simpa using same
    by_cases dropped : sharedPrefixLen attempted key < min attempted.length minSharedPrefix ∧
        (sharedPrefixLen attempted key = 0 ∨ maxEditDistance <
          max (attempted.length - key.length) (key.length - attempted.length))
    · have far : ¬Near attempted key := by
        rintro ⟨_, stem | ⟨near, some⟩⟩
        · omega
        · omega
      rw [if_pos dropped, if_neg far]
    · rw [if_neg dropped, Nat.min_comm]
      by_cases near : Near attempted key
      · rw [if_pos near.2, if_pos near]
        rfl
      · rw [if_neg near, if_neg fun relevant => near ⟨apart, relevant⟩]

theorem mostSimilar_eq {T : Type} (attempted : List Char) (candidates : List (List Char × T)) :
    mostSimilar attempted candidates =
      (((candidates.filter fun entry => Near attempted entry.1).insertionSort
        fun first second => placeOf attempted first.1 ≤ placeOf attempted second.1).take
          maxSuggestions).map (·.2) := by
  have kept : candidates.filterMap (rank attempted) =
      (candidates.filter fun entry => Near attempted entry.1).map (ranked attempted) := by
    induction candidates with
    | nil => rfl
    | cons entry rest ih =>
      rw [List.filterMap_cons, rank_eq, List.filter_cons]
      by_cases near : Near attempted entry.1
      · simp [near, ih]
      · simp [near, ih]
  rw [mostSimilar, kept, ← List.map_insertionSort _ _ (ranked attempted) _ fun _ _ _ _ => Iff.rfl,
    ← List.map_take, List.map_map]
  rfl

theorem subjectsOf_inj {leading : String} {names : List MemoryName}
    {first second : List Char × MemoryName} (firstMem : first ∈ subjectsOf leading names)
    (secondMem : second ∈ subjectsOf leading names) (same : first.1 = second.1) :
    first = second := by
  have whole : ∀ entry ∈ subjectsOf leading names,
      entry.2.text.toList = leading.toList ++ entry.1 := by
    intro entry member
    obtain ⟨name, _, stripped⟩ := List.mem_filterMap.mp member
    obtain ⟨subject, strips, rfl⟩ := Option.map_eq_some_iff.mp stripped
    unfold stripLeading at strips
    obtain ⟨starts, rest⟩ := Option.ite_none_right_eq_some.mp strips
    obtain ⟨tail, split⟩ := List.isPrefixOf_iff_prefix.mp starts
    cases rest
    rw [String.toList_ofList, ← split, List.drop_left]
  have names : first.2.text = second.2.text := by
    rw [← String.toList_inj, whole first firstMem, whole second secondMem, same]
  obtain ⟨key, ⟨text⟩⟩ := first
  obtain ⟨key', ⟨text'⟩⟩ := second
  cases same
  cases names
  rfl

theorem sort_subjects {attempted : List Char} {leading : String} {names : List MemoryName}
    {entries others : List (List Char × MemoryName)} (same : entries.Perm others)
    (within : ∀ entry ∈ others, entry ∈ subjectsOf leading names) :
    (entries.insertionSort fun first second =>
        placeOf attempted first.1 ≤ placeOf attempted second.1) =
      others.insertionSort fun first second =>
        placeOf attempted first.1 ≤ placeOf attempted second.1 := by
  have total : Std.Total fun first second : List Char × MemoryName =>
      placeOf attempted first.1 ≤ placeOf attempted second.1 := ⟨fun _ _ => le_total _ _⟩
  have transitive : IsTrans (List Char × MemoryName) fun first second =>
      placeOf attempted first.1 ≤ placeOf attempted second.1 := ⟨fun _ _ _ => le_trans⟩
  refine List.Perm.eq_of_pairwise ?_ (List.pairwise_insertionSort _ _)
    (List.pairwise_insertionSort _ _)
    ((List.perm_insertionSort _ _).trans (same.trans (List.perm_insertionSort _ _).symm))
  intro first second firstMem secondMem upto downto
  rw [List.mem_insertionSort] at firstMem secondMem
  refine subjectsOf_inj (within first (same.subset firstMem)) (within second secondMem) ?_
  have place := congrArg (fun place => (ofLex (ofLex place).2).2) (le_antisymm upto downto)
  exact place

/-! ### The slice of the first letter -/

theorem asciiLower_eq {char other : Char} (same : asciiLower char = asciiLower other) :
    char = asciiLower other ∨ char = asciiUpper other := by
  have code : ∀ number, number < 128 → (Char.ofNat number).toNat = number := by decide
  have order : ∀ one two : Char, one ≤ two ↔ one.toNat ≤ two.toNat := fun _ _ => Iff.rfl
  unfold asciiLower asciiUpper at *
  simp only [order, Bool.and_eq_true, decide_eq_true_eq, ← Char.toNat_inj] at *
  have bounds : 'A'.toNat = 65 ∧ 'Z'.toNat = 90 ∧ 'a'.toNat = 97 ∧ 'z'.toNat = 122 := by decide
  obtain ⟨upperA, upperZ, lowerA, lowerZ⟩ := bounds
  rw [upperA, upperZ] at *
  rw [lowerA, lowerZ]
  split_ifs at same ⊢ with one two three <;> grind

theorem head_of_near {first : Char} {rest key : List Char} (near : Near (first :: rest) key) :
    ∃ char tail, key = char :: tail ∧ (char = asciiLower first ∨ char = asciiUpper first) := by
  have shares : 1 ≤ sharedPrefixLen (first :: rest) key := by
    rcases near.2 with stem | typo
    · simp only [List.length_cons, minSharedPrefix] at stem
      omega
    · exact typo.2
  cases key with
  | nil => simp [sharedPrefixLen] at shares
  | cons char tail =>
    refine ⟨char, tail, rfl, ?_⟩
    unfold sharedPrefixLen at shares
    rw [List.zip_cons_cons, List.takeWhile_cons] at shares
    split at shares
    · rename_i same
      exact asciiLower_eq (of_decide_eq_true same).symm
    · simp at shares

/-- Whether a name is in the slice of a first letter. -/
def inSlice (leading : List Char) (first : Char) (name : MemoryName) : Bool :=
  (leading ++ [asciiLower first]).isPrefixOf name.text.toList ||
    (leading ++ [asciiUpper first]).isPrefixOf name.text.toList

theorem fetchNames_perm (graph : Graph) (leading : List Char) (first : Char) (rest : List Char) :
    (fetchNames graph leading (first :: rest)).Perm
      (graph.liveNames.filter (inSlice leading first)) := by
  simp only [fetchNames, List.head?_cons]
  by_cases cased : asciiUpper first ≠ asciiLower first
  · rw [if_pos cased]
    refine ((graph.memoryNamesWithPrefix_perm _).append
      (graph.memoryNamesWithPrefix_perm _)).trans ?_
    refine .trans (.of_eq ?_) (List.filter_append_perm
      (fun name => (leading ++ [asciiLower first]).isPrefixOf name.text.toList) _)
    rw [List.filter_filter, List.filter_filter]
    -- No name is in both ranges.
    have apart : ∀ name : MemoryName,
        (leading ++ [asciiLower first]).isPrefixOf name.text.toList = true →
        (leading ++ [asciiUpper first]).isPrefixOf name.text.toList = false := by
      intro name lower
      by_contra upper
      rw [Bool.not_eq_false, List.isPrefixOf_iff_prefix] at upper
      rw [List.isPrefixOf_iff_prefix] at lower
      have one := (List.prefix_of_prefix_length_le upper lower (by simp)).eq_of_length (by simp)
      exact cased (List.singleton_inj.mp (List.append_cancel_left one))
    congr 1 <;> refine List.filter_congr fun name _ => ?_
    · unfold inSlice
      cases (leading ++ [asciiLower first]).isPrefixOf name.text.toList <;> simp
    · unfold inSlice
      cases lower : (leading ++ [asciiLower first]).isPrefixOf name.text.toList
      · simp
      · simp [apart name lower]
  · rw [if_neg cased, List.append_nil]
    refine (graph.memoryNamesWithPrefix_perm _).trans (.of_eq (List.filter_congr fun name _ => ?_))
    rw [not_not] at cased
    rw [inSlice, cased, Bool.or_self]

theorem filter_slice (leading : String) (first : Char) (rest : List Char)
    (names : List MemoryName) :
    ((names.filter (inSlice leading.toList first)).map (candidate leading)).filter
        (fun entry => Near (first :: rest) entry.1) =
      (subjectsOf leading names).filter fun entry => Near (first :: rest) entry.1 := by
  induction names with
  | nil => rfl
  | cons name others ih =>
    unfold subjectsOf at ih ⊢
    rw [List.filter_cons, List.filterMap_cons]
    by_cases starts : leading.toList.isPrefixOf name.text.toList = true
    · have strips : stripLeading leading name.text =
          some (String.ofList (name.text.toList.drop leading.toList.length)) := if_pos starts
      obtain ⟨tail, split⟩ := List.isPrefixOf_iff_prefix.mp starts
      have subject : candidate leading name =
          ((String.ofList (name.text.toList.drop leading.toList.length)).toList, name) := by
        rw [candidate, strips, Option.getD_some]
      rw [strips]
      cases here : inSlice leading.toList first name with
      | true =>
        rw [if_pos rfl, List.map_cons, List.filter_cons, Option.map_some, List.filter_cons, ih,
          subject]
      | false =>
        -- The first letter is another.
        have far : ¬Near (first :: rest)
            (String.ofList (name.text.toList.drop leading.toList.length)).toList := by
          intro near
          obtain ⟨char, more, key, cased⟩ := head_of_near near
          rw [String.toList_ofList, ← split, List.drop_left] at key
          have held : (leading.toList ++ [char]).isPrefixOf name.text.toList = true := by
            rw [List.isPrefixOf_iff_prefix, ← split, key]
            exact ⟨more, by simp⟩
          rcases cased with rfl | rfl <;> simp [inSlice, held] at here
        rw [if_neg (by simp), ih, Option.map_some, List.filter_cons, if_neg (by simpa using far)]
    · have outside : inSlice leading.toList first name = false := by
        rw [List.isPrefixOf_iff_prefix] at starts
        rw [inSlice, Bool.or_eq_false_iff, ← Bool.not_eq_true, ← Bool.not_eq_true,
          List.isPrefixOf_iff_prefix, List.isPrefixOf_iff_prefix]
        exact ⟨fun lower => starts ((List.prefix_append _ _).trans lower),
          fun upper => starts ((List.prefix_append _ _).trans upper)⟩
      have strips : stripLeading leading name.text = none := if_neg starts
      rw [strips, outside, if_neg (by simp), ih]
      rfl

/-! ### A subject without a first letter -/

theorem like_any (text : List Char) : like ['%'] text = true := by
  rw [like.eq_def]
  show text.tails.any (like []) = true
  rw [List.any_eq_true]
  exact ⟨[], (List.mem_tails _ _).mpr List.nil_suffix, rfl⟩

theorem like_iff {leading : List Char} (plain : ∀ char ∈ leading, char ≠ '%' ∧ char ≠ '_')
    (text : List Char) :
    like (leading ++ ['%']) text = true ↔
      leading.map asciiLower <+: text.map asciiLower := by
  induction leading generalizing text with
  | nil => simpa using like_any text
  | cons first rest ih =>
    rw [List.forall_mem_cons] at plain
    cases text with
    | nil => simp [like, plain.1]
    | cons =>
      rw [List.cons_append, like, if_neg plain.1.1]
      simp only [plain.1.2, decide_false, Bool.false_or, Bool.and_eq_true, decide_eq_true_eq,
        ih plain.2, List.map_cons, List.cons_prefix_cons]

/-- A name begins with a leading part but for the case of a letter of it. -/
def BeginsButForCase (leading : String) (name : MemoryName) : Prop :=
  leading.toList.map asciiLower <+: name.text.toList.map asciiLower ∧
    ¬leading.toList <+: name.text.toList

/-- Each such name comes after enough subjects of the namespace, by its whole text. -/
def Outranked (graph : Graph) (leading : String) : Prop :=
  ∀ name ∈ graph.liveNames, BeginsButForCase leading name →
    maxSuggestions ≤ (subjectsOf leading graph.liveNames).countP fun entry =>
      entry.1 ≠ [] ∧ placeOf [] entry.1 < placeOf [] name.text.toList

/-- The search lists what the plain definition does, in whatever order the candidates are
read. -/
def SearchExact (graph : Graph) (attempted : MemoryName) : Prop :=
  similarNames graph attempted = plainSimilarNames graph attempted ∧
    ∀ named, attempted.namespaced = some named → ∀ fetched : List MemoryName,
      fetched.Perm (fetchNames graph named.namespaceOf.handlePrefix.toList named.subject.toList) →
      mostSimilar named.subject.toList (fetched.map (candidate named.namespaceOf.handlePrefix)) =
        similarNames graph attempted

/-- Whether the name of a candidate begins with the leading part. -/
def begins (leading : String) (entry : List Char × MemoryName) : Bool :=
  leading.toList.isPrefixOf entry.2.text.toList

theorem near_nil (key : List Char) : Near [] key ↔ key ≠ [] := by
  cases key <;> simp [Near, eqIgnoreAsciiCase]

theorem fetchNames_nil_perm (graph : Graph) (leading : List Char) :
    (fetchNames graph leading []).Perm
      (graph.liveNames.filter fun name => like (leading ++ ['%']) name.text.toList) := by
  show (List.map (·.name) (graph.memoriesInNamespace leading)).Perm _
  rw [memoriesInNamespace, List.map_map]
  refine ((List.perm_insertionSort _ _).map _).trans (.of_eq ?_)
  rw [liveNames, List.filter_map, List.filter_filter]
  rfl

theorem filter_pattern {leading : String}
    (plain : ∀ char ∈ leading.toList, char ≠ '%' ∧ char ≠ '_') (names : List MemoryName) :
    ((((names.filter fun name => like (leading.toList ++ ['%']) name.text.toList).map
      (candidate leading)).filter fun entry => Near [] entry.1).filter (begins leading)) =
      (subjectsOf leading names).filter fun entry => Near [] entry.1 := by
  induction names with
  | nil => rfl
  | cons name others ih =>
    unfold subjectsOf at ih ⊢
    rw [List.filter_cons, List.filterMap_cons]
    by_cases starts : leading.toList.isPrefixOf name.text.toList = true
    · have strips : stripLeading leading name.text =
          some (String.ofList (name.text.toList.drop leading.toList.length)) := if_pos starts
      have matched : like (leading.toList ++ ['%']) name.text.toList = true := by
        rw [like_iff plain]
        exact (List.isPrefixOf_iff_prefix.mp starts).map _
      have subject : candidate leading name =
          ((String.ofList (name.text.toList.drop leading.toList.length)).toList, name) := by
        rw [candidate, strips, Option.getD_some]
      rw [strips, if_pos matched, List.map_cons, List.filter_cons, Option.map_some,
        List.filter_cons, subject]
      split
      · rw [List.filter_cons_of_pos (by exact starts), ih]
      · exact ih
    · have strips : stripLeading leading name.text = none := if_neg starts
      rw [strips]
      split
      · rw [List.map_cons, List.filter_cons]
        split
        · rw [List.filter_cons_of_neg (by exact starts), ih]
          rfl
        · exact ih
      · exact ih

theorem candidate_of_not_begins {leading : String} {name : MemoryName}
    (other : ¬leading.toList <+: name.text.toList) :
    candidate leading name = (name.text.toList, name) := by
  have strips : stripLeading leading name.text = none :=
    if_neg (by rwa [List.isPrefixOf_iff_prefix])
  rw [candidate, strips, Option.getD_none]

/-! ### The search is exact -/

section Exact

variable {graph : Graph} {leading : String} {fetched : List MemoryName}

theorem mostSimilar_slice {first : Char} {rest : List Char}
    (same : fetched.Perm (fetchNames graph leading.toList (first :: rest))) :
    mostSimilar (first :: rest) (fetched.map (candidate leading)) =
      nearest leading (first :: rest) graph.liveNames := by
  have kept : ((fetched.map (candidate leading)).filter
      fun entry => Near (first :: rest) entry.1).Perm
        ((subjectsOf leading graph.liveNames).filter fun entry => Near (first :: rest) entry.1) := by
    rw [← filter_slice]
    exact ((same.trans (fetchNames_perm graph _ first rest)).map _).filter _
  rw [mostSimilar_eq, nearest,
    sort_subjects kept fun entry member => (List.mem_filter.mp member).1]

theorem countP_near (place : ℕᵒᵈ ×ₗ ℕ ×ₗ List Char) (entries : List (List Char × MemoryName)) :
    (entries.filter fun entry => Near [] entry.1).countP (fun entry => placeOf [] entry.1 < place) =
      entries.countP fun entry => entry.1 ≠ [] ∧ placeOf [] entry.1 < place := by
  rw [List.countP_filter]
  refine List.countP_congr fun entry _ => ?_
  simp [near_nil, and_comm]

theorem perm_begins (plain : ∀ char ∈ leading.toList, char ≠ '%' ∧ char ≠ '_')
    (same : fetched.Perm (fetchNames graph leading.toList [])) :
    (((fetched.map (candidate leading)).filter fun entry => Near [] entry.1).filter
      (begins leading)).Perm
        ((subjectsOf leading graph.liveNames).filter fun entry => Near [] entry.1) := by
  rw [← filter_pattern plain]
  exact ((((same.trans (fetchNames_nil_perm graph _)).map _).filter _).filter _)

theorem begins_of_mem_subjectsOf {names : List MemoryName} {entry : List Char × MemoryName}
    (member : entry ∈ subjectsOf leading names) : begins leading entry = true := by
  obtain ⟨name, _, stripped⟩ := List.mem_filterMap.mp member
  obtain ⟨subject, strips, rfl⟩ := Option.map_eq_some_iff.mp stripped
  exact (Option.ite_none_right_eq_some.mp strips).1

theorem mostSimilar_pattern (plain : ∀ char ∈ leading.toList, char ≠ '%' ∧ char ≠ '_')
    (outranked : Outranked graph leading)
    (same : fetched.Perm (fetchNames graph leading.toList [])) :
    mostSimilar [] (fetched.map (candidate leading)) = nearest leading [] graph.liveNames := by
  have kept := perm_begins plain same
  rw [mostSimilar_eq, nearest, ← sort_subjects kept fun entry member => (List.mem_filter.mp member).1,
    ← filter_insertionSort_by (fun entry : List Char × MemoryName => placeOf [] entry.1)
      (begins leading)]
  congr 1
  refine (take_filter_of_forall fun entry member => ?_).symm
  -- One that does not begin with it has too many before it to be listed.
  by_contra other
  have among := List.mem_of_mem_take member
  rw [List.mem_insertionSort, List.mem_filter, List.mem_map] at among
  obtain ⟨⟨name, read, rfl⟩, _⟩ := among
  have live := (same.trans (fetchNames_nil_perm graph _)).subset read
  rw [List.mem_filter, like_iff plain] at live
  have unlike : ¬leading.toList <+: name.text.toList := by
    rw [← List.isPrefixOf_iff_prefix]
    exact other
  have enough := outranked name live.1 ⟨live.2, unlike⟩
  rw [← countP_near, ← kept.countP_eq] at enough
  rw [candidate_of_not_begins unlike] at member
  obtain ⟨before, after, split, early⟩ := exists_split_of_mem_take member
  have ordered := List.pairwise_insertionSort
    (fun first second : List Char × MemoryName => placeOf [] first.1 ≤ placeOf [] second.1)
    ((fetched.map (candidate leading)).filter fun entry => Near [] entry.1)
  have few := countP_lt_of_sorted (fun entry : List Char × MemoryName => placeOf [] entry.1)
    (split ▸ ordered)
  rw [← split, (List.perm_insertionSort _ _).countP_eq] at few
  have less := (List.filter_sublist (p := begins leading)
    (l := (fetched.map (candidate leading)).filter fun entry => Near [] entry.1)).countP_le
      (p := fun entry => placeOf [] entry.1 < placeOf [] name.text.toList)
  exact absurd (enough.trans (less.trans few)) (not_le.mpr early)

theorem length_le_countP {place : ℕᵒᵈ ×ₗ ℕ ×ₗ List Char} {entries sorted : List (List Char × MemoryName)}
    (same : sorted.Perm (entries.filter fun entry => Near [] entry.1))
    (before : ∀ entry ∈ sorted.take maxSuggestions, placeOf [] entry.1 < place) :
    (sorted.take maxSuggestions).length ≤
      entries.countP fun entry => entry.1 ≠ [] ∧ placeOf [] entry.1 < place := by
  rw [← countP_near, ← same.countP_eq]
  refine le_trans (le_of_eq ?_) (List.take_sublist maxSuggestions sorted).countP_le
  exact (List.countP_eq_length.mpr fun entry member => by simpa using before entry member).symm

theorem candidate_of_mem_subjectsOf {names : List MemoryName} {entry : List Char × MemoryName}
    (member : entry ∈ subjectsOf leading names) : candidate leading entry.2 = entry := by
  obtain ⟨name, _, stripped⟩ := List.mem_filterMap.mp member
  obtain ⟨subject, strips, rfl⟩ := Option.map_eq_some_iff.mp stripped
  rw [candidate, strips, Option.getD_some]

theorem outranked_of_exact (plain : ∀ char ∈ leading.toList, char ≠ '%' ∧ char ≠ '_')
    (written : leading.toList ≠ [])
    (exact' : ∀ fetched : List MemoryName, fetched.Perm (fetchNames graph leading.toList []) →
      mostSimilar [] (fetched.map (candidate leading)) = nearest leading [] graph.liveNames) :
    Outranked graph leading := by
  intro name live cased
  have read : name ∈ fetchNames graph leading.toList [] := by
    refine (fetchNames_nil_perm graph _).symm.subset ?_
    rw [List.mem_filter, like_iff plain]
    exact ⟨live, cased.1⟩
  have listed := exact' (name :: (fetchNames graph leading.toList []).erase name)
    (List.perm_cons_erase read).symm
  have near : Near [] name.text.toList := by
    rw [near_nil]
    rintro empty
    have short := cased.1.length_le
    rw [List.length_map, List.length_map, empty, List.length_nil] at short
    exact written (List.length_eq_zero_iff.mp (Nat.le_zero.mp short))
  rw [mostSimilar_eq, List.map_cons, candidate_of_not_begins cased.2,
    List.filter_cons_of_pos (by simpa using near), List.insertionSort_cons_eq_take_drop,
    nearest] at listed
  -- What comes before it, and what is listed of the namespace.
  generalize earlier : List.takeWhile _ _ = before at listed
  generalize ranking : List.insertionSort
    (fun first second : List Char × MemoryName => placeOf [] first.1 ≤ placeOf [] second.1)
    ((subjectsOf leading graph.liveNames).filter _) = sorted at listed
  have within : ∀ entry ∈ sorted, entry ∈ subjectsOf leading graph.liveNames := by
    intro entry member
    rw [← ranking, List.mem_insertionSort] at member
    exact (List.mem_filter.mp member).1
  have outlisted : name ∉ (sorted.take maxSuggestions).map (·.2) := by
    intro member
    obtain ⟨entry, among, rfl⟩ := List.mem_map.mp member
    have starts := begins_of_mem_subjectsOf (within entry (List.mem_of_mem_take among))
    exact cased.2 (List.isPrefixOf_iff_prefix.mp starts)
  have full : maxSuggestions ≤ before.length := by
    by_contra few
    rw [not_le] at few
    refine outlisted (listed ▸ List.mem_map.mpr ⟨(name.text.toList, name), ?_, rfl⟩)
    rw [List.take_append]
    refine List.mem_append_right _ ?_
    obtain ⟨room, has⟩ := Nat.exists_eq_succ_of_ne_zero (Nat.sub_ne_zero_of_lt few)
    rw [has, List.take_succ_cons]
    exact List.mem_cons_self
  rw [List.take_append_of_le_length full] at listed
  have count : (sorted.take maxSuggestions).length = maxSuggestions := by
    have lengths := congrArg List.length listed
    rw [List.length_map, List.length_map, List.length_take, min_eq_left full] at lengths
    exact lengths.symm
  rw [← count]
  refine length_le_countP (ranking ▸ List.perm_insertionSort _ _) fun entry member => ?_
  have there : entry.2 ∈ (before.take maxSuggestions).map (·.2) :=
    listed ▸ List.mem_map_of_mem member
  obtain ⟨other, among, same⟩ := List.mem_map.mp there
  rw [← earlier] at among
  have ahead := List.mem_of_mem_take among
  have candidate' : other = candidate leading other.2 := by
    have read := (List.takeWhile_sublist _).subset ahead
    rw [List.mem_insertionSort, List.mem_filter, List.mem_map] at read
    obtain ⟨⟨_, _, rfl⟩, _⟩ := read
    rfl
  rw [same, candidate_of_mem_subjectsOf (within entry (List.mem_of_mem_take member))] at candidate'
  have less := List.mem_takeWhile_imp ahead
  rw [candidate', decide_eq_true_eq, not_le] at less
  exact less

end Exact

theorem handlePrefix_plain (kind : Namespace) :
    (∀ char ∈ kind.handlePrefix.toList, char ≠ '%' ∧ char ≠ '_') ∧
      kind.handlePrefix.toList ≠ [] := by
  cases kind <;> simp [Namespace.handlePrefix]

/-- The search is exact, unless it looks a whole namespace up by a pattern that ignores case and
finds what would be listed. -/
theorem searchExact_iff (graph : Graph) (attempted : MemoryName) :
    SearchExact graph attempted ↔
      ∀ named, attempted.namespaced = some named → named.subject = "" →
        Outranked graph named.namespaceOf.handlePrefix := by
  unfold SearchExact similarNames plainSimilarNames
  cases parsed : attempted.namespaced with
  | none => simp
  | some named =>
    obtain ⟨plain, written⟩ := handlePrefix_plain named.namespaceOf
    simp only [Option.some.injEq, forall_eq']
    constructor
    · rintro ⟨same, anyOrder⟩ bare
      rw [bare] at same anyOrder
      exact outranked_of_exact plain written fun fetched read =>
        (anyOrder fetched read).trans same
    · intro outranked
      have exact' : ∀ fetched : List MemoryName, fetched.Perm
          (fetchNames graph named.namespaceOf.handlePrefix.toList named.subject.toList) →
          mostSimilar named.subject.toList
            (fetched.map (candidate named.namespaceOf.handlePrefix)) =
              nearest named.namespaceOf.handlePrefix named.subject.toList graph.liveNames := by
        intro fetched read
        cases subject : named.subject.toList with
        | nil =>
          rw [subject] at read
          exact mostSimilar_pattern plain (outranked (String.toList_eq_nil_iff.mp subject)) read
        | cons =>
          rw [subject] at read
          exact mostSimilar_slice read
      exact ⟨exact' _ (.refl _), fun fetched read => (exact' fetched read).trans
        (exact' _ (.refl _)).symm⟩

/-! A bare prefix, where a handle is in upper case. -/

def capital : Graph :=
  (Graph.commit ⟨0⟩ .agent [.memoryCreated ⟨1⟩ ⟨"Person/dave"⟩] Graph.fresh).toOption.getD
    Graph.fresh

/-- It is listed for the namespace it is not in. -/
theorem capital_listed :
    Reachable capital ∧ similarNames capital ⟨"person/"⟩ = [⟨"Person/dave"⟩] ∧
      ¬SearchExact capital ⟨"person/"⟩ := by
  have evaluated : similarNames capital ⟨"person/"⟩ = [⟨"Person/dave"⟩] ∧
      plainSimilarNames capital ⟨"person/"⟩ = [] := by decide +kernel
  refine ⟨Reachable.fresh.folded, evaluated.1, fun same => ?_⟩
  have clash := same.1
  rw [evaluated.1, evaluated.2] at clash
  cases clash

end Suggest

end Zuihitsu
