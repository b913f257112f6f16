/-
# Encodings that can be read off a stream

An encoding is self-delimiting on a kind of value if what it encodes can be split off the
front of any stream, whatever follows. A tag, a length in front or a fixed width make an
encoding so, and sequences keep it where the stream shows where they end: by the number
of their items, or by an opening symbol that every item has and what follows has not.
-/

import Mathlib.Data.List.Basic

namespace Zuihitsu.Library.Framing

variable {α β γ ι : Type}

/-- On the values of a kind, an encoding can be split off the front of a stream. -/
def SelfDelimiting (kind : α → Prop) (encode : α → List β) : Prop :=
  ∀ ⦃one other : α⦄, kind one → kind other → ∀ ⦃rest more : List β⦄,
    encode one ++ rest = encode other ++ more → one = other ∧ rest = more

section Combinators

variable {kind narrower : α → Prop} {encode : α → List β}

theorem SelfDelimiting.mono (delimits : SelfDelimiting kind encode)
    (narrows : ∀ value, narrower value → kind value) : SelfDelimiting narrower encode :=
  fun _ _ first second => delimits (narrows _ first) (narrows _ second)

/-- Encodings of one width are self-delimiting if they tell the values apart. -/
theorem selfDelimiting_of_length {width : Nat} (wide : ∀ value, (encode value).length = width)
    (apart : Function.Injective encode) : SelfDelimiting kind encode := by
  intro one other _ _ rest more same
  obtain ⟨front, back⟩ := List.append_inj same ((wide one).trans (wide other).symm)
  exact ⟨apart front, back⟩

/-- A mark after each value changes nothing. -/
theorem SelfDelimiting.closed (delimits : SelfDelimiting kind encode) (mark : List β) :
    SelfDelimiting kind fun value => encode value ++ mark := by
  intro one other first second rest more same
  rw [List.append_assoc, List.append_assoc] at same
  obtain ⟨rfl, later⟩ := delimits first second same
  exact ⟨rfl, List.append_cancel_left later⟩

/-- An encoding of part of a value decides the value if the part does. -/
theorem SelfDelimiting.comp (delimits : SelfDelimiting kind encode) {part : γ → α}
    (apart : Function.Injective part) :
    SelfDelimiting (fun value => kind (part value)) fun value => encode (part value) := by
  intro one other first second rest more same
  obtain ⟨front, back⟩ := delimits first second same
  exact ⟨apart front, back⟩

/-- A sequence behind its length. -/
theorem selfDelimiting_behind_length {header : Nat → List β} {short : Nat → Prop}
    (delimits : SelfDelimiting short header) :
    SelfDelimiting (fun items : List β => short items.length)
      fun items => header items.length ++ items := by
  intro one other first second rest more same
  rw [List.append_assoc, List.append_assoc] at same
  obtain ⟨long, later⟩ := delimits first second same
  exact List.append_inj later long

/-- A sequence of a known number of items. -/
theorem SelfDelimiting.flatMap (delimits : SelfDelimiting kind encode) (count : Nat) :
    SelfDelimiting (fun items : List α => items.length = count ∧ ∀ item ∈ items, kind item)
      fun items => items.flatMap encode := by
  intro one
  induction one generalizing count with
  | nil =>
    rintro other ⟨rfl, _⟩ ⟨none, _⟩ rest more same
    obtain rfl := List.length_eq_zero_iff.mp none
    exact ⟨rfl, same⟩
  | cons item items ih =>
    rintro other ⟨rfl, kinds⟩ ⟨long, others⟩ rest more same
    cases other with
    | nil => cases long
    | cons =>
      rw [List.forall_mem_cons] at kinds others
      simp only [List.flatMap_cons, List.append_assoc] at same
      obtain ⟨rfl, tail⟩ := delimits kinds.1 others.1 same
      obtain ⟨rfl, left⟩ := ih items.length ⟨rfl, kinds.2⟩ ⟨Nat.succ.inj long, others.2⟩ tail
      exact ⟨rfl, left⟩

end Combinators

/-! ### Sequences of any length -/

/-- A stream begins with a symbol of a kind. -/
def Opens (opening : β → Bool) (stream : List β) : Prop := stream.head?.any opening = true

section Sequences

variable {kind : α → Prop} {encode : α → List β} {opening : β → Bool}

theorem Opens.append {stream : List β} (opens : Opens opening stream) (rest : List β) :
    Opens opening (stream ++ rest) := by
  cases stream with
  | nil => cases opens
  | cons => exact opens

/-- A sequence ends where the stream does not go on with an opening symbol. -/
theorem SelfDelimiting.flatMap_inj (delimits : SelfDelimiting kind encode)
    (opened : ∀ item, kind item → Opens opening (encode item)) {one other : List α}
    (kinds : ∀ item ∈ one, kind item) (others : ∀ item ∈ other, kind item) {rest more : List β}
    (ends : ¬Opens opening rest) (stops : ¬Opens opening more)
    (same : one.flatMap encode ++ rest = other.flatMap encode ++ more) :
    one = other ∧ rest = more := by
  induction one generalizing other with
  | nil =>
    cases other with
    | nil => exact ⟨rfl, same⟩
    | cons first later =>
      have starts := (opened first (others first List.mem_cons_self)).append
        (later.flatMap encode ++ more)
      rw [← List.append_assoc, ← List.flatMap_cons, ← same] at starts
      exact absurd starts ends
  | cons item items ih =>
    rw [List.forall_mem_cons] at kinds
    cases other with
    | nil =>
      have starts := (opened item kinds.1).append (items.flatMap encode ++ rest)
      rw [← List.append_assoc, ← List.flatMap_cons, same] at starts
      exact absurd starts stops
    | cons =>
      rw [List.forall_mem_cons] at others
      simp only [List.flatMap_cons, List.append_assoc] at same
      obtain ⟨rfl, tail⟩ := delimits kinds.1 others.1 same
      obtain ⟨rfl, left⟩ := ih kinds.2 others.2 tail
      exact ⟨rfl, left⟩

/-- Sections under known headings are told apart by one stream, if no heading begins with
an opening symbol. -/
theorem sections_inj {sorts : ι → α → Prop} {heading : ι → List β} {one other : ι → List α}
    (delimits : ∀ index, SelfDelimiting (sorts index) encode)
    (opened : ∀ index item, sorts index item → Opens opening (encode item))
    (headed : ∀ index, heading index ≠ [] ∧ ¬Opens opening (heading index))
    (kinds : ∀ index, ∀ item ∈ one index, sorts index item)
    (others : ∀ index, ∀ item ∈ other index, sorts index item) {indices : List ι}
    (same : (indices.flatMap fun index => heading index ++ (one index).flatMap encode) =
      indices.flatMap fun index => heading index ++ (other index).flatMap encode) :
    ∀ index ∈ indices, one index = other index := by
  have closed : ∀ (later : List ι) (items : ι → List α), ¬Opens opening
      (later.flatMap fun index => heading index ++ (items index).flatMap encode) := by
    intro later items
    cases later with
    | nil => simp [Opens]
    | cons index rest =>
      obtain ⟨nonempty, plain⟩ := headed index
      obtain ⟨first, tail, shape⟩ := List.exists_cons_of_ne_nil nonempty
      rw [shape] at plain
      simpa [Opens, shape] using plain
  induction indices with
  | nil => simp
  | cons index rest ih =>
    simp only [List.flatMap_cons, List.append_assoc] at same
    have bodies := List.append_cancel_left same
    obtain ⟨here, later⟩ := (delimits index).flatMap_inj (opened index) (kinds index)
      (others index) (closed rest one) (closed rest other) bodies
    exact List.forall_mem_cons.mpr ⟨here, ih later⟩

end Sequences

/-! ### Words of bytes -/

/-- The bytes of a word, the low one first. -/
def littleEndian {count : Nat} (word : BitVec (8 * count)) : List UInt8 :=
  (List.range count).map fun place => .ofBitVec (word.extractLsb' (8 * place) 8)

@[simp] theorem length_littleEndian {count : Nat} (word : BitVec (8 * count)) :
    (littleEndian word).length = count := by
  simp [littleEndian]

theorem littleEndian_injective {count : Nat} :
    Function.Injective (littleEndian : BitVec (8 * count) → List UInt8) := by
  intro one other same
  refine BitVec.eq_of_getLsbD_eq fun bit within => ?_
  have place : bit / 8 < count := by omega
  have byte := List.map_inj_left.mp same (bit / 8) (List.mem_range.mpr place)
  have bits := congrArg (fun value : UInt8 => value.toBitVec.getLsbD (bit % 8)) byte
  have low : bit % 8 < 8 := Nat.mod_lt _ (by decide)
  simpa [BitVec.getLsbD_extractLsb', low, Nat.div_add_mod] using bits

end Zuihitsu.Library.Framing
