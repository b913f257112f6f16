/-
# Reading bytes as text, lossily

Bytes that are the UTF-8 form of a text read back as it; where they are not, a replacement
character stands for each longest start of a character that goes no further. Read in chunks, each
by itself, a text comes out whole just where no chunk ends inside a character, and otherwise with
at least two replacement characters for each one that is cut.
-/

import Mathlib.Data.List.Basic
import Mathlib.Data.UInt

namespace Zuihitsu.Library.Lossy

/-- The bytes of a text. -/
def encode (text : List Char) : List UInt8 := text.flatMap String.utf8EncodeChar

/-- What stands for bytes that are no character. -/
def replacement : Char := Char.ofNat 0xfffd

/-- A byte inside a character. -/
def continues (byte : UInt8) : Bool := 0x80 ≤ byte && byte ≤ 0xbf

/-- The character that bytes start with. -/
def first (bytes : List UInt8) : Option Char := bytes.toByteArray.utf8DecodeChar? 0

/-- Two bytes that start a character of three or four. -/
def opensLong (one two : UInt8) : Bool :=
  (one = 0xe0 && 0xa0 ≤ two && two ≤ 0xbf) ||
  (0xe1 ≤ one && one ≤ 0xec && continues two) ||
  (one = 0xed && 0x80 ≤ two && two ≤ 0x9f) ||
  (0xee ≤ one && one ≤ 0xef && continues two) ||
  (one = 0xf0 && 0x90 ≤ two && two ≤ 0xbf) ||
  (0xf1 ≤ one && one ≤ 0xf3 && continues two) ||
  (one = 0xf4 && 0x80 ≤ two && two ≤ 0x8f)

/-- How many bytes one replacement stands for. -/
def illFormed : List UInt8 → Nat
  | one :: two :: rest =>
    if opensLong one two then
      match rest with
      | three :: _ => if 0xf0 ≤ one && continues three then 3 else 2
      | [] => 2
    else 1
  | _ => 1

/-- The text of bytes, given steps enough. -/
def lossyFrom : (fuel : Nat) → List UInt8 → List Char
  | 0, _ => []
  | _, [] => []
  | fuel + 1, bytes =>
    match first bytes with
    | some char => char :: lossyFrom fuel (bytes.drop char.utf8Size)
    | none => replacement :: lossyFrom fuel (bytes.drop (illFormed bytes))

/-- The text of bytes. -/
def lossy (bytes : List UInt8) : List Char := lossyFrom bytes.length bytes

/-! ### One character -/

/-- The text of bytes that are one. -/
def strict (bytes : List UInt8) : Option (List Char) :=
  if encode (lossy bytes) = bytes then some (lossy bytes) else none

section Characters

variable {char other : Char} {bytes rest : List UInt8}

theorem first_eq_some : first bytes = some char ↔ ∃ rest, bytes = String.utf8EncodeChar char ++ rest := by
  constructor
  · intro found
    obtain ⟨rest, split⟩ := ByteArray.exists_of_utf8DecodeChar?_eq_some found
    refine ⟨rest.data.toList, ?_⟩
    have same := congrArg (fun array : ByteArray => array.data.toList) split
    simpa using same
  · rintro ⟨rest, rfl⟩
    unfold first
    rw [List.toByteArray_append]
    exact ByteArray.utf8DecodeChar?_utf8EncodeChar_append

/-- A character is a byte that is not inside one, and bytes that are. -/
theorem encodeChar_cases (char : Char) :
    ∃ byte more, String.utf8EncodeChar char = byte :: more ∧ continues byte = false ∧
      (∀ inside ∈ more, continues inside = true) ∧ (more ≠ [] → 0x80 ≤ char.toNat) := by
  have value : char.toNat = char.val.toNat := rfl
  fun_cases String.utf8EncodeChar <;> refine ⟨_, _, rfl, ?_, ?_, ?_⟩
  all_goals simp [continues, UInt8.le_iff_toNat_le]
  all_goals grind

/-- The start of three bytes or four, by what they are made of: no short form, no surrogate and
nothing past the last character. -/
theorem opensLong_of_value {one two : UInt8} {value : Nat}
    (valid : value < 0xd800 ∨ 0xdfff < value ∧ value < 0x110000)
    (bytes : 0x800 ≤ value ∧ value < 0x10000 ∧ one.toNat = value / 0x1000 + 0xe0 ∧
        two.toNat = value / 0x40 % 0x40 + 0x80 ∨
      0x10000 ≤ value ∧ one.toNat = value / 0x40000 + 0xf0 ∧
        two.toNat = value / 0x1000 % 0x40 + 0x80) : opensLong one two = true := by
  simp only [opensLong, continues, Bool.or_eq_true, Bool.and_eq_true, decide_eq_true_eq,
    UInt8.le_iff_toNat_le, ← UInt8.toNat_inj, UInt8.reduceToNat]
  omega

/-- A start of a character that goes no further is one ill-formed part. -/
theorem illFormed_start {start more : List UInt8} (split : String.utf8EncodeChar char = start ++ more)
    (begun : start ≠ []) (cut : more ≠ []) : illFormed start = start.length := by
  have valid : char.val.toNat < 0xd800 ∨ 0xdfff < char.val.toNat ∧ char.val.toNat < 0x110000 :=
    char.valid
  revert split
  fun_cases String.utf8EncodeChar <;> intro split
  all_goals
    rcases start with _ | ⟨one, _ | ⟨two, _ | ⟨three, _ | ⟨four, rest⟩⟩⟩⟩
    all_goals simp_all [illFormed]
  all_goals have value : char.toNat = char.val.toNat := rfl
  case case3.cons.cons.nil =>
    obtain ⟨rfl, rfl, _⟩ := split
    refine opensLong_of_value valid (.inl ?_)
    simp
    grind
  case case4.cons.cons.nil =>
    obtain ⟨rfl, rfl, _⟩ := split
    refine opensLong_of_value valid (.inr ?_)
    simp
    grind
  case case4.cons.cons.cons.nil =>
    obtain ⟨rfl, rfl, rfl, _⟩ := split
    rw [if_pos, if_pos]
    · simp [continues, UInt8.le_iff_toNat_le]
      grind
    · refine opensLong_of_value valid (.inr ?_)
      simp
      grind

end Characters

/-! ### The text of bytes, part by part -/

section Parts

variable {char : Char} {bytes rest start : List UInt8}

theorem illFormed_pos (some : bytes ≠ []) : 0 < illFormed bytes := by
  unfold illFormed
  split
  · split
    · split
      · split <;> omega
      · omega
    · omega
  · omega

theorem lossyFrom_cons (fuel : Nat) (byte : UInt8) (others : List UInt8) :
    lossyFrom (fuel + 1) (byte :: others) =
      match first (byte :: others) with
      | some char => char :: lossyFrom fuel ((byte :: others).drop char.utf8Size)
      | none => replacement :: lossyFrom fuel ((byte :: others).drop (illFormed (byte :: others))) :=
  rfl

/-- Further steps read no further. -/
theorem lossyFrom_eq {fuel : Nat} (enough : bytes.length ≤ fuel) :
    lossyFrom fuel bytes = lossy bytes := by
  induction fuel using Nat.strongRecOn generalizing bytes with
  | ind fuel ih =>
    cases fuel with
    | zero => rw [lossy, Nat.le_zero.mp enough]
    | succ fuel =>
      cases bytes with
      | nil => rfl
      | cons byte others =>
        have within : others.length ≤ fuel := Nat.le_of_succ_le_succ enough
        unfold lossy
        rw [List.length_cons, lossyFrom_cons, lossyFrom_cons]
        have passed : ∀ {count}, 0 < count →
            lossyFrom fuel ((byte :: others).drop count) =
              lossyFrom others.length ((byte :: others).drop count) := by
          intro count positive
          have short : ((byte :: others).drop count).length ≤ others.length := by
            rw [List.length_drop, List.length_cons]
            omega
          rw [ih fuel (Nat.lt_succ_self _) (Nat.le_trans short within)]
          by_cases same : others.length = fuel
          · rw [same, ih fuel (Nat.lt_succ_self _) (Nat.le_trans short within)]
          · exact (ih others.length (by omega) short).symm
        cases first (byte :: others) with
        | some char => exact congrArg _ (passed char.utf8Size_pos)
        | none => exact congrArg _ (passed (illFormed_pos (List.cons_ne_nil _ _)))

/-- A character reads as itself. -/
theorem lossy_char (char : Char) (rest : List UInt8) :
    lossy (String.utf8EncodeChar char ++ rest) = char :: lossy rest := by
  have found : first (String.utf8EncodeChar char ++ rest) = some char :=
    first_eq_some.mpr ⟨rest, rfl⟩
  obtain ⟨byte, more, encoded, _⟩ := encodeChar_cases char
  have size : (String.utf8EncodeChar char).length = char.utf8Size := String.length_utf8EncodeChar char
  have passed : (String.utf8EncodeChar char ++ rest).drop char.utf8Size = rest := by
    rw [← size, List.drop_left]
  have whole : String.utf8EncodeChar char ++ rest = byte :: (more ++ rest) := by rw [encoded]; rfl
  unfold lossy
  rw [whole] at found passed ⊢
  rw [List.length_cons, lossyFrom_cons, found]
  dsimp only
  rw [passed, lossyFrom_eq]
  · rfl
  · simp

/-- Bytes that start no character read as a replacement and what follows. -/
theorem lossy_of_first (some : bytes ≠ []) (none : first bytes = none) :
    lossy bytes = replacement :: lossy (bytes.drop (illFormed bytes)) := by
  obtain ⟨byte, others, rfl⟩ := List.exists_cons_of_ne_nil some
  unfold lossy
  rw [List.length_cons, lossyFrom_cons, none]
  dsimp only
  rw [lossyFrom_eq]
  · rfl
  · have positive := illFormed_pos some
    rw [List.length_drop, List.length_cons]
    omega

/-- Some bytes read as some text. -/
theorem lossy_ne_nil (some : bytes ≠ []) : lossy bytes ≠ [] := by
  cases found : first bytes with
  | none =>
    rw [lossy_of_first some found]
    exact List.cons_ne_nil _ _
  | some =>
    obtain ⟨rest, rfl⟩ := first_eq_some.mp found
    rw [lossy_char]
    exact List.cons_ne_nil _ _

/-- Bytes inside a character read as a replacement each. -/
theorem lossy_continues (inside : ∀ byte ∈ start, continues byte = true) :
    lossy (start ++ rest) = List.replicate start.length replacement ++ lossy rest := by
  induction start with
  | nil => rfl
  | cons byte start ih =>
    rw [List.forall_mem_cons] at inside
    have none : first (byte :: (start ++ rest)) = none := by
      rw [Option.eq_none_iff_forall_ne_some]
      intro char found
      obtain ⟨after, split⟩ := first_eq_some.mp found
      obtain ⟨head, more, encoded, outside, _⟩ := encodeChar_cases char
      rw [encoded, List.cons_append, List.cons.injEq] at split
      rw [split.1, outside] at inside
      cases inside.1
    have single : illFormed (byte :: (start ++ rest)) = 1 := by
      cases start ++ rest with
      | nil => rfl
      | cons two others =>
        change (if opensLong byte two = true then _ else 1) = 1
        rw [if_neg]
        have low := inside.1
        simp only [continues, opensLong, Bool.and_eq_true, Bool.or_eq_true, decide_eq_true_eq,
          UInt8.le_iff_toNat_le, ← UInt8.toNat_inj, UInt8.reduceToNat] at low ⊢
        omega
    rw [List.cons_append, lossy_of_first (List.cons_ne_nil _ _) none, single, List.drop_one,
      List.tail_cons, ih inside.2]
    rfl

/-- A start of a character that goes no further reads as one replacement. -/
theorem lossy_start {more : List UInt8} (split : String.utf8EncodeChar char = start ++ more)
    (begun : start ≠ []) (cut : more ≠ []) : lossy start = [replacement] := by
  have none : first start = none := by
    rw [Option.eq_none_iff_forall_ne_some]
    intro other found
    obtain ⟨after, same⟩ := first_eq_some.mp found
    have whole : String.utf8EncodeChar char ++ [] = String.utf8EncodeChar other ++ (after ++ more) := by
      rw [List.append_nil, split, same, List.append_assoc]
    have one : first (String.utf8EncodeChar char ++ []) = some char := first_eq_some.mpr ⟨[], rfl⟩
    have two := first_eq_some.mpr ⟨after ++ more, whole⟩
    rw [one] at two
    cases two
    have empty := List.append_cancel_left whole
    exact cut (List.append_eq_nil_iff.mp empty.symm).2
  rw [lossy_of_first begun none, illFormed_start split begun cut, List.drop_length]
  rfl

end Parts

/-! ### A text in chunks -/

/-- A text with replacements, two at least, for some of the characters that have several bytes. -/
inductive Marred : (text read : List Char) → Prop
  | nil : Marred [] []
  | keep {char : Char} {text read : List Char} : Marred text read →
      Marred (char :: text) (char :: read)
  | cut {char : Char} {marks : Nat} {text read : List Char} : 0x80 ≤ char.toNat → 2 ≤ marks →
      Marred text read → Marred (char :: text) (List.replicate marks replacement ++ read)

namespace Marred

variable {text read more again : List Char}

theorem refl (text : List Char) : Marred text text := by
  induction text with
  | nil => exact .nil
  | cons char text ih => exact .keep ih

/-- A marred text is longer, unless it is not marred. -/
theorem eq_or_longer (marred : Marred text read) : read = text ∨ text.length < read.length := by
  induction marred with
  | nil => exact .inl rfl
  | keep _ ih => exact ih.imp (congrArg _) (Nat.succ_lt_succ ·)
  | cut _ two _ ih =>
    right
    have long := ih.elim (fun same => Nat.le_of_eq (congrArg List.length same).symm) Nat.le_of_lt
    rw [List.length_cons, List.length_append, List.length_replicate]
    omega

theorem append (first : Marred text read) (second : Marred more again) :
    Marred (text ++ more) (read ++ again) := by
  induction first with
  | nil => exact second
  | keep _ ih => exact .keep ih
  | cut high two _ ih =>
    rw [List.append_assoc]
    exact .cut high two ih

/-- Where two texts are read together, each is read. -/
theorem of_append (marred : Marred (text ++ more) read) :
    ∃ one other, read = one ++ other ∧ Marred text one ∧ Marred more other := by
  induction text generalizing read with
  | nil => exact ⟨[], read, rfl, .nil, marred⟩
  | cons char text ih =>
    generalize whole : char :: text ++ more = both at marred
    cases marred with
    | nil => cases whole
    | keep rest =>
      cases whole
      obtain ⟨one, other, rfl, first, second⟩ := ih rest
      exact ⟨char :: one, other, rfl, .keep first, second⟩
    | cut high two rest =>
      cases whole
      obtain ⟨one, other, rfl, first, second⟩ := ih rest
      exact ⟨_, other, (List.append_assoc ..).symm, .cut high two first, second⟩

/-- A text of one byte a character is not marred. -/
theorem of_ascii (marred : Marred text read) (ascii : ∀ char ∈ text, char.toNat < 0x80) :
    read = text := by
  induction marred with
  | nil => rfl
  | keep _ ih => rw [ih (List.forall_mem_cons.mp ascii).2]
  | cut high => exact absurd high (Nat.not_le.mpr (List.forall_mem_cons.mp ascii).1)

/-- What has several bytes, and what stands for it, is none of the characters of one byte. -/
theorem mem_ascii (marred : Marred text read) {char : Char} (ascii : char.toNat < 0x80) :
    char ∈ read ↔ char ∈ text := by
  induction marred with
  | nil => rfl
  | keep _ ih => rw [List.mem_cons, List.mem_cons, ih]
  | @cut other marks _ _ high _ _ ih =>
    have apart : char ≠ other := by
      rintro rfl
      omega
    have mark : char ∉ List.replicate marks replacement := by
      intro member
      rw [List.eq_of_mem_replicate member] at ascii
      exact absurd ascii (by decide)
    rw [List.mem_append, List.mem_cons, ih, or_iff_right mark, or_iff_right apart]

end Marred

section Chunks

variable {text front back : List Char} {chunks : List (List UInt8)}

theorem lossy_encode (text : List Char) (rest : List UInt8) :
    lossy (encode text ++ rest) = text ++ lossy rest := by
  induction text with
  | nil => rfl
  | cons char text ih =>
    rw [encode, List.flatMap_cons, List.append_assoc, lossy_char]
    exact congrArg _ ih

/-- Bytes are read strictly just where they are those of a text. -/
theorem strict_eq_some {bytes : List UInt8} : strict bytes = some text ↔ bytes = encode text := by
  have own : lossy (encode text) = text := by
    have read := lossy_encode text []
    rw [List.append_nil] at read
    exact read.trans (List.append_nil text)
  rw [strict, Option.ite_none_right_eq_some, Option.some.injEq]
  constructor
  · rintro ⟨same, rfl⟩
    exact same.symm
  · rintro rfl
    rw [own]
    exact ⟨rfl, rfl⟩

/-- The newline is the byte of the character only. -/
theorem newline_mem_encode : (0x0a : UInt8) ∈ encode text ↔ '\n' ∈ text := by
  rw [encode, List.mem_flatMap]
  constructor
  · rintro ⟨char, member, held⟩
    obtain ⟨byte, more, encoded, _, inside, long⟩ := encodeChar_cases char
    rw [encoded, List.mem_cons] at held
    rcases held with rfl | within
    · have here : first (String.utf8EncodeChar char ++ []) = some char := first_eq_some.mpr ⟨_, rfl⟩
      have there : first (String.utf8EncodeChar '\n' ++ more) = some '\n' :=
        first_eq_some.mpr ⟨_, rfl⟩
      rw [List.append_nil, encoded] at here
      have same : char = '\n' := Option.some.inj (here.symm.trans there)
      exact same ▸ member
    · exact absurd (inside _ within) (by decide)
  · exact fun member => ⟨'\n', member, by decide⟩

/-- The bytes of a text end inside a character, or between two. -/
theorem encode_split {taken left : List UInt8} (split : encode text = taken ++ left) :
    (∃ front back, text = front ++ back ∧ taken = encode front ∧ left = encode back) ∨
      ∃ front char back start rest, text = front ++ char :: back ∧
        String.utf8EncodeChar char = start ++ rest ∧ start ≠ [] ∧ rest ≠ [] ∧
        taken = encode front ++ start ∧ left = rest ++ encode back := by
  induction text generalizing taken with
  | nil =>
    obtain ⟨rfl, rfl⟩ := List.append_eq_nil_iff.mp split.symm
    exact .inl ⟨[], [], rfl, rfl, rfl⟩
  | cons char text ih =>
    rw [encode, List.flatMap_cons] at split
    rcases List.append_eq_append_iff.mp split with ⟨further, rfl, others⟩ | ⟨rest, whole, rfl⟩
    · rcases ih others with ⟨front, back, rfl, rfl, rfl⟩ |
        ⟨front, cut, back, start, rest, rfl, whole, begun, some, rfl, rfl⟩
      · exact .inl ⟨char :: front, back, rfl, rfl, rfl⟩
      · exact .inr ⟨char :: front, cut, back, start, rest, rfl, whole, begun, some,
          (List.append_assoc ..).symm, rfl⟩
    · cases taken with
      | nil => exact .inl ⟨[], char :: text, rfl, rfl, by rw [encode, List.flatMap_cons, whole]; rfl⟩
      | cons byte taken =>
        cases rest with
        | nil =>
          refine .inl ⟨[char], text, rfl, ?_, rfl⟩
          rw [← List.append_nil (byte :: taken), ← whole]
          exact (List.append_nil _).symm
        | cons other rest =>
          exact .inr ⟨[], char, text, byte :: taken, other :: rest, rfl, whole, nofun, nofun,
            rfl, rfl⟩

/-- Where the bytes of a text start with those of another, so does the text. -/
theorem encode_of_append {rest : List UInt8} (split : encode text = encode front ++ rest) :
    ∃ back, text = front ++ back ∧ rest = encode back := by
  induction front generalizing text with
  | nil => exact ⟨text, rfl, split.symm⟩
  | cons char front ih =>
    rw [encode, encode, List.flatMap_cons, List.append_assoc] at split
    cases text with
    | nil =>
      obtain ⟨byte, more, encoded, _⟩ := encodeChar_cases char
      rw [encoded] at split
      cases split
    | cons other text =>
      have one : first (encode (other :: text)) = some other := first_eq_some.mpr ⟨_, rfl⟩
      have two := first_eq_some.mpr ⟨_, split⟩
      rw [List.flatMap_cons] at split two
      obtain rfl : other = char := Option.some.inj (one.symm.trans two)
      obtain ⟨back, rfl, same⟩ := ih (List.append_cancel_left split)
      exact ⟨back, rfl, same⟩

/-- The start of a character is no text. -/
theorem ne_encode_of_start {char : Char} {start rest : List UInt8}
    (split : String.utf8EncodeChar char = start ++ rest) (begun : start ≠ []) (cut : rest ≠ [])
    (part : List Char) : encode front ++ start ≠ encode part := by
  intro same
  have whole : encode (front ++ [char]) = encode part ++ rest := by
    rw [← same, List.append_assoc, ← split, encode, List.flatMap_append, List.flatMap_singleton,
      encode]
  obtain ⟨back, text, rfl⟩ := encode_of_append whole
  obtain ⟨byte, more, encoded, _, inside, _⟩ := encodeChar_cases char
  cases back with
  | nil => exact cut rfl
  | cons other back =>
    obtain ⟨head, tail, encoded', outside, _⟩ := encodeChar_cases other
    cases start with
    | nil => exact begun rfl
    | cons =>
      rw [encoded, encode, List.flatMap_cons, encoded'] at split
      have within : head ∈ more := by
        rw [(List.cons.inj split).2]
        simp
      rw [inside head within] at outside
      cases outside

/-- Read in chunks, what is left of a character and a text comes out as replacements and the text,
marred where a chunk ends inside a character. -/
theorem lossy_chunks_of_inside {inside : List UInt8} (within : ∀ byte ∈ inside, continues byte = true)
    (joined : chunks.flatten = inside ++ encode text) :
    ∃ read, chunks.flatMap lossy = List.replicate inside.length replacement ++ read ∧
      Marred text read ∧
        (inside = [] → (read = text ↔ ∀ chunk ∈ chunks, ∃ part, chunk = encode part)) := by
  induction chunks generalizing inside text with
  | nil =>
    obtain ⟨rfl, none⟩ := List.append_eq_nil_iff.mp joined.symm
    have empty : text = [] := by
      cases text with
      | nil => rfl
      | cons char text =>
        obtain ⟨byte, more, encoded, _⟩ := encodeChar_cases char
        rw [encode, List.flatMap_cons, encoded] at none
        cases none
    rw [empty]
    exact ⟨[], rfl, .nil, fun _ => ⟨fun _ _ member => (nomatch member), fun _ => rfl⟩⟩
  | cons chunk chunks ih =>
    rw [List.flatten_cons] at joined
    rw [List.flatMap_cons]
    rcases List.append_eq_append_iff.mp joined with ⟨later, rfl, rest⟩ | ⟨taken, rfl, rest⟩
    · -- the chunk ends before the character does
      rw [List.forall_mem_append] at within
      obtain ⟨read, others, marred, whole⟩ := ih within.2 rest
      have here : lossy (chunk ++ []) = _ := lossy_continues within.1
      have empty : lossy [] = [] := rfl
      rw [List.append_nil, empty, List.append_nil] at here
      refine ⟨read, ?_, marred, fun none => ?_⟩
      · rw [here, others, ← List.append_assoc, List.replicate_append_replicate, List.length_append]
      · obtain ⟨rfl, rfl⟩ := List.append_eq_nil_iff.mp none
        rw [whole rfl, List.forall_mem_cons, and_iff_right]
        exact ⟨[], rfl⟩
    · rcases encode_split rest with ⟨front, back, rfl, rfl, left⟩ |
        ⟨front, char, back, start, more, rfl, split, begun, cut, rfl, left⟩
      · obtain ⟨read, others, marred, whole⟩ := @ih back [] (fun _ none => nomatch none) left
        refine ⟨front ++ read, ?_, (Marred.refl front).append marred, ?_⟩
        · rw [lossy_continues within, ← List.append_nil (encode front), lossy_encode, others]
          simp [lossy, lossyFrom]
        · rintro rfl
          rw [List.append_cancel_left_eq, whole rfl, List.forall_mem_cons, and_iff_right]
          exact ⟨front, rfl⟩
      · obtain ⟨byte, tail, encoded, _, continued, high⟩ := encodeChar_cases char
        obtain ⟨inner, rfl⟩ : ∃ inner, start = byte :: inner := by
          obtain ⟨other, inner, rfl⟩ := List.exists_cons_of_ne_nil begun
          rw [encoded] at split
          exact ⟨inner, by rw [(List.cons.inj split).1]⟩
        have parts : tail = inner ++ more := (List.cons.inj (encoded.symm.trans split)).2
        rw [parts, List.forall_mem_append] at continued
        obtain ⟨read, others, marred, _⟩ := ih continued.2 left
        have cutMarred : Marred (char :: back)
            (List.replicate (more.length + 1) replacement ++ read) := by
          refine .cut (high ?_) (Nat.succ_le_succ (List.length_pos_iff.mpr cut)) marred
          rw [parts]
          exact List.append_ne_nil_of_right_ne_nil _ cut
        refine ⟨front ++ (List.replicate (more.length + 1) replacement ++ read), ?_,
          (Marred.refl front).append cutMarred, ?_⟩
        · rw [lossy_continues within, lossy_encode, lossy_start split begun cut, others,
            List.replicate_succ]
          simp
        · rintro rfl
          refine iff_of_false (fun same => ?_) fun all => ?_
          · have sizes := congrArg List.length (List.append_cancel_left same)
            have grown := marred.eq_or_longer.elim
              (fun same => Nat.le_of_eq (congrArg List.length same).symm) Nat.le_of_lt
            rw [List.length_append, List.length_replicate, List.length_cons] at sizes
            have some := List.length_pos_iff.mpr cut
            omega
          · obtain ⟨part, same⟩ := all _ List.mem_cons_self
            exact ne_encode_of_start split begun cut part same

/-- Read in chunks, a text comes out marred, and unmarred just where each chunk is a text. -/
theorem lossy_chunks (joined : chunks.flatten = encode text) :
    Marred text (chunks.flatMap lossy) ∧
      (chunks.flatMap lossy = text ↔ ∀ chunk ∈ chunks, ∃ part, chunk = encode part) := by
  obtain ⟨read, same, marred, whole⟩ :=
    @lossy_chunks_of_inside text chunks [] (fun _ none => nomatch none) joined
  rw [same]
  exact ⟨marred, whole rfl⟩

end Chunks

end Zuihitsu.Library.Lossy
