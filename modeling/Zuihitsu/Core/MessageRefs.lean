/-
# References in messages

A message names a turn or a memory by a bracket token with its ULID. The scan walks the
bytes of the text, cutting it only where a token was matched, and the normal form writes
every reference as its canonical token. The text form of a ULID is a parameter.
-/

import Mathlib.Data.List.Chain
import Mathlib.Data.List.Infix
import Zuihitsu.Core.Ids

namespace Zuihitsu.MessageRefs

open Zuihitsu.Core

/-! ### Text as bytes -/

/-- The bytes of a text. -/
def utf8 (text : List Char) : List UInt8 := text.flatMap String.utf8EncodeChar

/-- A byte inside a character, after its first. -/
def isContinuation (byte : UInt8) : Bool := 0x80 ≤ byte && byte < 0xc0

/-- `str::is_char_boundary`. -/
def isCharBoundary (bytes : List UInt8) (index : Nat) : Bool :=
  match bytes.drop index with
  | [] => index = bytes.length
  | byte :: _ => index = 0 || !isContinuation byte

/-- `str::get` of a range: nothing where an end is no character boundary. -/
def get (bytes : List UInt8) (first last : Nat) : Option (List UInt8) :=
  if first ≤ last ∧ isCharBoundary bytes first ∧ isCharBoundary bytes last then
    some ((bytes.take last).drop first)
  else none

/-- `str::strip_prefix`. -/
def stripPrefix (opener bytes : List UInt8) : Option (List UInt8) :=
  if opener.isPrefixOf bytes then some (bytes.drop opener.length) else none

/-! ### The tokens -/

/-- The text form of a ULID. -/
structure UlidCodec where
  fromString : List UInt8 → Option Nat
  toString : Nat → List UInt8

/-- The opener of a turn's token. -/
def turnOpen : List UInt8 := utf8 "[turn:".toList

/-- The opener of a memory's token. -/
def memOpen : List UInt8 := utf8 "[mem:".toList

/-- The byte that closes a token. -/
def close : UInt8 := 0x5d

/-- The length of a ULID's text. -/
def ulidLen : Nat := 26

/-- One span of scanned text. -/
inductive Segment where
  | prose (text : List UInt8)
  | turn (turn : TurnId)
  | mem (memory : MemoryId)
  deriving DecidableEq, Repr

variable (codec : UlidCodec)

/-- The ULID a bracket token opens at a byte of a text. -/
def bracketBodyAt (text : List UInt8) (index : Nat) (opener : List UInt8) : Option Nat :=
  (get text index text.length).bind fun suffix =>
    (stripPrefix opener suffix).bind fun rest =>
      (get rest 0 ulidLen).bind fun body =>
        if rest[ulidLen]? = some close then codec.fromString body else none

/-- The reference token that starts at a byte of a text, and its length. -/
def tokenAt (text : List UInt8) (index : Nat) : Option (Segment × Nat) :=
  match bracketBodyAt codec text index turnOpen with
  | some ulid => some (.turn ⟨ulid⟩, turnOpen.length + ulidLen + 1)
  | none =>
    match bracketBodyAt codec text index memOpen with
    | some ulid => some (.mem ⟨ulid⟩, memOpen.length + ulidLen + 1)
    | none => none

/-- Push a span of prose, unless it is empty. -/
def flushProse (segments : List Segment) (prose : List UInt8) : List Segment :=
  if prose.isEmpty then segments else segments ++ [.prose prose]

/-- The loop over the bytes. There is no result where a slice would cut a character, which
stops the thread, or where the fuel runs out. -/
def scanLoop (text : List UInt8) : Nat → List Segment → (proseStart index : Nat) →
    Option (List Segment)
  | 0, _, _, _ => none
  | fuel + 1, segments, proseStart, index =>
    if index < text.length then
      match tokenAt codec text index with
      | some (segment, length) =>
        (get text proseStart index).bind fun prose =>
          scanLoop text fuel (flushProse segments prose ++ [segment]) (index + length)
            (index + length)
      | none => scanLoop text fuel segments proseStart (index + 1)
    else (get text proseStart text.length).map (flushProse segments)

/-- Split a text into prose and references. -/
def scan (text : List UInt8) : Option (List Segment) := scanLoop codec text (text.length + 1) [] 0 0

/-- The canonical token of a turn. -/
def constructTurn (turn : TurnId) : List UInt8 := turnOpen ++ codec.toString turn.ulid ++ [close]

/-- The canonical token of a memory. -/
def constructMem (memory : MemoryId) : List UInt8 :=
  memOpen ++ codec.toString memory.ulid ++ [close]

/-- How a segment is written. -/
def render : Segment → List UInt8
  | .prose text => text
  | .turn turn => constructTurn codec turn
  | .mem memory => constructMem codec memory

/-- Rebuild a text with every reference written as its canonical token. -/
def normalize (text : List UInt8) : Option (List UInt8) :=
  (scan codec text).map fun segments => segments.flatMap (render codec)

/-! ### The text form -/

/-- A byte a ULID is written with: an ASCII one, and no bracket or colon. -/
def IsBodyByte (byte : UInt8) : Prop := byte < 0x80 ∧ byte ≠ 0x5b ∧ byte ≠ 0x5d ∧ byte ≠ 0x3a

/-- What the ULID codec promises: a ULID's text has 26 bytes of the alphabet and reads back
as the ULID, and only such text is read. -/
structure UlidCodec.Lawful (codec : UlidCodec) : Prop where
  length : ∀ ulid < 2 ^ 128, (codec.toString ulid).length = ulidLen
  roundTrip : ∀ ulid < 2 ^ 128, codec.fromString (codec.toString ulid) = some ulid
  bounded : ∀ body ulid, codec.fromString body = some ulid → ulid < 2 ^ 128
  alphabet : ∀ body ulid, codec.fromString body = some ulid → ∀ byte ∈ body, IsBodyByte byte

/-- A token stands for a reference: an opener, a body that reads as a ULID, and the close. -/
inductive IsToken : List UInt8 → Segment → Prop
  | turn {body : List UInt8} {ulid : Nat} : body.length = ulidLen →
      codec.fromString body = some ulid → IsToken (turnOpen ++ body ++ [close]) (.turn ⟨ulid⟩)
  | mem {body : List UInt8} {ulid : Nat} : body.length = ulidLen →
      codec.fromString body = some ulid → IsToken (memOpen ++ body ++ [close]) (.mem ⟨ulid⟩)

/-- No token starts where these bytes do. -/
def NoToken (bytes : List UInt8) : Prop :=
  ∀ token tail segment, bytes = token ++ tail → ¬ IsToken codec token segment

/-- Segments cover bytes in order, prose standing for itself and a reference for a token. -/
inductive Covers : List Segment → List UInt8 → Prop
  | nil : Covers [] []
  | prose {text tail : List UInt8} {segments : List Segment} : Covers segments tail →
      Covers (.prose text :: segments) (text ++ tail)
  | token {token tail : List UInt8} {segment : Segment} {segments : List Segment} :
      IsToken codec token segment → Covers segments tail → Covers (segment :: segments) (token ++ tail)

/-- Prose is never empty, and never follows prose. -/
structure Separated (segments : List Segment) : Prop where
  nonempty : ∀ text, Segment.prose text ∈ segments → text ≠ []
  apart : segments.IsChain fun one next => ∀ text more, one = .prose text → next ≠ .prose more

/-- What a scan makes of the bytes that remain, with prose pending. -/
inductive Scans : (pending rest : List UInt8) → List Segment → Prop
  | done {pending : List UInt8} : Scans pending [] (flushProse [] pending)
  | token {pending token tail : List UInt8} {segment : Segment} {segments : List Segment} :
      IsToken codec token segment → Scans [] tail segments →
      Scans pending (token ++ tail) (flushProse [] pending ++ segment :: segments)
  | byte {pending rest : List UInt8} {byte : UInt8} {segments : List Segment} :
      NoToken codec (byte :: rest) → Scans (pending ++ [byte]) rest segments →
      Scans pending (byte :: rest) segments

/-! ### Tokens -/

section Tokens

variable {codec : UlidCodec} {token tail bytes body opener : List UInt8} {segment other : Segment}

theorem turnOpen_eq : turnOpen = 0x5b :: [0x74, 0x75, 0x72, 0x6e, 0x3a] := by decide

theorem memOpen_eq : memOpen = 0x5b :: [0x6d, 0x65, 0x6d, 0x3a] := by decide

theorem turnOpen_ascii : ∀ byte ∈ turnOpen, byte < 0x80 := by
  simp only [turnOpen_eq, List.forall_mem_cons, List.not_mem_nil, false_implies, implies_true,
    and_true]
  decide

theorem memOpen_ascii : ∀ byte ∈ memOpen, byte < 0x80 := by
  simp only [memOpen_eq, List.forall_mem_cons, List.not_mem_nil, false_implies, implies_true,
    and_true]
  decide

theorem isContinuation_of_ascii {byte : UInt8} (ascii : byte < 0x80) :
    isContinuation byte = false := by
  unfold isContinuation
  rw [Bool.and_eq_false_iff, decide_eq_false_iff_not]
  exact .inl (UInt8.not_le.mpr ascii)

theorem IsToken.cons (laws : codec.Lawful) (stands : IsToken codec token segment) :
    ∃ inner, token = 0x5b :: inner ∧ 0x5b ∉ inner := by
  cases stands with
  | turn _ reads =>
    refine ⟨_, by rw [turnOpen_eq, List.cons_append, List.cons_append], ?_⟩
    have body := laws.alphabet _ _ reads
    simp only [List.mem_append, List.mem_singleton, not_or]
    exact ⟨⟨by decide, fun member => (body _ member).2.1 rfl⟩, by decide⟩
  | mem _ reads =>
    refine ⟨_, by rw [memOpen_eq, List.cons_append, List.cons_append], ?_⟩
    have body := laws.alphabet _ _ reads
    simp only [List.mem_append, List.mem_singleton, not_or]
    exact ⟨⟨by decide, fun member => (body _ member).2.1 rfl⟩, by decide⟩

theorem IsToken.ascii (laws : codec.Lawful) (stands : IsToken codec token segment) :
    (∀ byte ∈ token, byte < 0x80) ∧ ∃ front, token = front ++ [close] := by
  have ascii : ∀ body ulid, codec.fromString body = some ulid → ∀ byte ∈ body, byte < 0x80 :=
    fun body ulid reads byte member => (laws.alphabet body ulid reads byte member).1
  cases stands with
  | turn _ reads =>
    refine ⟨?_, _, rfl⟩
    simp only [List.forall_mem_append, List.forall_mem_singleton]
    exact ⟨⟨turnOpen_ascii, ascii _ _ reads⟩, by decide⟩
  | mem _ reads =>
    refine ⟨?_, _, rfl⟩
    simp only [List.forall_mem_append, List.forall_mem_singleton]
    exact ⟨⟨memOpen_ascii, ascii _ _ reads⟩, by decide⟩

theorem IsToken.length (stands : IsToken codec token segment) :
    token.length = 32 ∨ token.length = 33 := by
  cases stands with
  | turn sized _ => right; rw [List.length_append, List.length_append, sized]; decide
  | mem sized _ => left; rw [List.length_append, List.length_append, sized]; decide

theorem IsToken.unique {more rest : List UInt8}
    (stands : IsToken codec token segment) (again : IsToken codec more other)
    (same : token ++ tail = more ++ rest) : token = more ∧ tail = rest ∧ segment = other := by
  cases stands with
  | turn sized reads =>
    cases again with
    | turn sized' reads' =>
      have cut := List.append_inj same (by simp [sized, sized'])
      have body := List.append_inj cut.1 (by simp [sized, sized'])
      have bodies := List.append_cancel_left body.1
      subst bodies
      cases reads.symm.trans reads'
      exact ⟨rfl, cut.2, rfl⟩
    | mem => simp [turnOpen_eq, memOpen_eq] at same
  | mem sized reads =>
    cases again with
    | turn => simp [turnOpen_eq, memOpen_eq] at same
    | mem sized' reads' =>
      have cut := List.append_inj same (by simp [sized, sized'])
      have body := List.append_inj cut.1 (by simp [sized, sized'])
      have bodies := List.append_cancel_left body.1
      subst bodies
      cases reads.symm.trans reads'
      exact ⟨rfl, cut.2, rfl⟩

theorem IsToken.within (laws : codec.Lawful) (stands : IsToken codec token segment)
    {front rest : List UInt8} (begun : front ≠ []) (opens : ∀ byte ∈ rest.head?, byte = 0x5b)
    (same : front ++ rest = token ++ tail) : ∃ left, front = token ++ left ∧ tail = left ++ rest := by
  obtain ⟨inner, rfl, closed⟩ := stands.cons laws
  rcases List.append_eq_append_iff.mp same with ⟨between, split, rfl⟩ | ⟨left, rfl, rfl⟩
  · cases between with
    | nil => exact ⟨[], by simpa using split.symm, rfl⟩
    | cons byte others =>
      cases opens byte rfl
      obtain ⟨first, later, rfl⟩ := List.exists_cons_of_ne_nil begun
      cases split
      exact absurd (List.mem_append_right later List.mem_cons_self) closed
  · exact ⟨left, rfl, rfl⟩

theorem isCharBoundary_of_drop {text rest : List UInt8} {index : Nat} {byte : UInt8}
    (remains : text.drop index = byte :: rest) (first : isContinuation byte = false) :
    isCharBoundary text index = true := by
  unfold isCharBoundary
  rw [remains]
  simp [first]

theorem isCharBoundary_length (text : List UInt8) : isCharBoundary text text.length = true := by
  simp [isCharBoundary]

theorem isCharBoundary_zero (text : List UInt8) : isCharBoundary text 0 = true := by
  unfold isCharBoundary
  cases text <;> simp

theorem stripPrefix_eq_some {rest : List UInt8} :
    stripPrefix opener bytes = some rest ↔ bytes = opener ++ rest := by
  unfold stripPrefix
  rw [Option.ite_none_right_eq_some, List.isPrefixOf_iff_prefix, Option.some.injEq]
  constructor
  · rintro ⟨⟨after, rfl⟩, same⟩
    rw [← same, List.drop_left]
  · rintro rfl
    exact ⟨List.prefix_append _ _, List.drop_left⟩

theorem get_eq_some {first last : Nat} {part : List UInt8} :
    get bytes first last = some part ↔
      (first ≤ last ∧ isCharBoundary bytes first = true ∧ isCharBoundary bytes last = true) ∧
        (bytes.take last).drop first = part := by
  unfold get
  rw [Option.ite_none_right_eq_some, Option.some.injEq]

theorem bracketBodyAt_eq_some {text : List UInt8} {index ulid : Nat} (begun : opener ≠ [])
    (ascii : ∀ byte ∈ opener, byte < 0x80) :
    bracketBodyAt codec text index opener = some ulid ↔
      ∃ body tail, text.drop index = opener ++ body ++ [close] ++ tail ∧ body.length = ulidLen ∧
        codec.fromString body = some ulid := by
  unfold bracketBodyAt
  simp only [Option.bind_eq_some_iff, stripPrefix_eq_some, get_eq_some, List.take_length,
    List.drop_zero, Option.ite_none_right_eq_some]
  constructor
  · rintro ⟨_, ⟨_, rfl⟩, rest, remains, _, ⟨_, rfl⟩, closed, reads⟩
    obtain ⟨within, closed⟩ := List.getElem?_eq_some_iff.mp closed
    refine ⟨rest.take ulidLen, rest.drop (ulidLen + 1), ?_, ?_, reads⟩
    · rw [remains, List.append_assoc, List.append_assoc, ← closed, List.singleton_append,
        List.cons_getElem_drop_succ, List.take_append_drop]
    · rw [List.length_take]
      omega
  · rintro ⟨body, tail, remains, sized, reads⟩
    have inside : index ≤ text.length := by
      by_contra beyond
      rw [List.drop_eq_nil_of_le (by omega)] at remains
      simp at remains
    have boundary : isCharBoundary text index = true := by
      obtain ⟨byte, others, rfl⟩ := List.exists_cons_of_ne_nil begun
      exact isCharBoundary_of_drop remains
        (isContinuation_of_ascii (ascii byte List.mem_cons_self))
    have cut : (body ++ close :: tail).drop ulidLen = close :: tail := by
      rw [← sized, List.drop_left]
    refine ⟨_, ⟨⟨inside, boundary, isCharBoundary_length text⟩, rfl⟩, body ++ close :: tail,
      by simpa using remains, body, ⟨⟨Nat.zero_le _, isCharBoundary_zero _,
        isCharBoundary_of_drop cut (by decide)⟩, ?_⟩, ?_, reads⟩
    · rw [← sized, List.take_left]
    · rw [← sized]
      simp

theorem tokenAt_eq_some {text : List UInt8} {index length : Nat} :
    tokenAt codec text index = some (segment, length) ↔
      ∃ token tail, text.drop index = token ++ tail ∧ IsToken codec token segment ∧
        length = token.length := by
  have turns := fun ulid =>
    @bracketBodyAt_eq_some codec turnOpen text index ulid (by decide) turnOpen_ascii
  have mems := fun ulid =>
    @bracketBodyAt_eq_some codec memOpen text index ulid (by decide) memOpen_ascii
  unfold tokenAt
  cases found : bracketBodyAt codec text index turnOpen with
  | some =>
    obtain ⟨body, tail, remains, sized, reads⟩ := (turns _).mp found
    simp only [Option.some.injEq, Prod.mk.injEq]
    constructor
    · rintro ⟨rfl, rfl⟩
      exact ⟨_, tail, remains, .turn sized reads, by simp [sized]; omega⟩
    · rintro ⟨token, rest, remains', stands, rfl⟩
      obtain ⟨rfl, _, same⟩ := (IsToken.turn sized reads).unique stands (remains.symm.trans remains')
      exact ⟨same, by simp [sized]; omega⟩
  | none =>
    cases other : bracketBodyAt codec text index memOpen with
    | some =>
      obtain ⟨body, tail, remains, sized, reads⟩ := (mems _).mp other
      simp only [Option.some.injEq, Prod.mk.injEq]
      constructor
      · rintro ⟨rfl, rfl⟩
        exact ⟨_, tail, remains, .mem sized reads, by simp [sized]; omega⟩
      · rintro ⟨token, rest, remains', stands, rfl⟩
        obtain ⟨rfl, _, same⟩ := (IsToken.mem sized reads).unique stands (remains.symm.trans remains')
        exact ⟨same, by simp [sized]; omega⟩
    | none =>
      simp only [reduceCtorEq, false_iff, not_exists, not_and]
      intro token tail remains stands
      cases stands with
      | turn sized reads =>
        have present := (turns _).mpr ⟨_, tail, remains, sized, reads⟩
        rw [found] at present
        cases present
      | mem sized reads =>
        have present := (mems _).mpr ⟨_, tail, remains, sized, reads⟩
        rw [other] at present
        cases present

theorem tokenAt_eq_none {text : List UInt8} {index : Nat} :
    tokenAt codec text index = none ↔ NoToken codec (text.drop index) := by
  rw [Option.eq_none_iff_forall_ne_some]
  constructor
  · intro absent token tail segment remains stands
    exact absent _ (tokenAt_eq_some.mpr ⟨token, tail, remains, stands, rfl⟩)
  · rintro absent ⟨segment, length⟩ found
    obtain ⟨token, tail, remains, stands, _⟩ := tokenAt_eq_some.mp found
    exact absent token tail segment remains stands

end Tokens

/-! ### Text that is cut nowhere inside a character -/

/-- An ASCII byte is a whole character: what follows it begins another. -/
def Aligned (bytes : List UInt8) : Prop :=
  bytes.IsChain fun one next => one < 0x80 → isContinuation next = false

theorem aligned_utf8EncodeChar (char : Char) :
    Aligned (String.utf8EncodeChar char) ∧
      ∀ byte ∈ (String.utf8EncodeChar char).head?, isContinuation byte = false := by
  unfold Aligned isContinuation
  fun_cases String.utf8EncodeChar <;>
    simp [UInt8.lt_iff_toNat_lt, UInt8.le_iff_toNat_le] <;> omega

theorem aligned_utf8 (text : List Char) :
    Aligned (utf8 text) ∧ ∀ byte ∈ (utf8 text).head?, isContinuation byte = false := by
  induction text with
  | nil => exact ⟨.nil, by simp [utf8]⟩
  | cons char rest ih =>
    obtain ⟨one, first⟩ := aligned_utf8EncodeChar char
    unfold utf8 at ih ⊢
    rw [List.flatMap_cons]
    refine ⟨List.isChain_append.mpr ⟨one, ih.1, fun _ _ byte member _ => ih.2 byte member⟩, ?_⟩
    intro byte member
    cases encoded : String.utf8EncodeChar char with
    | nil =>
      rw [encoded] at member
      exact ih.2 byte member
    | cons =>
      rw [encoded] at member first
      exact first byte member

/-! ### The scan -/

section Scanning

variable {codec : UlidCodec} {pending rest bytes text : List UInt8}
variable {segments : List Segment} {segment : Segment}

theorem flushProse_eq (segments : List Segment) (prose : List UInt8) :
    flushProse segments prose = segments ++ flushProse [] prose := by
  unfold flushProse
  split <;> simp

theorem exists_scans (codec : UlidCodec) (pending rest : List UInt8) :
    ∃ segments, Scans codec pending rest segments := by
  induction size : rest.length using Nat.strong_induction_on generalizing pending rest with
  | _ size ih =>
    subst size
    cases rest with
    | nil => exact ⟨_, .done⟩
    | cons byte others =>
      by_cases absent : NoToken codec (byte :: others)
      · obtain ⟨segments, scans⟩ := ih others.length (by simp) (pending ++ [byte]) others rfl
        exact ⟨segments, .byte absent scans⟩
      · simp only [NoToken, not_forall, not_not] at absent
        obtain ⟨token, tail, segment, same, stands⟩ := absent
        have sized := stands.length
        have shorter : tail.length < (byte :: others).length := by
          rw [same, List.length_append]
          omega
        obtain ⟨segments, scans⟩ := ih tail.length shorter [] tail rfl
        rw [same]
        exact ⟨_, .token stands scans⟩

theorem covers_flushProse {tail : List UInt8} (covers : Covers codec segments tail) :
    Covers codec (flushProse [] pending ++ segments) (pending ++ tail) := by
  unfold flushProse
  split
  · rename_i empty
    rw [List.isEmpty_iff.mp empty]
    exact covers
  · exact .prose covers

theorem Scans.covers (scans : Scans codec pending rest segments) :
    Covers codec segments (pending ++ rest) := by
  induction scans with
  | @done pending =>
    have flushed : Covers codec (flushProse [] pending ++ []) (pending ++ []) :=
      covers_flushProse .nil
    simpa using flushed
  | token stands _ ih => exact covers_flushProse (.token stands ih)
  | @byte pending rest byte segments _ _ ih => simpa using ih

theorem IsToken.ne_prose {token text : List UInt8} (stands : IsToken codec token segment) :
    segment ≠ .prose text := by
  cases stands <;> exact Segment.noConfusion

theorem Scans.separated (scans : Scans codec pending rest segments) : Separated segments := by
  have single : ∀ pending : List UInt8, Separated (flushProse [] pending) := by
    intro pending
    unfold flushProse
    split
    · exact ⟨by simp, .nil⟩
    · rename_i present
      refine ⟨fun text member => ?_, .singleton _⟩
      cases List.mem_singleton.mp member
      exact fun empty => present (List.isEmpty_iff.mpr empty)
  induction scans with
  | done => exact single _
  | @token pending token tail segment segments stands _ ih =>
    have flushed := single pending
    refine ⟨fun text member => ?_, List.isChain_append.mpr ⟨flushed.apart,
      List.isChain_cons.mpr ⟨?_, ih.apart⟩, ?_⟩⟩
    · rcases List.mem_append.mp member with prose | member
      · exact flushed.nonempty text prose
      · rcases List.mem_cons.mp member with same | member
        · exact absurd same.symm stands.ne_prose
        · exact ih.nonempty text member
    · exact fun next _ text _ same => absurd same stands.ne_prose
    · intro one _ next first text more _
      cases first
      exact stands.ne_prose
  | byte _ _ ih => exact ih

theorem Scans.loop (laws : codec.Lawful) (scans : Scans codec pending rest segments)
    (aligned : Aligned text) {fuel proseStart index : Nat} {before : List Segment}
    (inside : index ≤ text.length) (begun : proseStart ≤ index)
    (starts : isCharBoundary text proseStart = true) (remains : text.drop index = rest)
    (taken : (text.take index).drop proseStart = pending) (fuelled : rest.length < fuel) :
    scanLoop codec text fuel before proseStart index = some (before ++ segments) := by
  induction scans generalizing fuel proseStart index before with
  | done =>
    obtain ⟨fuel, rfl⟩ := Nat.exists_eq_succ_of_ne_zero (Nat.ne_of_gt fuelled)
    have finished : index = text.length := by
      have left := congrArg List.length remains
      rw [List.length_drop, List.length_nil] at left
      omega
    subst finished
    rw [scanLoop, if_neg (lt_irrefl _),
      get_eq_some.mpr ⟨⟨begun, starts, isCharBoundary_length text⟩, taken⟩, Option.map_some,
      flushProse_eq]
  | @token pending token tail segment segments stands _ ih =>
    have sized := stands.length
    obtain ⟨fuel, rfl⟩ := Nat.exists_eq_succ_of_ne_zero (Nat.ne_of_gt (Nat.zero_lt_of_lt fuelled))
    have whole := congrArg List.length remains
    rw [List.length_drop, List.length_append] at whole
    have here : isCharBoundary text index = true := by
      obtain ⟨inner, rfl, _⟩ := stands.cons laws
      exact isCharBoundary_of_drop remains (by decide)
    have after : text.drop (index + token.length) = tail := by
      rw [← List.drop_drop, remains, List.drop_left]
    -- the close is a whole character, so the next one begins after it
    have next : isCharBoundary text (index + token.length) = true := by
      cases tail with
      | nil =>
        rw [List.length_nil] at whole
        rw [show index + token.length = text.length by omega]
        exact isCharBoundary_length text
      | cons byte others =>
        refine isCharBoundary_of_drop after ?_
        obtain ⟨_, front, rfl⟩ := stands.ascii laws
        have split : text = (text.take index ++ front) ++ close :: byte :: others := by
          have joined := (List.take_append_drop index text).symm
          rw [remains] at joined
          simpa using joined
        unfold Aligned at aligned
        rw [split] at aligned
        exact (List.isChain_cons_cons.mp (List.isChain_append.mp aligned).2.1).1 (by decide)
    rw [scanLoop, if_pos (by omega), tokenAt_eq_some.mpr ⟨token, tail, remains, stands, rfl⟩]
    simp only [get_eq_some.mpr ⟨⟨begun, starts, here⟩, taken⟩, Option.bind_some]
    rw [ih (by omega) (le_refl _) next after (by simp) (by rw [List.length_append] at fuelled; omega),
      flushProse_eq]
    simp
  | @byte pending rest byte segments absent _ ih =>
    obtain ⟨fuel, rfl⟩ := Nat.exists_eq_succ_of_ne_zero (Nat.ne_of_gt (Nat.zero_lt_of_lt fuelled))
    have whole := congrArg List.length remains
    rw [List.length_drop, List.length_cons] at whole
    have shift : text.drop (index + 1) = rest := by
      rw [← List.drop_drop, remains, List.drop_one, List.tail_cons]
    rw [scanLoop, if_pos (by omega), tokenAt_eq_none.mpr (remains ▸ absent)]
    refine ih (by omega) (by omega) starts shift ?_ (by rw [List.length_cons] at fuelled; omega)
    have one : text[index]? = some byte := by
      rw [← List.head?_drop, remains, List.head?_cons]
    rw [List.take_add_one, one, List.drop_append_of_le_length (by rw [List.length_take]; omega), taken]
    rfl

theorem Scans.scan (laws : codec.Lawful) (scans : Scans codec [] text segments)
    (aligned : Aligned text) : MessageRefs.scan codec text = some segments := by
  unfold MessageRefs.scan
  rw [scans.loop laws aligned (Nat.zero_le _) (le_refl _) (isCharBoundary_zero _) List.drop_zero
    (by simp) (Nat.lt_succ_self _), List.nil_append]

/-! ### The normal form -/

/-- Two texts go on alike: with the same bytes, and then both end or both open a bracket. -/
def AlikeUpTo (one other : List UInt8) : Prop :=
  ∃ front back back', one = front ++ back ∧ other = front ++ back' ∧
    (back = [] ∧ back' = [] ∨ back.head? = some 0x5b ∧ back'.head? = some 0x5b)

theorem NoToken.alike (laws : codec.Lawful) {byte : UInt8} {others others' : List UInt8}
    (absent : NoToken codec (byte :: others)) (alike : AlikeUpTo others others') :
    NoToken codec (byte :: others') := by
  obtain ⟨front, back, back', rfl, rfl, ends⟩ := alike
  intro token tail segment same stands
  obtain ⟨rfl, rfl⟩ | ⟨opened, opened'⟩ := ends
  · exact absent token tail segment same stands
  · rw [← List.cons_append] at same
    obtain ⟨left, split, _⟩ := stands.within laws (List.cons_ne_nil _ _)
      (by rw [opened']; rintro _ ⟨⟩; rfl) same
    refine absent token (left ++ back) segment ?_ stands
    rw [← List.cons_append, split, List.append_assoc]

theorem IsToken.canonical (laws : codec.Lawful) {token : List UInt8}
    (stands : IsToken codec token segment) : IsToken codec (render codec segment) segment := by
  cases stands with
  | turn _ reads =>
    have small := laws.bounded _ _ reads
    exact .turn (laws.length _ small) (laws.roundTrip _ small)
  | mem _ reads =>
    have small := laws.bounded _ _ reads
    exact .mem (laws.length _ small) (laws.roundTrip _ small)

theorem flatMap_flushProse (pending : List UInt8) :
    (flushProse [] pending).flatMap (render codec) = pending := by
  unfold flushProse
  split
  · rename_i empty
    rw [List.isEmpty_iff.mp empty]
    rfl
  · simp [render]

theorem Scans.rendered (laws : codec.Lawful) (scans : Scans codec pending rest segments) :
    ∃ rest', pending ++ rest' = segments.flatMap (render codec) ∧ AlikeUpTo rest rest' ∧
      Scans codec pending rest' segments := by
  induction scans with
  | @done pending =>
    exact ⟨[], by rw [flatMap_flushProse, List.append_nil], ⟨[], [], [], rfl, rfl, .inl ⟨rfl, rfl⟩⟩,
      .done⟩
  | @token pending token tail segment segments stands _ ih =>
    obtain ⟨tail', same, _, scans⟩ := ih
    have canonical := stands.canonical laws
    obtain ⟨_, opens, _⟩ := stands.cons laws
    obtain ⟨_, opens', _⟩ := canonical.cons laws
    refine ⟨render codec segment ++ tail', ?_, ⟨[], _, _, rfl, rfl, .inr ⟨by simp [opens],
      by rw [opens']; rfl⟩⟩, .token canonical scans⟩
    rw [List.flatMap_append, flatMap_flushProse, List.flatMap_cons, ← same, List.nil_append]
  | @byte pending rest byte segments absent _ ih =>
    obtain ⟨rest', same, alike, scans⟩ := ih
    refine ⟨byte :: rest', ?_, ?_, .byte (absent.alike laws alike) scans⟩
    · rw [← same, List.append_assoc, List.singleton_append]
    · obtain ⟨front, back, back', rfl, rfl, ends⟩ := alike
      exact ⟨byte :: front, back, back', rfl, rfl, ends⟩

theorem Covers.aligned (laws : codec.Lawful) (covers : Covers codec segments bytes)
    (aligned : Aligned bytes) :
    Aligned (segments.flatMap (render codec)) ∧
      ∀ byte ∈ (segments.flatMap (render codec)).head?,
        isContinuation byte = false ∨ byte ∈ bytes.head? := by
  induction covers with
  | nil => exact ⟨.nil, by simp⟩
  | @prose text tail segments _ ih =>
    have parts := List.isChain_append.mp aligned
    obtain ⟨later, first⟩ := ih parts.2.1
    rw [List.flatMap_cons]
    refine ⟨List.isChain_append.mpr ⟨parts.1, later, fun one last next head => ?_⟩, ?_⟩
    · rcases first next head with whole | same
      · exact fun _ => whole
      · exact parts.2.2 one last next same
    · intro byte head
      cases text with
      | nil => exact first byte head
      | cons => exact .inr head
  | @token token tail segment segments stands _ ih =>
    have parts := List.isChain_append.mp aligned
    obtain ⟨later, first⟩ := ih parts.2.1
    have canonical := stands.canonical laws
    obtain ⟨ascii, front, ends⟩ := canonical.ascii laws
    obtain ⟨inner, opens, _⟩ := canonical.cons laws
    obtain ⟨_, front', ends'⟩ := stands.ascii laws
    rw [List.flatMap_cons]
    refine ⟨List.isChain_append.mpr ⟨?_, later, fun one last next head => ?_⟩, ?_⟩
    · refine List.Pairwise.isChain (List.pairwise_of_forall_mem_list fun one _ next member _ => ?_)
      exact isContinuation_of_ascii (ascii next member)
    · rcases first next head with whole | same
      · exact fun _ => whole
      · rw [ends, List.getLast?_concat] at last
        refine parts.2.2 one ?_ next same
        rw [ends', List.getLast?_concat]
        exact last
    · intro byte head
      rw [opens] at head
      cases head
      exact .inl (by decide)

end Scanning

/-- A text scans to segments that cover it in order, with no empty prose and none side by side;
and its normal form scans to the very same segments, so that it is its own normal form. -/
theorem scan_normalize (codec : UlidCodec) (laws : codec.Lawful) (text : List Char) :
    ∃ segments normal, scan codec (utf8 text) = some segments ∧
      normalize codec (utf8 text) = some normal ∧
      Covers codec segments (utf8 text) ∧ Separated segments ∧
      scan codec normal = some segments ∧ normalize codec normal = some normal := by
  obtain ⟨segments, scans⟩ := exists_scans codec [] (utf8 text)
  have aligned := (aligned_utf8 text).1
  have covers : Covers codec segments (utf8 text) := scans.covers
  have scanned := scans.scan laws aligned
  obtain ⟨normal, same, _, again⟩ := scans.rendered laws
  rw [List.nil_append] at same
  have rescanned := again.scan laws (same ▸ (covers.aligned laws aligned).1)
  refine ⟨segments, normal, scanned, ?_, covers, scans.separated, rescanned, ?_⟩
  · rw [normalize, scanned, Option.map_some, same]
  · rw [normalize, rescanned, Option.map_some, same]

/-! The codec as it is: base 32 in Crockford's alphabet, written in upper case and read in
either, without the bits past the 128th. -/

namespace Crockford

def upper : List UInt8 := utf8 "0123456789ABCDEFGHJKMNPQRSTVWXYZ".toList
def lower : List UInt8 := utf8 "0123456789abcdefghjkmnpqrstvwxyz".toList

/-- The digit a byte stands for. -/
def digitOf (byte : UInt8) : Option Nat :=
  (List.range 32).find? fun digit => upper[digit]? = some byte || lower[digit]? = some byte

/-- The base-32 digits of a value, to a width. -/
def digits : (width value : Nat) → List Nat
  | 0, _ => []
  | width + 1, value => digits width (value / 32) ++ [value % 32]

def base32 : UlidCodec where
  fromString body :=
    if body.length = ulidLen then
      (body.mapM digitOf).map fun read => read.foldl (fun value digit => value * 32 + digit) 0 % 2 ^ 128
    else none
  toString ulid := (digits ulidLen ulid).map fun digit => upper.getD digit 0

theorem length_digits (width value : Nat) : (digits width value).length = width := by
  induction width generalizing value with
  | zero => rfl
  | succ width ih => rw [digits, List.length_append, ih, List.length_singleton]

theorem foldl_digits (width value : Nat) :
    (digits width value).foldl (fun value digit => value * 32 + digit) 0 = value % 32 ^ width := by
  induction width generalizing value with
  | zero => simp [digits, Nat.mod_one]
  | succ width ih =>
    rw [digits, List.foldl_append, ih, Nat.pow_succ', Nat.mod_mul]
    simp only [List.foldl_cons, List.foldl_nil]
    omega

theorem mapM_digits (width value : Nat) :
    ((digits width value).map fun digit => upper.getD digit 0).mapM digitOf =
      some (digits width value) := by
  have digit : ∀ digit < 32, digitOf (upper.getD digit 0) = some digit := by decide +kernel
  induction width generalizing value with
  | zero => rfl
  | succ width ih =>
    have last := digit _ (Nat.mod_lt value (by decide : 0 < 32))
    rw [digits, List.map_append, List.mapM_append, ih, List.map_singleton, List.mapM_cons, last]
    rfl

theorem digitOf_of_mapM {body : List UInt8} {read : List Nat} (each : body.mapM digitOf = some read) :
    ∀ byte ∈ body, ∃ digit, digitOf byte = some digit := by
  induction body generalizing read with
  | nil => simp
  | cons first rest ih =>
    rw [List.mapM_cons] at each
    obtain ⟨digit, here, later⟩ := Option.bind_eq_some_iff.mp each
    obtain ⟨others, there, _⟩ := Option.bind_eq_some_iff.mp later
    exact List.forall_mem_cons.mpr ⟨⟨digit, here⟩, ih there⟩

theorem isBodyByte_of_digitOf {byte : UInt8} {digit : Nat} (read : digitOf byte = some digit) :
    IsBodyByte byte := by
  have alphabet : ∀ byte ∈ upper ++ lower, IsBodyByte byte := by
    have all : (upper ++ lower).all fun byte =>
        byte < 0x80 && byte != 0x5b && byte != 0x5d && byte != 0x3a := by decide
    intro byte member
    have each := List.all_eq_true.mp all byte member
    simpa [IsBodyByte, and_assoc] using each
  have listed := List.find?_some read
  rw [Bool.or_eq_true, decide_eq_true_eq, decide_eq_true_eq] at listed
  refine alphabet byte (List.mem_append.mpr ?_)
  exact listed.imp List.mem_of_getElem? List.mem_of_getElem?

theorem lawful : base32.Lawful where
  length ulid _ := by simp [base32, length_digits]
  roundTrip ulid small := by
    have wide : ulid < 32 ^ 26 := small.trans (by decide)
    simp only [base32, List.length_map, length_digits, ↓reduceIte, mapM_digits, Option.map_some,
      foldl_digits, ulidLen, Nat.mod_eq_of_lt wide, Nat.mod_eq_of_lt small]
  bounded body ulid read := by
    simp only [base32, Option.ite_none_right_eq_some, Option.map_eq_some_iff] at read
    obtain ⟨_, _, _, rfl⟩ := read
    exact Nat.mod_lt _ (by decide)
  alphabet body ulid read := by
    simp only [base32, Option.ite_none_right_eq_some, Option.map_eq_some_iff] at read
    obtain ⟨_, digits, each, _⟩ := read
    intro byte member
    obtain ⟨digit, read⟩ := digitOf_of_mapM each byte member
    exact isBodyByte_of_digitOf read

end Crockford

/-- A message that cites a turn in lower case beside an opener with no token. -/
theorem scan_normalize_cites :
    ∃ segments normal,
      scan Crockford.base32 (utf8 "[mem: 嗚 [turn:01arz3ndektsv4rrffq69g5fav]".toList) =
        some segments ∧
      normalize Crockford.base32 (utf8 "[mem: 嗚 [turn:01arz3ndektsv4rrffq69g5fav]".toList) =
        some normal ∧
      scan Crockford.base32 normal = some segments ∧
      normalize Crockford.base32 normal = some normal := by
  obtain ⟨segments, normal, scanned, rewritten, _, _, again, stable⟩ :=
    scan_normalize Crockford.base32 Crockford.lawful
      "[mem: 嗚 [turn:01arz3ndektsv4rrffq69g5fav]".toList
  exact ⟨segments, normal, scanned, rewritten, again, stable⟩

end Zuihitsu.MessageRefs
