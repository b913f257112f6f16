/-
# Splicing mentions

A message reaches the agent with each mention of a known user written as the token of the
user's memory, except inside a code span. The scan walks the bytes of the text; a span is a run
of backticks up to the next run of its length, and a run that no other closes is prose.
-/

import Mathlib.Data.List.TakeWhile
import Zuihitsu.Core.MessageRefs

namespace Zuihitsu.Connector

open Zuihitsu.Core Zuihitsu.MessageRefs

/-! ### The scan -/

/-- The backtick. -/
def tick : UInt8 := 0x60

/-- What opens a mention. -/
def mentionOpen : List UInt8 := [0x3c, 0x40]

/-- What marks the nickname form. -/
def bang : UInt8 := 0x21

/-- What closes a mention. -/
def mentionClose : UInt8 := 0x3e

/-- How a scan can fail: by stopping its thread, or in the model by running out of fuel. -/
inductive Stopped where
  | panicked
  | outOfFuel
  deriving DecidableEq, Repr

/-- The id of a user, which is never zero. -/
@[ext]
structure UserId where
  number : Nat
  nonzero : number ≠ 0
  fits : number < 2 ^ 64
  deriving DecidableEq

/-- An id of a number; zero stops the thread. -/
def UserId.new (number : Nat) (fits : number < 2 ^ 64) : Except Stopped UserId :=
  if zero : number = 0 then .error .panicked else .ok ⟨number, zero, fits⟩

/-- The length of the run of backticks at a byte. -/
def backtickRun (bytes : List UInt8) (index : Nat) : Nat :=
  ((bytes.drop index).takeWhile (· = tick)).length

/-- Just past the run that closes a span of a length, from a byte on. -/
def closingRun (bytes : List UInt8) (run : Nat) : (fuel start : Nat) → Option Nat
  | 0, _ => none
  | fuel + 1, start =>
    if start < bytes.length then
      if bytes[start]? = some tick then
        let length := backtickRun bytes start
        if length = run then some (start + run) else closingRun bytes run fuel (start + length)
      else closingRun bytes run fuel (start + 1)
    else none

/-- Whether a byte is a digit. -/
def isAsciiDigit (byte : UInt8) : Bool := 0x30 ≤ byte && byte ≤ 0x39

/-- The number of a text of digits. -/
def digitsNumber (digits : List UInt8) : Nat :=
  digits.foldl (fun number digit => number * 10 + (digit.toNat - 0x30)) 0

/-- The mention that opens at a byte, and its length. -/
def mentionAt (text : List UInt8) (index : Nat) : Except Stopped (Option (UserId × Nat)) :=
  match (get text index text.length).bind (stripPrefix mentionOpen) with
  | none => .ok none
  | some rest =>
    let afterBang := (stripPrefix [bang] rest).getD rest
    let bangLen := rest.length - afterBang.length
    let digits := afterBang.takeWhile isAsciiDigit
    if digits.isEmpty then .ok none
    else
      match get afterBang digits.length afterBang.length with
      | none => .error .panicked
      | some tail =>
        if tail.head? ≠ some mentionClose then .ok none
        else if fits : digitsNumber digits < 2 ^ 64 then
          (UserId.new (digitsNumber digits) fits).map fun user =>
            some (user, mentionOpen.length + bangLen + digits.length + 1)
        else .ok none

/-- How many bytes the character of a first byte has. -/
def charLen (byte : UInt8) : Nat :=
  if byte < 0x80 then 1 else if byte < 0xe0 then 2 else if byte < 0xf0 then 3 else 4

/-- The bytes of the first character. -/
def firstChar : List UInt8 → Option (List UInt8)
  | [] => none
  | byte :: rest => some ((byte :: rest).take (charLen byte))

variable (codec : UlidCodec) (memoryIds : UserId → Option MemoryId)

/-- The loop over the bytes. -/
def spliceLoop (text : List UInt8) : (fuel index : Nat) → List UInt8 → Except Stopped (List UInt8)
  | 0, _, _ => .error .outOfFuel
  | fuel + 1, index, out =>
    if index < text.length then
      if text[index]? = some tick then
        let run := backtickRun text index
        match closingRun text run (text.length + 1) (index + run) with
        | some past =>
          match get text index past with
          | some span => spliceLoop text fuel past (out ++ span)
          | none => .error .panicked
        | none =>
          match get text index (index + run) with
          | some ticks => spliceLoop text fuel (index + run) (out ++ ticks)
          | none => .error .panicked
      else
        let copy :=
          match (get text index text.length).bind firstChar with
          | some char => spliceLoop text fuel (index + char.length) (out ++ char)
          | none => .error .panicked
        match mentionAt text index with
        | .error stopped => .error stopped
        | .ok none => copy
        | .ok (some (user, length)) =>
          match memoryIds user with
          | some memory => spliceLoop text fuel (index + length) (out ++ constructMem codec memory)
          | none => copy
    else .ok out

/-- Write the mentions of known users as the tokens of their memories. -/
def spliceMentions (text : List Char) : Except Stopped (List UInt8) :=
  spliceLoop codec memoryIds (utf8 text) ((utf8 text).length + 1) 0 []

/-! ### What it should write -/

/-- So many backticks. -/
def ticks (run : Nat) : List UInt8 := List.replicate run tick

/-- What follows is no backtick, so that a run ends here. -/
def EndsRun (rest : List UInt8) : Prop := rest.head? ≠ some tick

/-- A span of a length closes: past whole runs of other lengths and other bytes comes a whole run
of its length. -/
inductive Closes (run : Nat) : (inner body rest : List UInt8) → Prop
  | here {rest : List UInt8} : EndsRun rest → Closes run (ticks run ++ rest) [] rest
  | run {length : Nat} {inner body rest : List UInt8} : length ≠ 0 → length ≠ run →
      EndsRun inner → Closes run inner body rest →
      Closes run (ticks length ++ inner) (ticks length ++ body) rest
  | byte {byte : UInt8} {inner body rest : List UInt8} : byte ≠ tick → Closes run inner body rest →
      Closes run (byte :: inner) (byte :: body) rest

/-- A mention of a number, in either form. -/
def IsMention (token : List UInt8) (number : Nat) : Prop :=
  ∃ mark digits, (mark = [] ∨ mark = [bang]) ∧ digits ≠ [] ∧ (∀ byte ∈ digits, isAsciiDigit byte) ∧
    token = mentionOpen ++ mark ++ digits ++ [mentionClose] ∧ digitsNumber digits = number

/-- A mention of a known user. -/
def Maps (token : List UInt8) (memory : MemoryId) : Prop :=
  ∃ user : UserId, IsMention token user.number ∧ memoryIds user = some memory

/-- A text as it should be written, from a byte on that is in no span and does not continue a
run. -/
inductive Spliced : List UInt8 → List UInt8 → Prop
  | done : Spliced [] []
  | span {run : Nat} {inner body rest out : List UInt8} : run ≠ 0 → EndsRun inner →
      Closes run inner body rest → Spliced rest out →
      Spliced (ticks run ++ inner) (ticks run ++ body ++ ticks run ++ out)
  | run {run : Nat} {rest out : List UInt8} : run ≠ 0 → EndsRun rest →
      (∀ body after, ¬Closes run rest body after) → Spliced rest out →
      Spliced (ticks run ++ rest) (ticks run ++ out)
  | mention {token rest out : List UInt8} {memory : MemoryId} : Maps memoryIds token memory →
      Spliced rest out → Spliced (token ++ rest) (constructMem codec memory ++ out)
  | byte {byte : UInt8} {rest out : List UInt8} : byte ≠ tick →
      (∀ token after memory, byte :: rest = token ++ after → ¬Maps memoryIds token memory) →
      Spliced rest out → Spliced (byte :: rest) (byte :: out)

/-- What remains of a text at a place outside the closed spans. -/
inductive Outside : (text rest : List UInt8) → Prop
  | here {text : List UInt8} : Outside text text
  | span {run : Nat} {inner body after rest : List UInt8} : run ≠ 0 → EndsRun inner →
      Closes run inner body after → Outside after rest → Outside (ticks run ++ inner) rest
  | run {run : Nat} {after rest : List UInt8} : run ≠ 0 → EndsRun after →
      (∀ body later, ¬Closes run after body later) → Outside after rest →
      Outside (ticks run ++ after) rest
  | byte {byte : UInt8} {after rest : List UInt8} : byte ≠ tick → Outside after rest →
      Outside (byte :: after) rest

/-- Outside the closed spans a mention has the number zero. -/
def NamesZero (text : List UInt8) : Prop :=
  ∃ token rest, Outside text (token ++ rest) ∧ IsMention token 0

/-! ### Runs -/

section Runs

variable {run length : Nat} {bytes inner body rest after later : List UInt8}

theorem endsRun_ticks (positive : run ≠ 0) : ¬EndsRun (ticks run ++ rest) := by
  obtain ⟨fewer, rfl⟩ := Nat.exists_eq_succ_of_ne_zero positive
  simp [EndsRun, ticks, List.replicate_succ]

theorem endsRun_cons {byte : UInt8} (other : byte ≠ tick) : EndsRun (byte :: rest) := by
  simpa [EndsRun] using other

theorem ticks_append_inj (ends : EndsRun rest) (ends' : EndsRun after)
    (same : ticks run ++ rest = ticks length ++ after) : run = length ∧ rest = after := by
  induction run generalizing length with
  | zero =>
    cases length with
    | zero => exact ⟨rfl, same⟩
    | succ fewer =>
      have whole : rest = ticks (fewer + 1) ++ after := same
      exact absurd (whole ▸ ends) (endsRun_ticks (Nat.succ_ne_zero fewer))
  | succ fewer ih =>
    cases length with
    | zero =>
      have whole : ticks (fewer + 1) ++ rest = after := same
      exact absurd (whole ▸ ends') (endsRun_ticks (Nat.succ_ne_zero fewer))
    | succ =>
      obtain ⟨rfl, rest'⟩ := ih (List.cons.inj same).2
      exact ⟨rfl, rest'⟩

theorem exists_ticks (bytes : List UInt8) : ∃ run rest, bytes = ticks run ++ rest ∧ EndsRun rest := by
  induction bytes with
  | nil => exact ⟨0, [], rfl, by simp [EndsRun]⟩
  | cons byte rest ih =>
    by_cases here : byte = tick
    · obtain ⟨run, after, rfl, ends⟩ := ih
      exact ⟨run + 1, after, by rw [here]; rfl, ends⟩
    · exact ⟨0, _, rfl, endsRun_cons here⟩

theorem backtickRun_eq {index : Nat} (remains : bytes.drop index = ticks run ++ rest)
    (ends : EndsRun rest) : backtickRun bytes index = run := by
  have stops : rest.takeWhile (· = tick) = [] := by
    cases rest with
    | nil => rfl
    | cons byte others =>
      have other : byte ≠ tick := by simpa [EndsRun] using ends
      simp [other]
  rw [backtickRun, remains, List.takeWhile_append_of_pos, stops, List.append_nil, ticks,
    List.length_replicate]
  intro byte member
  simpa using List.eq_of_mem_replicate member

theorem Closes.split (closes : Closes run inner body rest) :
    inner = body ++ ticks run ++ rest ∧ EndsRun rest := by
  induction closes with
  | here ends => exact ⟨rfl, ends⟩
  | run _ _ _ _ ih => exact ⟨by rw [ih.1]; simp, ih.2⟩
  | byte _ _ ih => exact ⟨by rw [ih.1]; simp, ih.2⟩

theorem closes_ticks (positive : run ≠ 0) (length' : length ≠ 0) (ends : EndsRun inner) :
    Closes run (ticks length ++ inner) body rest ↔
      (length = run ∧ body = [] ∧ rest = inner) ∨
        (length ≠ run ∧ ∃ more, body = ticks length ++ more ∧ Closes run inner more rest) := by
  constructor
  · intro closes
    generalize same : ticks length ++ inner = bytes at closes
    cases closes with
    | here ends' =>
      obtain ⟨rfl, rfl⟩ := ticks_append_inj ends ends' same
      exact .inl ⟨rfl, rfl, rfl⟩
    | run _ other ends' closes =>
      obtain ⟨rfl, rfl⟩ := ticks_append_inj ends ends' same
      exact .inr ⟨other, _, rfl, closes⟩
    | byte other closes =>
      exact absurd (same ▸ endsRun_cons other) (endsRun_ticks length')
  · rintro (⟨rfl, rfl, rfl⟩ | ⟨other, more, rfl, closes⟩)
    · exact .here ends
    · exact .run length' other ends closes

theorem closes_cons (positive : run ≠ 0) {byte : UInt8} (other : byte ≠ tick) :
    Closes run (byte :: inner) body rest ↔
      ∃ more, body = byte :: more ∧ Closes run inner more rest := by
  constructor
  · intro closes
    generalize same : byte :: inner = bytes at closes
    cases closes with
    | here => exact absurd (same ▸ endsRun_cons other) (endsRun_ticks positive)
    | run length' => exact absurd (same ▸ endsRun_cons other) (endsRun_ticks length')
    | byte _ closes =>
      cases same
      exact ⟨_, rfl, closes⟩
  · rintro ⟨more, rfl, closes⟩
    exact .byte other closes

theorem not_closes_nil (positive : run ≠ 0) : ¬Closes run [] body rest := by
  intro closes
  generalize same : ([] : List UInt8) = bytes at closes
  cases closes with
  | here => exact absurd (same ▸ (by simp [EndsRun] : EndsRun [])) (endsRun_ticks positive)
  | run length' => exact absurd (same ▸ (by simp [EndsRun] : EndsRun [])) (endsRun_ticks length')
  | byte => cases same

theorem Closes.unique (positive : run ≠ 0) (closes : Closes run inner body rest)
    (again : Closes run inner after later) : body = after ∧ rest = later := by
  induction closes generalizing after with
  | here ends =>
    rcases (closes_ticks positive positive ends).mp again with ⟨_, rfl, rfl⟩ | ⟨other, _⟩
    · exact ⟨rfl, rfl⟩
    · exact absurd rfl other
  | run length' other ends _ ih =>
    rcases (closes_ticks positive length' ends).mp again with ⟨same, _⟩ | ⟨_, more, rfl, closes⟩
    · exact absurd same other
    · obtain ⟨rfl, rfl⟩ := ih closes
      exact ⟨rfl, rfl⟩
  | byte other _ ih =>
    obtain ⟨more, rfl, closes⟩ := (closes_cons positive other).mp again
    obtain ⟨rfl, rfl⟩ := ih closes
    exact ⟨rfl, rfl⟩

theorem closingRun_spec (positive : run ≠ 0) {fuel start : Nat} (enough : bytes.length < fuel + start) :
    match closingRun bytes run fuel start with
    | some past => ∃ body rest, Closes run (bytes.drop start) body rest ∧
      past = start + body.length + run
    | none => ∀ body rest, ¬Closes run (bytes.drop start) body rest := by
  induction fuel generalizing start with
  | zero =>
    have beyond : bytes.drop start = [] := List.drop_eq_nil_of_le (by omega)
    simp only [closingRun, beyond]
    exact fun _ _ => not_closes_nil positive
  | succ fuel ih =>
    unfold closingRun
    cases remains : bytes.drop start with
    | nil =>
      have beyond : bytes.length ≤ start := List.drop_eq_nil_iff.mp remains
      rw [if_neg (not_lt.mpr beyond)]
      exact fun _ _ => not_closes_nil positive
    | cons byte others =>
      have within : start < bytes.length := by
        by_contra beyond
        rw [List.drop_eq_nil_of_le (not_lt.mp beyond)] at remains
        cases remains
      have read : bytes[start]? = some byte := by
        rw [← List.head?_drop, remains, List.head?_cons]
      rw [if_pos within, read]
      by_cases here : byte = tick
      · obtain ⟨length, inner, split, ends⟩ := exists_ticks (byte :: others)
        have length' : length ≠ 0 := by
          rintro rfl
          rw [ticks, List.replicate_zero, List.nil_append] at split
          exact absurd (by rw [← split, here]; rfl) ends
        have long := backtickRun_eq (remains.trans split) ends
        have past : bytes.drop (start + length) = inner := by
          rw [← List.drop_drop, remains, split, ticks,
            List.drop_left' (List.length_replicate ..)]
        rw [if_pos (congrArg _ here)]
        dsimp only
        rw [long, split]
        by_cases same : length = run
        · rw [if_pos same]
          exact ⟨[], inner, (closes_ticks positive length' ends).mpr (.inl ⟨same, rfl, rfl⟩), rfl⟩
        · rw [if_neg same]
          have rest := @ih (start + length) (by omega)
          rw [past] at rest
          cases found : closingRun bytes run fuel (start + length) with
          | some =>
            rw [found] at rest
            obtain ⟨body, after, closes, rfl⟩ := rest
            refine ⟨ticks length ++ body, after, .run length' same ends closes, ?_⟩
            simp only [ticks, List.length_append, List.length_replicate]
            omega
          | none =>
            rw [found] at rest
            intro body after closes
            rcases (closes_ticks positive length' ends).mp closes with ⟨equal, _⟩ | ⟨_, more, _, inside⟩
            · exact same equal
            · exact rest more after inside
      · have past : bytes.drop (start + 1) = others := by
          rw [← List.drop_drop, remains, List.drop_one, List.tail_cons]
        rw [if_neg (by simpa using here)]
        have rest := @ih (start + 1) (by omega)
        rw [past] at rest
        cases found : closingRun bytes run fuel (start + 1) with
        | some =>
          rw [found] at rest
          obtain ⟨body, after, closes, rfl⟩ := rest
          refine ⟨byte :: body, after, .byte here closes, ?_⟩
          rw [List.length_cons]
          omega
        | none =>
          rw [found] at rest
          intro body after closes
          obtain ⟨more, _, inside⟩ := (closes_cons positive here).mp closes
          exact rest more after inside

end Runs

theorem ascii_next {front rest : List UInt8} {byte other : UInt8}
    (aligned : Aligned (front ++ rest)) (last : front.getLast? = some other) (ascii : other < 0x80)
    (next : byte ∈ rest.head?) : isContinuation byte = false :=
  (List.isChain_append.mp aligned).2.2 other last byte next ascii

/-! ### Mentions -/

section Tokens

variable {text rest after digits token bytes : List UInt8} {index number : Nat}

/-- What follows the mark of the nickname form, where it is there. -/
def afterBang (rest : List UInt8) : List UInt8 := (stripPrefix [bang] rest).getD rest

theorem afterBang_bang : afterBang (bang :: rest) = rest := by
  rw [afterBang, stripPrefix_eq_some.mpr (List.singleton_append ..).symm, Option.getD_some]

theorem afterBang_of_ne (other : rest.head? ≠ some bang) : afterBang rest = rest := by
  have kept : stripPrefix [bang] rest = none := by
    rw [Option.eq_none_iff_forall_ne_some]
    intro more stripped
    rw [stripPrefix_eq_some] at stripped
    rw [stripped] at other
    exact other rfl
  rw [afterBang, kept, Option.getD_none]

theorem takeWhile_digits (numeric : ∀ byte ∈ digits, isAsciiDigit byte) :
    (digits ++ mentionClose :: after).takeWhile isAsciiDigit = digits := by
  rw [List.takeWhile_append_of_pos numeric, List.takeWhile_cons_of_neg (by decide), List.append_nil]

theorem mention_iff {length : Nat} :
    (∃ token after, bytes = token ++ after ∧ IsMention token number ∧ length = token.length) ↔
      ∃ rest digits after, bytes = mentionOpen ++ rest ∧
        afterBang rest = digits ++ mentionClose :: after ∧ digits ≠ [] ∧
        (∀ byte ∈ digits, isAsciiDigit byte) ∧ digitsNumber digits = number ∧
        length = mentionOpen.length + (rest.length - (afterBang rest).length) + digits.length + 1 := by
  constructor
  · rintro ⟨_, after, rfl, ⟨mark, digits, marked, written, numeric, rfl, rfl⟩, rfl⟩
    have parts : afterBang (mark ++ digits ++ mentionClose :: after) =
        digits ++ mentionClose :: after := by
      rcases marked with rfl | rfl
      · refine afterBang_of_ne ?_
        obtain ⟨first, more, rfl⟩ := List.exists_cons_of_ne_nil written
        rintro ⟨⟩
        exact absurd (numeric bang List.mem_cons_self) (by decide)
      · exact afterBang_bang
    refine ⟨mark ++ digits ++ mentionClose :: after, digits, after, by simp, parts, written, numeric,
      rfl, ?_⟩
    rw [parts]
    simp only [List.length_append, List.length_cons, List.length_nil]
    omega
  · rintro ⟨rest, digits, after, rfl, parts, written, numeric, rfl, rfl⟩
    by_cases marked : rest.head? = some bang
    · obtain ⟨more, rfl⟩ := List.head?_eq_some_iff.mp marked
      rw [afterBang_bang] at parts ⊢
      subst parts
      refine ⟨_, after, ?_, ⟨[bang], digits, .inr rfl, written, numeric, rfl, rfl⟩, ?_⟩
      · simp
      · simp only [List.length_append, List.length_cons, List.length_nil]
        omega
    · rw [afterBang_of_ne marked] at parts ⊢
      subst parts
      refine ⟨_, after, ?_, ⟨[], digits, .inl rfl, written, numeric, rfl, rfl⟩, ?_⟩
      · simp
      · simp only [List.length_append, List.length_cons, List.length_nil]
        omega

theorem mention_unique {token' after' : List UInt8} {number' : Nat}
    (mention : IsMention token number) (again : IsMention token' number')
    (same : token ++ after = token' ++ after') :
    token = token' ∧ after = after' ∧ number = number' := by
  obtain ⟨rest, digits, more, split, parts, _, numeric, rfl, length⟩ :=
    mention_iff.mp ⟨token, after, rfl, mention, rfl⟩
  obtain ⟨rest', digits', more', split', parts', _, numeric', rfl, length'⟩ :=
    mention_iff.mp ⟨token', after', rfl, again, rfl⟩
  have rests : rest = rest' := List.append_cancel_left (split.symm.trans (same.trans split'))
  subst rests
  have digitsSame : digits = digits' := by
    rw [← @takeWhile_digits more _ numeric, ← parts, parts', takeWhile_digits numeric']
  subst digitsSame
  obtain ⟨tokens, afters⟩ := List.append_inj same (length.trans length'.symm)
  exact ⟨tokens, afters, rfl⟩

theorem mention_bytes (mention : IsMention token number) :
    ∃ tail, token = 0x3c :: tail ∧ ∀ byte ∈ tail, byte ≠ 0x3c ∧ byte ≠ tick := by
  obtain ⟨mark, digits, marked, _, numeric, rfl, _⟩ := mention
  refine ⟨0x40 :: (mark ++ digits ++ [mentionClose]), by simp [mentionOpen], ?_⟩
  have digit : ∀ byte ∈ digits, byte ≠ 0x3c ∧ byte ≠ tick := by
    intro byte member
    have numeral := numeric byte member
    constructor
    · rintro rfl
      exact absurd numeral (by decide)
    · rintro rfl
      exact absurd numeral (by decide)
  refine List.forall_mem_cons.mpr ⟨by decide, List.forall_mem_append.mpr
    ⟨List.forall_mem_append.mpr ⟨?_, digit⟩, List.forall_mem_singleton.mpr (by decide)⟩⟩
  rcases marked with rfl | rfl
  · exact fun _ none => nomatch none
  · exact List.forall_mem_singleton.mpr (by decide)

theorem aligned_afterBang (aligned : Aligned rest) : Aligned (afterBang rest) := by
  by_cases marked : rest.head? = some bang
  · obtain ⟨more, rfl⟩ := List.head?_eq_some_iff.mp marked
    rw [afterBang_bang]
    exact aligned.tail
  · rwa [afterBang_of_ne marked]

theorem ascii_of_digit {byte : UInt8} (numeral : isAsciiDigit byte = true) : byte < 0x80 := by
  rw [isAsciiDigit, Bool.and_eq_true, decide_eq_true_eq, decide_eq_true_eq] at numeral
  exact UInt8.lt_of_le_of_lt numeral.2 (by decide)

theorem mentionAt_spec (within : index ≤ text.length)
    (boundary : isCharBoundary text index = true) (aligned : Aligned (text.drop index)) :
    match mentionAt text index with
    | .error stopped => stopped = .panicked ∧
      ∃ token after, text.drop index = token ++ after ∧ IsMention token 0
    | .ok (some (user, length)) => ∃ token after, text.drop index = token ++ after ∧
      IsMention token user.number ∧ length = token.length
    | .ok none => ∀ token after number, text.drop index = token ++ after →
      IsMention token number → 2 ^ 64 ≤ number := by
  have suffix : get text index text.length = some (text.drop index) :=
    get_eq_some.mpr ⟨⟨within, boundary, isCharBoundary_length text⟩, by rw [List.take_length]⟩
  unfold mentionAt
  rw [suffix, Option.bind_some]
  cases opens : stripPrefix mentionOpen (text.drop index) with
  | none =>
    intro token after number split mention
    obtain ⟨rest, _, _, begun, _⟩ := mention_iff.mp ⟨token, after, split, mention, rfl⟩
    rw [stripPrefix_eq_some.mpr begun] at opens
    cases opens
  | some rest =>
    rw [stripPrefix_eq_some] at opens
    rw [opens] at aligned ⊢
    dsimp only
    rw [← afterBang]
    have parts : ∀ token after number, mentionOpen ++ rest = token ++ after →
        IsMention token number → ∃ more, digitsNumber ((afterBang rest).takeWhile isAsciiDigit) =
          number ∧ (afterBang rest).takeWhile isAsciiDigit ≠ [] ∧
          (afterBang rest).drop ((afterBang rest).takeWhile isAsciiDigit).length =
            mentionClose :: more := by
      intro token after number split mention
      obtain ⟨rest', digits, more, same, parts, written, numeric, counted, _⟩ :=
        mention_iff.mp ⟨token, after, split, mention, rfl⟩
      obtain rfl := List.append_cancel_left same
      rw [parts, takeWhile_digits numeric, List.drop_left]
      exact ⟨more, counted, written, rfl⟩
    by_cases none : ((afterBang rest).takeWhile isAsciiDigit).isEmpty = true
    · rw [if_pos none]
      intro token after number split mention
      obtain ⟨_, _, written, _⟩ := parts token after number split mention
      exact absurd (List.isEmpty_iff.mp none) written
    · rw [if_neg none]
      generalize split : (afterBang rest).takeWhile isAsciiDigit = digits at parts none ⊢
      have numeric : ∀ byte ∈ digits, isAsciiDigit byte = true :=
        fun byte member => List.mem_takeWhile_imp (split ▸ member)
      have whole : afterBang rest = digits ++ (afterBang rest).drop digits.length := by
        conv_lhs => rw [← List.takeWhile_append_dropWhile (p := isAsciiDigit) (l := afterBang rest)]
        rw [split]
        conv_rhs => rw [← List.takeWhile_append_dropWhile (p := isAsciiDigit) (l := afterBang rest)]
        rw [split, List.drop_left]
      have tail : get (afterBang rest) digits.length (afterBang rest).length =
          some ((afterBang rest).drop digits.length) := by
        refine get_eq_some.mpr ⟨⟨?_, ?_, isCharBoundary_length _⟩, by rw [List.take_length]⟩
        · rw [whole, List.length_append]
          omega
        · cases remains : (afterBang rest).drop digits.length with
          | nil =>
            rw [remains, List.append_nil] at whole
            rw [whole]
            exact isCharBoundary_length _
          | cons =>
            rw [remains] at whole
            have inner : Aligned (afterBang rest) :=
              aligned_afterBang (List.isChain_append.mp aligned).2.1
            rw [whole] at inner
            have written : digits ≠ [] := by simpa using none
            have last := List.getLast?_eq_some_getLast written
            exact isCharBoundary_of_drop remains (ascii_next inner last
              (ascii_of_digit (numeric _ (List.getLast_mem written))) rfl)
      rw [tail]
      dsimp only
      by_cases closed : ((afterBang rest).drop digits.length).head? ≠ some mentionClose
      · rw [if_pos closed]
        intro token after number same mention
        obtain ⟨more, _, _, ends⟩ := parts token after number same mention
        exact absurd (congrArg List.head? ends) closed
      · rw [if_neg closed]
        rw [not_not, List.head?_eq_some_iff] at closed
        obtain ⟨more, ends⟩ := closed
        rw [ends] at whole
        have found := mention_iff.mpr ⟨rest, digits, more, rfl, whole, by simpa using none,
          numeric, rfl, rfl⟩
        obtain ⟨token, after, same, mention, length⟩ := found
        split_ifs with fits
        · unfold UserId.new
          split_ifs with zero
          · rw [zero] at mention
            exact ⟨rfl, token, after, same, mention⟩
          · exact ⟨token, after, same, mention, length⟩
        · intro token' after' number same' mention'
          obtain ⟨_, counted, _⟩ := parts token' after' number same' mention'
          rw [← counted]
          exact not_lt.mp fits

end Tokens

/-! ### Characters -/

theorem utf8EncodeChar_cases (char : Char) :
    ∃ byte more, String.utf8EncodeChar char = byte :: more ∧ charLen byte = more.length + 1 ∧
      (∀ other ∈ more, isContinuation other = true) ∧ (byte < 0x80 ∧ more = [] ∨ 0x80 ≤ byte) := by
  fun_cases String.utf8EncodeChar <;> refine ⟨_, _, rfl, ?_, ?_, ?_⟩
  all_goals simp [charLen, isContinuation, UInt8.lt_iff_toNat_lt, UInt8.le_iff_toNat_le]
  all_goals grind

theorem utf8_suffix {chars : List Char} {front back : List UInt8}
    (same : utf8 chars = front ++ back)
    (first : ∀ byte ∈ back.head?, isContinuation byte = false) : ∃ rest, back = utf8 rest := by
  induction chars generalizing front with
  | nil =>
    obtain ⟨_, rfl⟩ := List.append_eq_nil_iff.mp same.symm
    exact ⟨[], rfl⟩
  | cons char chars ih =>
    obtain ⟨byte, more, encoded, _, inside, _⟩ := utf8EncodeChar_cases char
    unfold utf8 at same ih
    rw [List.flatMap_cons, encoded] at same
    rcases List.append_eq_append_iff.mp same with ⟨further, rfl, others⟩ | ⟨left, split, rfl⟩
    · exact ih others
    · cases front with
      | nil => exact ⟨char :: chars, by rw [utf8, List.flatMap_cons, encoded, split]; rfl⟩
      | cons =>
        cases left with
        | nil => exact ⟨chars, rfl⟩
        | cons other' left =>
          -- The rest would begin inside the character.
          have within : other' ∈ more := by
            rw [(List.cons.inj split).2]
            exact List.mem_append_right _ List.mem_cons_self
          exact absurd (inside other' within) (by simp [first other' rfl])

/-! ### The text outside spans -/

section Places

variable {codec : UlidCodec} {memoryIds : UserId → Option MemoryId} {run : Nat}
variable {inner body rest after out front : List UInt8}

theorem ne_tick_of_mention {token : List UInt8} {number : Nat} (mention : IsMention token number) :
    EndsRun (token ++ rest) := by
  obtain ⟨tail, rfl, _⟩ := mention_bytes mention
  exact endsRun_cons (by decide)

theorem namesZero_span (positive : run ≠ 0) (ends : EndsRun inner)
    (closes : Closes run inner body rest) : NamesZero (ticks run ++ inner) ↔ NamesZero rest := by
  constructor
  · rintro ⟨token, after, outside, mention⟩
    generalize same : ticks run ++ inner = text at outside
    cases outside with
    | here => exact absurd (same ▸ ne_tick_of_mention mention) (endsRun_ticks positive)
    | span _ ends' closes' further =>
      obtain ⟨rfl, rfl⟩ := ticks_append_inj ends ends' same
      obtain ⟨_, rfl⟩ := closes.unique positive closes'
      exact ⟨token, after, further, mention⟩
    | run _ ends' open' _ =>
      obtain ⟨rfl, rfl⟩ := ticks_append_inj ends ends' same
      exact absurd closes (open' _ _)
    | byte other => exact absurd (same ▸ endsRun_cons other) (endsRun_ticks positive)
  · rintro ⟨token, after, outside, mention⟩
    exact ⟨token, after, .span positive ends closes outside, mention⟩

theorem namesZero_run (positive : run ≠ 0) (ends : EndsRun inner)
    (open' : ∀ body rest, ¬Closes run inner body rest) :
    NamesZero (ticks run ++ inner) ↔ NamesZero inner := by
  constructor
  · rintro ⟨token, after, outside, mention⟩
    generalize same : ticks run ++ inner = text at outside
    cases outside with
    | here => exact absurd (same ▸ ne_tick_of_mention mention) (endsRun_ticks positive)
    | span _ ends' closes _ =>
      obtain ⟨rfl, rfl⟩ := ticks_append_inj ends ends' same
      exact absurd closes (open' _ _)
    | run _ ends' _ further =>
      obtain ⟨rfl, rfl⟩ := ticks_append_inj ends ends' same
      exact ⟨token, after, further, mention⟩
    | byte other => exact absurd (same ▸ endsRun_cons other) (endsRun_ticks positive)
  · rintro ⟨token, after, outside, mention⟩
    exact ⟨token, after, .run positive ends open' outside, mention⟩

theorem namesZero_cons {byte : UInt8} (other : byte ≠ tick) :
    NamesZero (byte :: rest) ↔
      (∃ token after, byte :: rest = token ++ after ∧ IsMention token 0) ∨ NamesZero rest := by
  constructor
  · rintro ⟨token, after, outside, mention⟩
    generalize same : byte :: rest = text at outside
    cases outside with
    | here => exact .inl ⟨token, after, rfl, mention⟩
    | span positive | run positive =>
      exact absurd (same ▸ endsRun_cons other) (endsRun_ticks positive)
    | byte _ further =>
      cases same
      exact .inr ⟨token, after, further, mention⟩
  · rintro (⟨token, after, same, mention⟩ | ⟨token, after, outside, mention⟩)
    · exact ⟨token, after, same ▸ .here, mention⟩
    · exact ⟨token, after, .byte other outside, mention⟩

theorem namesZero_append (plain : ∀ byte ∈ front, byte ≠ 0x3c ∧ byte ≠ tick) :
    NamesZero (front ++ rest) ↔ NamesZero rest := by
  induction front with
  | nil => rfl
  | cons byte front ih =>
    rw [List.forall_mem_cons] at plain
    rw [List.cons_append, namesZero_cons plain.1.2, ih plain.2, or_iff_right]
    rintro ⟨token, after, same, mention⟩
    obtain ⟨tail, rfl, _⟩ := mention_bytes mention
    exact plain.1.1 (List.cons.inj same).1

theorem Spliced.append (plain : ∀ byte ∈ front, byte ≠ 0x3c ∧ byte ≠ tick)
    (spliced : Spliced codec memoryIds rest out) :
    Spliced codec memoryIds (front ++ rest) (front ++ out) := by
  induction front with
  | nil => exact spliced
  | cons byte front ih =>
    rw [List.forall_mem_cons] at plain
    refine .byte plain.1.2 (fun token after memory same maps => ?_) (ih plain.2)
    obtain ⟨user, mention, _⟩ := maps
    obtain ⟨tail, rfl, _⟩ := mention_bytes mention
    exact plain.1.1 (List.cons.inj same).1

theorem Spliced.unique {text out' : List UInt8} (spliced : Spliced codec memoryIds text out)
    (again : Spliced codec memoryIds text out') : out = out' := by
  induction spliced generalizing out' with
  | done =>
    generalize same : ([] : List UInt8) = text at again
    have ends : EndsRun [] := by simp [EndsRun]
    cases again with
    | done => rfl
    | span positive | run positive => exact absurd (same ▸ ends) (endsRun_ticks positive)
    | mention maps =>
      obtain ⟨user, mention, _⟩ := maps
      obtain ⟨tail, rfl, _⟩ := mention_bytes mention
      cases same
    | byte => cases same
  | @span run inner body rest out positive ends closes _ ih =>
    generalize same : ticks run ++ inner = text at again
    cases again with
    | done => exact absurd (same ▸ (by simp [EndsRun] : EndsRun [])) (endsRun_ticks positive)
    | span _ ends' closes' further =>
      obtain ⟨rfl, rfl⟩ := ticks_append_inj ends ends' same
      obtain ⟨rfl, rfl⟩ := closes.unique positive closes'
      rw [ih further]
    | run _ ends' open' =>
      obtain ⟨rfl, rfl⟩ := ticks_append_inj ends ends' same
      exact absurd closes (open' _ _)
    | mention maps =>
      obtain ⟨user, mention, _⟩ := maps
      exact absurd (same ▸ ne_tick_of_mention mention) (endsRun_ticks positive)
    | byte other => exact absurd (same ▸ endsRun_cons other) (endsRun_ticks positive)
  | @run run rest out positive ends open' _ ih =>
    generalize same : ticks run ++ rest = text at again
    cases again with
    | done => exact absurd (same ▸ (by simp [EndsRun] : EndsRun [])) (endsRun_ticks positive)
    | span _ ends' closes =>
      obtain ⟨rfl, rfl⟩ := ticks_append_inj ends ends' same
      exact absurd closes (open' _ _)
    | run _ ends' _ further =>
      obtain ⟨rfl, rfl⟩ := ticks_append_inj ends ends' same
      rw [ih further]
    | mention maps =>
      obtain ⟨user, mention, _⟩ := maps
      exact absurd (same ▸ ne_tick_of_mention mention) (endsRun_ticks positive)
    | byte other => exact absurd (same ▸ endsRun_cons other) (endsRun_ticks positive)
  | @mention token rest out memory maps _ ih =>
    obtain ⟨user, mention, known⟩ := id maps
    generalize same : token ++ rest = text at again
    cases again with
    | done =>
      obtain ⟨tail, rfl, _⟩ := mention_bytes mention
      cases same
    | span positive | run positive =>
      exact absurd (same ▸ ne_tick_of_mention mention) (endsRun_ticks positive)
    | mention maps' further =>
      obtain ⟨user', mention', known'⟩ := maps'
      obtain ⟨_, rfl, number⟩ := mention_unique mention mention' same
      have users : user = user' := UserId.ext number
      rw [users, known'] at known
      cases known
      rw [ih further]
    | byte _ plain => exact absurd maps (plain _ _ _ same.symm)
  | @byte byte rest out other plain _ ih =>
    generalize same : byte :: rest = text at again
    cases again with
    | done => cases same
    | span positive | run positive =>
      exact absurd (same ▸ endsRun_cons other) (endsRun_ticks positive)
    | mention maps => exact absurd maps (plain _ _ _ same)
    | byte _ _ further =>
      cases same
      rw [ih further]

end Places

/-! ### The scan writes it -/

section Scan

variable {codec : UlidCodec} {memoryIds : UserId → Option MemoryId} {chars rest : List Char}
variable {fuel index : Nat} {out : List UInt8}

theorem namesZero_nil : ¬NamesZero [] := by
  rintro ⟨token, after, outside, mention⟩
  have ends : EndsRun [] := by simp [EndsRun]
  generalize same : ([] : List UInt8) = text at outside
  cases outside with
  | here =>
    obtain ⟨tail, rfl, _⟩ := mention_bytes mention
    cases same
  | span positive | run positive => exact absurd (same ▸ ends) (endsRun_ticks positive)
  | byte => cases same

/-- From a place in a text on, the scan writes what it should, or a mention of zero stops it. -/
def Writes (codec : UlidCodec) (memoryIds : UserId → Option MemoryId) (text : List UInt8)
    (fuel index : Nat) (out rest : List UInt8) : Prop :=
  (NamesZero rest ∧ spliceLoop codec memoryIds text fuel index out = .error .panicked) ∨
    (¬NamesZero rest ∧ ∃ tail, Spliced codec memoryIds rest tail ∧
      spliceLoop codec memoryIds text fuel index out = .ok (out ++ tail))

theorem Writes.step {text after part written : List UInt8} {fuel' index' : Nat}
    (writes : Writes codec memoryIds text fuel' index' (out ++ part) after)
    (loop : spliceLoop codec memoryIds text fuel index out =
      spliceLoop codec memoryIds text fuel' index' (out ++ part))
    (zero : NamesZero written ↔ NamesZero after)
    (spliced : ∀ tail, Spliced codec memoryIds after tail →
      Spliced codec memoryIds written (part ++ tail)) :
    Writes codec memoryIds text fuel index out written := by
  rcases writes with ⟨named, panics⟩ | ⟨unnamed, tail, after', done⟩
  · exact .inl ⟨zero.mpr named, loop.trans panics⟩
  · refine .inr ⟨fun named => unnamed (zero.mp named), part ++ tail, spliced tail after', ?_⟩
    rw [loop, done, List.append_assoc]

theorem boundary_of_utf8 {text : List UInt8} (within : index ≤ text.length)
    (remains : text.drop index = utf8 rest) : isCharBoundary text index = true := by
  cases here : utf8 rest with
  | nil =>
    have beyond : text.length ≤ index := List.drop_eq_nil_iff.mp (remains.trans here)
    rw [Nat.le_antisymm within beyond]
    exact isCharBoundary_length text
  | cons byte more =>
    exact isCharBoundary_of_drop (remains.trans here)
      ((aligned_utf8 rest).2 byte (by rw [here]; rfl))

theorem getLast_ticks {run : Nat} {front : List UInt8} (positive : run ≠ 0) :
    (front ++ ticks run).getLast? = some tick := by
  obtain ⟨fewer, rfl⟩ := Nat.exists_eq_succ_of_ne_zero positive
  rw [ticks, List.replicate_succ', ← List.append_assoc, List.getLast?_concat]

theorem advance {text part after : List UInt8} (within : index ≤ text.length)
    (remains : text.drop index = utf8 rest) (split : utf8 rest = part ++ after)
    (first : ∀ byte ∈ after.head?, isContinuation byte = false) :
    ∃ later, after = utf8 later ∧ text.drop (index + part.length) = utf8 later ∧
      index + part.length ≤ text.length ∧ get text index (index + part.length) = some part := by
  obtain ⟨later, rfl⟩ := utf8_suffix split first
  have past : text.drop (index + part.length) = utf8 later := by
    rw [← List.drop_drop, remains, split, List.drop_left]
  have bound : index + part.length ≤ text.length := by
    have sizes := congrArg List.length (remains.trans split)
    rw [List.length_drop, List.length_append] at sizes
    omega
  refine ⟨later, rfl, past, bound, get_eq_some.mpr ⟨⟨Nat.le_add_right .., ?_, ?_⟩, ?_⟩⟩
  · exact boundary_of_utf8 within remains
  · exact boundary_of_utf8 bound past
  · rw [List.drop_take, remains, split, Nat.add_sub_cancel_left, List.take_left]

theorem firstChar_eq {text : List UInt8} {char : Char} (within : index ≤ text.length)
    (remains : text.drop index = utf8 (char :: rest)) :
    (get text index text.length).bind firstChar = some (String.utf8EncodeChar char) := by
  have suffix : get text index text.length = some (text.drop index) :=
    get_eq_some.mpr ⟨⟨within, boundary_of_utf8 within remains, isCharBoundary_length text⟩,
      by rw [List.take_length]⟩
  obtain ⟨byte, more, encoded, long, _⟩ := utf8EncodeChar_cases char
  rw [suffix, Option.bind_some, remains, utf8, List.flatMap_cons, encoded, List.cons_append,
    firstChar, long, List.take_succ_cons, List.take_left]

/-- A character that starts no run and no mention that counts is written as it is. -/
theorem Writes.copy {text : List UInt8} {char : Char} (within : index ≤ text.length)
    (remains : text.drop index = utf8 (char :: rest))
    (other : ∀ byte ∈ (utf8 (char :: rest)).head?, byte ≠ tick)
    (plain : ∀ token after memory, utf8 (char :: rest) = token ++ after →
      ¬Maps memoryIds token memory)
    (nonzero : ∀ token after, utf8 (char :: rest) = token ++ after → ¬IsMention token 0)
    (loop : spliceLoop codec memoryIds text (fuel + 1) index out =
      match (get text index text.length).bind firstChar with
      | some char => spliceLoop codec memoryIds text fuel (index + char.length) (out ++ char)
      | none => .error .panicked)
    (writes : Writes codec memoryIds text fuel (index + (String.utf8EncodeChar char).length)
      (out ++ String.utf8EncodeChar char) (utf8 rest)) :
    Writes codec memoryIds text (fuel + 1) index out (utf8 (char :: rest)) := by
  rw [firstChar_eq within remains] at loop
  obtain ⟨byte, more, encoded, _, inside, ascii⟩ := utf8EncodeChar_cases char
  have whole : utf8 (char :: rest) = String.utf8EncodeChar char ++ utf8 rest := List.flatMap_cons ..
  have different : byte ≠ tick := other byte (by rw [whole, encoded]; rfl)
  rcases ascii with ⟨_, rfl⟩ | high
  · rw [whole, encoded, List.singleton_append] at plain nonzero
    refine writes.step loop ?_ fun tail spliced => ?_
    · rw [whole, encoded, List.singleton_append, namesZero_cons different, or_iff_right]
      rintro ⟨token, after, same, mention⟩
      exact nonzero token after same mention
    · rw [whole, encoded]
      exact .byte different plain spliced
  · have passed : ∀ byte ∈ String.utf8EncodeChar char, byte ≠ 0x3c ∧ byte ≠ tick := by
      rw [encoded, List.forall_mem_cons]
      have beyond : ∀ byte : UInt8, 0x80 ≤ byte → byte ≠ 0x3c ∧ byte ≠ tick := by
        intro byte high
        constructor
        · rintro rfl
          exact absurd high (by decide)
        · rintro rfl
          exact absurd high (by decide)
      refine ⟨beyond byte high, fun one member => beyond one ?_⟩
      have continues := inside one member
      rw [isContinuation, Bool.and_eq_true, decide_eq_true_eq] at continues
      exact continues.1
    refine writes.step loop ?_ fun tail spliced => ?_
    · rw [whole, namesZero_append passed]
    · rw [whole]
      exact spliced.append passed

theorem Writes.ticks {text inner : List UInt8} {run : Nat} (within : index ≤ text.length)
    (remains : text.drop index = utf8 rest) (positive : run ≠ 0)
    (split : utf8 rest = ticks run ++ inner) (ends : EndsRun inner)
    (enough : (utf8 rest).length < fuel + 1)
    (onward : ∀ (later : List Char) (index : Nat) (out : List UInt8), index ≤ text.length →
      text.drop index = utf8 later → (utf8 later).length < fuel →
        Writes codec memoryIds text fuel index out (utf8 later)) :
    Writes codec memoryIds text (fuel + 1) index out (utf8 rest) := by
  have aligned := (aligned_utf8 rest).1
  have long := backtickRun_eq (remains.trans split) ends
  have inside : text.drop (index + run) = inner := by
    rw [← List.drop_drop, remains, split]
    exact List.drop_left' (List.length_replicate ..)
  have opened : utf8 rest = tick :: (Connector.ticks (run - 1) ++ inner) := by
    obtain ⟨fewer, rfl⟩ := Nat.exists_eq_succ_of_ne_zero positive
    exact split
  have begun : index < text.length := by
    have sizes := congrArg List.length (remains.trans opened)
    rw [List.length_drop, List.length_cons] at sizes
    omega
  have read : text[index]? = some tick := by
    rw [← List.head?_drop, remains, opened, List.head?_cons]
  have closing := @closingRun_spec run text positive (text.length + 1) (index + run) (by omega)
  rw [inside] at closing
  have unfolded : spliceLoop codec memoryIds text (fuel + 1) index out =
      match closingRun text run (text.length + 1) (index + run) with
      | some past =>
        match get text index past with
        | some span => spliceLoop codec memoryIds text fuel past (out ++ span)
        | none => .error .panicked
      | none =>
        match get text index (index + run) with
        | some ticks => spliceLoop codec memoryIds text fuel (index + run) (out ++ ticks)
        | none => .error .panicked := by
    rw [spliceLoop, if_pos begun, read, if_pos rfl, long]
  cases found : closingRun text run (text.length + 1) (index + run) with
  | some past =>
    rw [found] at closing unfolded
    obtain ⟨body, after, closes, rfl⟩ := closing
    have whole : utf8 rest = (Connector.ticks run ++ body ++ Connector.ticks run) ++ after := by
      rw [split, closes.split.1]
      simp
    obtain ⟨later, rfl, past, bound, taken⟩ := advance within remains whole
      fun next member => ascii_next (whole ▸ aligned) (getLast_ticks positive) (by decide) member
    have size : (Connector.ticks run ++ body ++ Connector.ticks run).length =
        run + body.length + run := by
      simp only [Connector.ticks, List.length_append, List.length_replicate]
    rw [size, ← Nat.add_assoc, ← Nat.add_assoc] at past bound taken
    dsimp only at unfolded
    rw [taken] at unfolded
    rw [whole, List.length_append, size] at enough
    refine (onward later _ _ bound past (by omega)).step unfolded ?_ fun tail spliced => ?_
    · rw [split]
      exact namesZero_span positive ends closes
    · rw [split]
      exact .span positive ends closes spliced
  | none =>
    rw [found] at closing unfolded
    have last : (Connector.ticks run).getLast? = some tick := @getLast_ticks _ [] positive
    obtain ⟨later, rfl, past, bound, taken⟩ := advance within remains split
      fun next member => ascii_next (split ▸ aligned) last (by decide) member
    have size : (Connector.ticks run).length = run := List.length_replicate ..
    rw [size] at past bound taken
    dsimp only at unfolded
    rw [taken] at unfolded
    rw [split, List.length_append, size] at enough
    refine (onward later _ _ bound past (by omega)).step unfolded ?_ fun tail spliced => ?_
    · rw [split]
      exact namesZero_run positive ends closing
    · rw [split]
      exact .run positive ends closing spliced

theorem namesZero_mention {token : List UInt8} {number : Nat} (mention : IsMention token number)
    (nonzero : number ≠ 0) : NamesZero (token ++ after) ↔ NamesZero after := by
  obtain ⟨tail, rfl, plain⟩ := mention_bytes mention
  rw [List.cons_append, namesZero_cons (by decide), or_iff_right, namesZero_append plain]
  rintro ⟨token, rest, same, zero⟩
  exact nonzero (mention_unique mention zero same).2.2

theorem spliceLoop_writes {text : List UInt8} (within : index ≤ text.length)
    (remains : text.drop index = utf8 rest) (enough : (utf8 rest).length < fuel) :
    Writes codec memoryIds text fuel index out (utf8 rest) := by
  induction fuel generalizing index out rest with
  | zero => exact absurd enough (Nat.not_lt_zero _)
  | succ fuel ih =>
    have onward : ∀ (later : List Char) (index : Nat) (out : List UInt8), index ≤ text.length →
        text.drop index = utf8 later → (utf8 later).length < fuel →
          Writes codec memoryIds text fuel index out (utf8 later) := fun _ _ _ => ih
    cases rest with
    | nil =>
      have beyond : text.length ≤ index := List.drop_eq_nil_iff.mp remains
      refine .inr ⟨namesZero_nil, [], .done, ?_⟩
      rw [spliceLoop, if_neg (not_lt.mpr beyond), List.append_nil]
    | cons char rest =>
      obtain ⟨byte, more, encoded, _⟩ := utf8EncodeChar_cases char
      have whole : utf8 (char :: rest) = String.utf8EncodeChar char ++ utf8 rest :=
        List.flatMap_cons ..
      have first : utf8 (char :: rest) = byte :: (more ++ utf8 rest) := by
        rw [whole, encoded, List.cons_append]
      by_cases here : byte = tick
      · obtain ⟨run, inner, split, ends⟩ := exists_ticks (utf8 (char :: rest))
        have positive : run ≠ 0 := by
          rintro rfl
          rw [ticks, List.replicate_zero, List.nil_append] at split
          exact absurd (by rw [← split, first, here]; rfl) ends
        exact .ticks within remains positive split ends enough onward
      · have begun : index < text.length := by
          have sizes := congrArg List.length (remains.trans first)
          rw [List.length_drop, List.length_cons] at sizes
          omega
        have read : text[index]? ≠ some tick := by
          rw [← List.head?_drop, remains, first, List.head?_cons]
          exact fun same => here (Option.some.inj same)
        have fewer : (utf8 rest).length < fuel := by
          rw [first, List.length_cons, List.length_append] at enough
          omega
        obtain ⟨_, same, past, bound, _⟩ := advance within remains whole (aligned_utf8 rest).2
        have copied := onward rest _ (out ++ String.utf8EncodeChar char) bound (same ▸ past) fewer
        have other : ∀ byte ∈ (utf8 (char :: rest)).head?, byte ≠ tick := by
          rw [first]
          rintro _ ⟨⟩
          exact here
        have aligned := (aligned_utf8 (char :: rest)).1
        have mentions := mentionAt_spec within (boundary_of_utf8 within remains) (remains ▸ aligned)
        rw [remains] at mentions
        cases found : mentionAt text index with
        | error =>
          rw [found] at mentions
          obtain ⟨rfl, token, after, split, mention⟩ := mentions
          refine .inl ⟨⟨token, after, split ▸ .here, mention⟩, ?_⟩
          rw [spliceLoop, if_pos begun, if_neg read, found]
        | ok mention =>
          cases mention with
          | none =>
            rw [found] at mentions
            refine .copy within remains other (fun token after memory split maps => ?_)
              (fun token after split mention => ?_) ?_ copied
            · obtain ⟨user, mention, _⟩ := maps
              exact absurd (mentions token after _ split mention) (not_le.mpr user.fits)
            · exact absurd (mentions token after _ split mention) (by decide)
            · rw [spliceLoop, if_pos begun, if_neg read, found]
          | some entry =>
            obtain ⟨user, length⟩ := entry
            rw [found] at mentions
            obtain ⟨token, after, split, mention, rfl⟩ := mentions
            cases known : memoryIds user with
            | none =>
              refine .copy within remains other (fun token' after' memory split' maps => ?_)
                (fun token' after' split' zero => ?_) ?_ copied
              · obtain ⟨user', mention', known'⟩ := maps
                have number := (mention_unique mention mention' (split ▸ split')).2.2
                have users : user = user' := UserId.ext number
                rw [← users, known] at known'
                cases known'
              · exact user.nonzero (mention_unique mention zero (split ▸ split')).2.2
              · rw [spliceLoop, if_pos begun, if_neg read, found]
                dsimp only
                rw [known]
            | some memory =>
              have last : token.getLast? = some mentionClose := by
                obtain ⟨mark, digits, _, _, _, rfl, _⟩ := mention
                exact List.getLast?_concat ..
              obtain ⟨later, rfl, past, bound, _⟩ := advance within remains split
                fun next member => ascii_next (split ▸ aligned) last (by decide) member
              have fewer : (utf8 later).length < fuel := by
                obtain ⟨tail, rfl, _⟩ := mention_bytes mention
                rw [split, List.length_append, List.length_cons] at enough
                omega
              have written := onward later _ (out ++ constructMem codec memory) bound past fewer
              refine written.step ?_ ?_ fun tail spliced => ?_
              · rw [spliceLoop, if_pos begun, if_neg read, found]
                dsimp only
                rw [known]
              · rw [split, namesZero_mention mention user.nonzero]
              · rw [split]
                exact .mention ⟨user, mention, known⟩ spliced

/-- For every text and every table of users, the scan ends and writes the one text that has the
tokens of the known users in the place of their mentions, just where no mention outside the closed
spans has the number zero. -/
theorem spliceMentions_iff (codec : UlidCodec) (memoryIds : UserId → Option MemoryId)
    (text : List Char) :
    (∃ out, spliceMentions codec memoryIds text = .ok out ∧
      ∀ other, Spliced codec memoryIds (utf8 text) other ↔ other = out) ↔
        ¬NamesZero (utf8 text) := by
  have writes : Writes codec memoryIds (utf8 text) ((utf8 text).length + 1) 0 [] (utf8 text) :=
    spliceLoop_writes (Nat.zero_le _) List.drop_zero (Nat.lt_succ_self _)
  constructor
  · rintro ⟨out, done, _⟩ zero
    rcases writes with ⟨_, panics⟩ | ⟨unnamed, _⟩
    · rw [spliceMentions, panics] at done
      cases done
    · exact unnamed zero
  · intro unnamed
    rcases writes with ⟨zero, _⟩ | ⟨_, tail, spliced, done⟩
    · exact absurd zero unnamed
    · refine ⟨tail, done, fun other => ⟨fun again => again.unique spliced, ?_⟩⟩
      rintro rfl
      exact spliced

/-- A mention of the number zero stops the thread, also where no user is known. -/
theorem zero_mention_panics :
    spliceMentions Crockford.base32 (fun _ => none) "<@0>".toList = .error .panicked ∧
      ¬∃ out, spliceMentions Crockford.base32 (fun _ => none) "<@0>".toList = .ok out := by
  have panics : spliceMentions Crockford.base32 (fun _ => none) "<@0>".toList =
      .error .panicked := by decide +kernel
  refine ⟨panics, ?_⟩
  rintro ⟨out, done⟩
  rw [panics] at done
  cases done

end Scan

end Zuihitsu.Connector
