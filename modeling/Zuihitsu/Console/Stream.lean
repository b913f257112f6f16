/-
# The event stream

Server-sent events over a body read in chunks. The decoder keeps what follows the
last blank line and parses the frames before it; committed events collect until a
progress frame, or the end of the chunk, hands them on. Cut anywhere, a body gives
the frames it spells, each once and in order.
-/

import Zuihitsu.Core.Event
import Mathlib.Data.List.Infix

namespace Zuihitsu.Console

open Zuihitsu.Core

variable {π ρ ε : Type}

/-- The frames of the streaming protocol, over what the ephemeral ones carry. -/
inductive StreamFrame (π ρ : Type) where
  | progress (fragment : π)
  | event (event : Event)
  | outcome (response : ρ)
  | streamEnd
  | error (message : String)

/-! ### The decoder -/

/-- The text between the blank lines, a carriage return before a newline being part of it. -/
def parts : List Char → List (List Char)
  | [] => [[]]
  | '\r' :: '\n' :: '\r' :: '\n' :: rest => [] :: parts rest
  | '\r' :: '\n' :: '\n' :: rest => [] :: parts rest
  | '\n' :: '\r' :: '\n' :: rest => [] :: parts rest
  | '\n' :: '\n' :: rest => [] :: parts rest
  | char :: rest =>
    match parts rest with
    | [] => [[char]]
    | first :: others => (char :: first) :: others

/-- The grammar allows one optional space after the colon of a field. -/
def stripLeadingSpace : List Char → List Char
  | ' ' :: rest => rest
  | value => value

/-- The payload of a data line. -/
def dataLine (raw : List Char) : Option (List Char) :=
  let line := if raw.getLast? = some '\r' then raw.dropLast else raw
  if "data:".toList.isPrefixOf line then
    some (stripLeadingSpace (line.drop "data:".toList.length))
  else none

/-- One frame, if it has a payload; keep-alives and comments have none. -/
def parseFrame (parse : List Char → Except ε (StreamFrame π ρ)) (frame : List Char) :
    Except ε (Option (StreamFrame π ρ)) :=
  match (frame.splitOn '\n').filterMap dataLine with
  | [] => .ok none
  | data => (parse (['\n'].intercalate data)).map some

/-- The frames of the parts, in order. -/
def parseFrames (parse : List Char → Except ε (StreamFrame π ρ)) :
    List (List Char) → Except ε (List (StreamFrame π ρ))
  | [] => .ok []
  | part :: rest =>
    match parseFrame parse part with
    | .error cause => .error cause
    | .ok frame => (parseFrames parse rest).map (frame.toList ++ ·)

/-- Feed the decoder a chunk: the frames it completes, and what it keeps for the next. -/
def push (parse : List Char → Except ε (StreamFrame π ρ)) (buffered chunk : List Char) :
    Except ε (List (StreamFrame π ρ) × List Char) :=
  let split := parts (buffered ++ chunk)
  (parseFrames parse split.dropLast).map (·, split.getLastD [])

/-- The batches the frames of one chunk are handed on in. -/
def batches : List Event → List (StreamFrame π ρ) → List (List Event)
  | [], [] => []
  | batch, [] => [batch]
  | batch, .event event :: rest => batches (batch ++ [event]) rest
  | [], .progress _ :: rest => batches [] rest
  | batch, .progress _ :: rest => batch :: batches [] rest
  | batch, _ :: rest => batches batch rest

/-- The committed events among frames. -/
def committedOf (frames : List (StreamFrame π ρ)) : List Event :=
  frames.filterMap fun
    | .event event => some event
    | _ => none

@[simp] theorem committedOf_nil : committedOf ([] : List (StreamFrame π ρ)) = [] := rfl

theorem committedOf_append (first second : List (StreamFrame π ρ)) :
    committedOf (first ++ second) = committedOf first ++ committedOf second :=
  List.filterMap_append

theorem flatten_batches (batch : List Event) (frames : List (StreamFrame π ρ)) :
    (batches batch frames).flatten = batch ++ committedOf frames := by
  induction frames generalizing batch with
  | nil => cases batch <;> simp [batches]
  | cons frame rest ih =>
    cases frame with
    | event | outcome | streamEnd | error => simp [batches, ih, committedOf]
    | progress => cases batch <;> simp [batches, ih, committedOf]

theorem ne_nil_of_mem_batches (batch : List Event) (frames : List (StreamFrame π ρ)) :
    ∀ one ∈ batches batch frames, one ≠ [] := by
  fun_induction batches batch frames with
  | case1 => simp
  | case2 batch some' =>
    intro one member
    rw [List.mem_singleton.mp member]
    exact some'
  | case3 batch event rest ih => exact ih
  | case4 fragment rest ih => exact ih
  | case5 batch fragment rest some' ih =>
    intro one member
    rcases List.mem_cons.mp member with rfl | later
    · exact some'
    · exact ih one later
  | case6 batch frame rest _ _ _ ih => exact ih

/-! ### What a server writes -/

/-- A frame on the wire: one data line, and the blank line that ends it. -/
def dataEvent (json : List Char) : List Char := "data: ".toList ++ json ++ ['\n', '\n']

/-- The comment that keeps an idle stream open. -/
def keepAlive : List Char := [':', '\n', '\n']

/-- Text without a line break. -/
def OneLine (text : List Char) : Prop := '\n' ∉ text ∧ '\r' ∉ text

/-- A wire text spells frames: each in one data line that parses to it, with comments between. -/
inductive Spells (parse : List Char → Except ε (StreamFrame π ρ)) :
    List Char → List (StreamFrame π ρ) → Prop
  | nil : Spells parse [] []
  | frame {json text : List Char} {frame : StreamFrame π ρ} {frames : List (StreamFrame π ρ)}
      (line : OneLine json) (parses : parse json = .ok frame) (rest : Spells parse text frames) :
      Spells parse (dataEvent json ++ text) (frame :: frames)
  | comment {text : List Char} {frames : List (StreamFrame π ρ)} (rest : Spells parse text frames) :
      Spells parse (keepAlive ++ text) frames

section Decoding

variable {parse : List Char → Except ε (StreamFrame π ρ)} {text more body : List Char}
  {frames others : List (StreamFrame π ρ)}

theorem Spells.append (first : Spells parse text frames) (second : Spells parse more others) :
    Spells parse (text ++ more) (frames ++ others) := by
  induction first with
  | nil => exact second
  | frame line parses _ ih =>
    rw [List.append_assoc]
    exact .frame line parses ih
  | comment _ ih =>
    rw [List.append_assoc]
    exact .comment ih

theorem oneLine_cons {char : Char} {rest : List Char} :
    OneLine (char :: rest) ↔ OneLine [char] ∧ OneLine rest := by
  simp only [OneLine, List.mem_cons, List.not_mem_nil, or_false, not_or]
  exact ⟨fun ⟨⟨one, two⟩, three, four⟩ => ⟨⟨one, three⟩, two, four⟩,
    fun ⟨⟨one, three⟩, two, four⟩ => ⟨⟨one, two⟩, three, four⟩⟩

theorem oneLine_append {first second : List Char} :
    OneLine (first ++ second) ↔ OneLine first ∧ OneLine second := by
  simp only [OneLine, List.mem_append, not_or]
  exact and_and_and_comm

theorem OneLine.of_prefix (line : OneLine body) (front : text <+: body) : OneLine text := by
  obtain ⟨rest, rfl⟩ := front
  exact (oneLine_append.mp line).1

theorem oneLine_data {json : List Char} (line : OneLine json) :
    OneLine ("data: ".toList ++ json) := by
  refine oneLine_append.mpr ⟨?_, line⟩
  unfold OneLine
  decide

theorem parts_ne_nil (text : List Char) : parts text ≠ [] := by
  rw [parts.eq_def]
  split
  all_goals try simp
  split <;> simp

theorem getLastD_cons_parts (first : List Char) (text : List Char) :
    (first :: parts text).getLastD [] = (parts text).getLastD [] := by
  obtain ⟨second, later, split⟩ := List.exists_cons_of_ne_nil (parts_ne_nil text)
  rw [split, List.getLastD_cons, List.getLastD_cons, List.getLastD_cons]

theorem parts_cons {char : Char} (plain : OneLine [char]) {first : List Char}
    {later : List (List Char)} (split : parts text = first :: later) :
    parts (char :: text) = (char :: first) :: later := by
  have newline : char ≠ '\n' := fun same => plain.1 (by simp [same])
  have carriage : char ≠ '\r' := fun same => plain.2 (by simp [same])
  rw [parts.eq_def]
  split <;> simp_all

theorem parts_line (line : OneLine body) :
    parts (body ++ '\n' :: '\n' :: text) = body :: parts text := by
  induction body with
  | nil => rw [List.nil_append, parts]
  | cons char rest ih =>
    obtain ⟨plain, later⟩ := oneLine_cons.mp line
    rw [List.cons_append, parts_cons plain (ih later)]

theorem parts_oneLine (line : OneLine body) : parts body = [body] := by
  induction body with
  | nil => rw [parts]
  | cons char rest ih =>
    obtain ⟨plain, later⟩ := oneLine_cons.mp line
    rw [parts_cons plain (ih later)]

theorem parts_newline (line : OneLine body) : parts (body ++ ['\n']) = [body ++ ['\n']] := by
  induction body with
  | nil => rfl
  | cons char rest ih =>
    obtain ⟨plain, later⟩ := oneLine_cons.mp line
    rw [List.cons_append, parts_cons plain (ih later)]

theorem cut_line (line : OneLine body) {rest : List Char}
    (whole : body ++ '\n' :: '\n' :: more = text ++ rest) :
    (∃ later, text = body ++ '\n' :: '\n' :: later ∧ more = later ++ rest) ∨
      parts text = [text] := by
  have joined : (body ++ ['\n'] ++ ['\n']) ++ more = text ++ rest := by simpa using whole
  rcases List.append_eq_append_iff.mp joined with ⟨later, past, following⟩ | ⟨left, cut, following⟩
  · left
    exact ⟨later, by simpa using past, following⟩
  · have front : text <+: body ++ ['\n'] ++ ['\n'] := ⟨left, cut.symm⟩
    rcases List.prefix_concat_iff.mp front with all | most
    · -- cut right behind the blank line
      left
      rw [all, List.self_eq_append_right] at cut
      rw [cut, List.nil_append] at following
      exact ⟨[], by simpa using all, by simpa using following.symm⟩
    · right
      rcases List.prefix_concat_iff.mp most with half | within
      · rw [half]
        exact parts_newline line
      · exact parts_oneLine (line.of_prefix within)

theorem dataEvent_append (json more : List Char) :
    dataEvent json ++ more = "data: ".toList ++ json ++ '\n' :: '\n' :: more :=
  List.append_assoc _ ['\n', '\n'] more

theorem parseFrame_data {json : List Char} {frame : StreamFrame π ρ} (line : OneLine json)
    (parses : parse json = .ok frame) :
    parseFrame parse ("data: ".toList ++ json) = .ok (some frame) := by
  have whole : ("data: ".toList ++ json).splitOn '\n' = ["data: ".toList ++ json] := by
    rw [List.splitOn_eq_splitOnP]
    refine List.splitOnP_eq_singleton fun char member => ?_
    have other : char ≠ '\n' := fun same => (oneLine_data line).1 (same ▸ member)
    simpa using other
  have kept : dataLine ("data: ".toList ++ json) = some json := by
    have last : ("data: ".toList ++ json).getLast? ≠ some '\r' := fun ends =>
      (oneLine_data line).2 (List.mem_of_getLast? ends)
    rw [dataLine, if_neg last]
    rfl
  have data : ["data: ".toList ++ json].filterMap dataLine = [json] := by
    rw [List.filterMap_cons_some kept, List.filterMap_nil]
  rw [parseFrame, whole, data]
  simp [parses, Except.map]

theorem parseFrame_comment : parseFrame parse [':'] = .ok none := rfl

theorem Spells.cut {whole rest : List Char} (spells : Spells parse whole frames)
    (cut : whole = text ++ rest) :
    ∃ done left, parseFrames parse (parts text).dropLast = .ok done ∧ frames = done ++ left ∧
      Spells parse ((parts text).getLastD [] ++ rest) left := by
  induction spells generalizing text with
  | nil =>
    obtain ⟨rfl, rfl⟩ := List.append_eq_nil_iff.mp cut.symm
    exact ⟨[], [], rfl, rfl, .nil⟩
  | @frame json more frame frames line parses following ih =>
    rcases cut_line (oneLine_data line) ((dataEvent_append json more).symm.trans cut) with
      ⟨later, rfl, behind⟩ | none'
    · obtain ⟨done, left, parsed, split, kept⟩ := ih behind
      refine ⟨frame :: done, left, ?_, by rw [split, List.cons_append], ?_⟩
      · rw [parts_line (oneLine_data line), List.dropLast_cons_of_ne_nil (parts_ne_nil later),
          parseFrames, parseFrame_data line parses, parsed]
        rfl
      · rwa [parts_line (oneLine_data line), getLastD_cons_parts]
    · rw [none']
      refine ⟨[], frame :: frames, rfl, rfl, ?_⟩
      rw [List.getLastD_cons, List.getLastD_nil, ← cut]
      exact .frame line parses following
  | @comment more frames following ih =>
    have line : OneLine [':'] := by
      unfold OneLine
      decide
    rcases cut_line line cut with ⟨later, rfl, behind⟩ | none'
    · obtain ⟨done, left, parsed, split, kept⟩ := ih behind
      refine ⟨done, left, ?_, split, ?_⟩
      · rw [parts_line line, List.dropLast_cons_of_ne_nil (parts_ne_nil later), parseFrames,
          parseFrame_comment, parsed]
        rfl
      · rwa [parts_line line, getLastD_cons_parts]
    · rw [none']
      refine ⟨[], frames, rfl, rfl, ?_⟩
      rw [List.getLastD_cons, List.getLastD_nil, ← cut]
      exact .comment following

theorem Spells.push {buffered chunk rest : List Char}
    (spells : Spells parse (buffered ++ chunk ++ rest) frames) :
    ∃ done left kept, push parse buffered chunk = .ok (done, kept) ∧ frames = done ++ left ∧
      Spells parse (kept ++ rest) left := by
  obtain ⟨done, left, parsed, split, later⟩ := spells.cut rfl
  refine ⟨done, left, _, ?_, split, later⟩
  rw [Console.push, parsed]
  rfl

end Decoding

end Zuihitsu.Console
