/-
# The stream of a message

A connector sends a batch of messages and reads the turn's progress and its outcome off one body
of server-sent events. The client turns each chunk of the body into text by itself, so what it
hands on is what the server wrote just where no chunk ends inside a character; a body that is cut
off before its last event ends is an error either way.
-/

import Mathlib.Data.List.ReduceOption
import Zuihitsu.Console.Stream
import Zuihitsu.Library.Lossy

namespace Zuihitsu.Connector.MessageStream

open Zuihitsu.Console Zuihitsu.Library.Lossy

variable {π ρ : Type}

/-- How a streamed turn ends for the client. -/
inductive StreamOutcome (ρ : Type) where
  | outcome (response : ρ)
  | error (message : String)
  deriving DecidableEq

/-- How a request fails. -/
inductive Error where
  | http
  | status (status : Nat) (body : String)
  deriving DecidableEq, Repr

/-- What comes of a request: it is not sent, it is refused, or a body arrives in chunks, to its end
or to where the transport fails. -/
inductive Response where
  | unsent
  | refused (status : Nat) (body : String)
  | streamed (chunks : List (List UInt8)) (failed : Bool)

/-- JSON, as frames are written and read. -/
structure JsonCodec (π ρ : Type) where
  write : StreamFrame π ρ → List Char
  read : List Char → Option (StreamFrame π ρ)

/-! ### The client -/

/-- What the client has while it reads. -/
structure Client (π ρ : Type) where
  buffer : List Char
  data : List Char
  outcome : Option (StreamOutcome ρ)
  progress : List π

def Client.empty : Client π ρ := ⟨[], [], none, []⟩

/-- The lines of a text that are complete, and what follows the last. -/
def cutLines : List Char → List (List Char) × List Char
  | [] => ([], [])
  | char :: rest =>
    if char = '\n' then ([] :: (cutLines rest).1, (cutLines rest).2)
    else
      match cutLines rest with
      | ([], left) => ([], char :: left)
      | (first :: others, left) => ((char :: first) :: others, left)

/-- A line without the carriage returns at its end. -/
def trimEnd (line : List Char) : List Char := (line.reverse.dropWhile (· = '\r')).reverse

/-- What follows the name of a field in a line that has it. -/
def stripPrefix (opener line : List Char) : Option (List Char) :=
  if opener.isPrefixOf line then some (line.drop opener.length) else none

variable (codec : JsonCodec π ρ)

/-- Hand on a frame. -/
def Client.onFrame (client : Client π ρ) : Option (StreamFrame π ρ) → Client π ρ
  | some (.progress fragment) => { client with progress := client.progress ++ [fragment] }
  | some (.outcome response) => { client with outcome := some (.outcome response) }
  | some (.error message) => { client with outcome := some (.error message) }
  | some (.event _) | some .streamEnd => client
  -- a frame that does not parse is logged
  | none => client

/-- Read a line. -/
def Client.onLine (client : Client π ρ) (raw : List Char) : Client π ρ :=
  let line := trimEnd raw
  match stripPrefix "data: ".toList line with
  | some payload => { client with data := payload }
  | none =>
    if line = [] ∧ client.data ≠ [] then
      { client.onFrame (codec.read client.data) with data := [] }
    else client

/-- Read a chunk: the lines it completes. -/
def Client.push (client : Client π ρ) (chunk : List UInt8) : Client π ρ :=
  let cut := cutLines (client.buffer ++ lossy chunk)
  { cut.1.foldl (Client.onLine codec) client with buffer := cut.2 }

/-- What the client says ended the stream. -/
def Client.ended (client : Client π ρ) : StreamOutcome ρ :=
  client.outcome.getD (.error "the stream ended without an outcome")

/-- Send a batch: the fragments of progress handed on, and what is returned. -/
def sendMessageStream : Response → List π × Except Error (StreamOutcome ρ)
  | .unsent => ([], .error .http)
  | .refused status body => ([], .error (.status status body))
  | .streamed chunks failed =>
    let client := chunks.foldl (Client.push codec) .empty
    (client.progress, if failed then .error .http else .ok client.ended)

/-! ### The server -/

/-- The frame that ends a stream. -/
def StreamOutcome.frame : StreamOutcome ρ → StreamFrame π ρ
  | .outcome response => .outcome response
  | .error message => .error message

/-- What the server writes before the last frame: a fragment, or a comment that keeps the stream
open. -/
def pieceText : Option π → List Char
  | some fragment => dataEvent (codec.write (.progress fragment))
  | none => keepAlive

/-- The body of a turn. -/
def bodyText (pieces : List (Option π)) (terminal : StreamOutcome ρ) : List Char :=
  pieces.flatMap (pieceText codec) ++ dataEvent (codec.write terminal.frame)

/-- A frame of a turn's body. -/
def Sent : StreamFrame π ρ → Prop
  | .progress _ | .outcome _ | .error _ => True
  | .event _ | .streamEnd => False

/-- What is relied on of JSON as it is written and read: a frame is written in one line and reads
back, and a character of several bytes stands in a text of its frame, for itself, so that with
another in its place the frame reads as another of its kind. -/
structure JsonCodec.Lawful (codec : JsonCodec π ρ) : Prop where
  line : ∀ frame, Sent frame → OneLine (codec.write frame)
  written : ∀ frame, Sent frame → codec.write frame ≠ []
  reads : ∀ frame, Sent frame → codec.read (codec.write frame) = some frame
  progress : ∀ fragment text, Marred (codec.write (.progress fragment)) text →
    ∃ other, codec.read text = some (.progress other) ∧
      (other = fragment → text = codec.write (.progress fragment))
  terminal : ∀ (terminal : StreamOutcome ρ) text, Marred (codec.write terminal.frame) text →
    ∃ other : StreamOutcome ρ, codec.read text = some other.frame ∧
      (other = terminal → text = codec.write terminal.frame)

/-! ### Lines -/

section Lines

variable {text more line : List Char}

theorem cutLines_newline (rest : List Char) :
    cutLines ('\n' :: rest) = ([] :: (cutLines rest).1, (cutLines rest).2) := by
  rw [cutLines, if_pos rfl]

theorem cutLines_cons {char : Char} (other : char ≠ '\n') (rest : List Char) :
    cutLines (char :: rest) =
      match cutLines rest with
      | ([], left) => ([], char :: left)
      | (first :: others, left) => ((char :: first) :: others, left) := by
  rw [cutLines, if_neg other]

theorem cutLines_append (text more : List Char) :
    cutLines (text ++ more) =
      ((cutLines text).1 ++ (cutLines ((cutLines text).2 ++ more)).1,
        (cutLines ((cutLines text).2 ++ more)).2) := by
  induction text with
  | nil => rfl
  | cons char text ih =>
    by_cases newline : char = '\n'
    · subst newline
      rw [List.cons_append, cutLines_newline, cutLines_newline, ih]
      rfl
    · rw [List.cons_append, cutLines_cons newline, cutLines_cons newline text, ih]
      cases cutLines text with
      | mk lines left =>
        cases lines with
        | nil =>
          simp only [List.nil_append, List.cons_append]
          rw [cutLines_cons newline]
        | cons => rfl

theorem cutLines_line (one : OneLine line) (rest : List Char) :
    cutLines (line ++ '\n' :: rest) = (line :: (cutLines rest).1, (cutLines rest).2) := by
  induction line with
  | nil => exact cutLines_newline rest
  | cons char line ih =>
    obtain ⟨plain, others⟩ := oneLine_cons.mp one
    have other : char ≠ '\n' := fun same => plain.1 (by simp [same])
    rw [List.cons_append, cutLines_cons other, ih others]

theorem trimEnd_of_oneLine (one : OneLine line) : trimEnd line = line := by
  have kept : line.reverse.dropWhile (· = '\r') = line.reverse := by
    cases reversed : line.reverse with
    | nil => rfl
    | cons char rest =>
      have member : char ∈ line := by
        rw [← List.mem_reverse, reversed]
        exact List.mem_cons_self
      have other : char ≠ '\r' := fun same => one.2 (same ▸ member)
      simp [other]
  rw [trimEnd, kept, List.reverse_reverse]

variable {codec : JsonCodec π ρ}

theorem cutLines_left (text : List Char) :
    cutLines (cutLines text).2 = ([], (cutLines text).2) := by
  induction text with
  | nil => rfl
  | cons char text ih =>
    by_cases newline : char = '\n'
    · rw [newline, cutLines_newline]
      exact ih
    · rw [cutLines_cons newline]
      cases split : cutLines text with
      | mk lines left =>
        rw [split] at ih
        cases lines with
        | nil =>
          dsimp only at ih ⊢
          rw [cutLines_cons newline, ih]
        | cons => exact ih

variable {codec : JsonCodec π ρ}

theorem foldl_onLine_buffer (lines : List (List Char)) (client : Client π ρ) (buffer : List Char) :
    lines.foldl (Client.onLine codec) { client with buffer } =
      { lines.foldl (Client.onLine codec) client with buffer } := by
  induction lines generalizing client with
  | nil => rfl
  | cons raw lines ih =>
    have one : Client.onLine codec { client with buffer } raw =
        { client.onLine codec raw with buffer } := by
      unfold Client.onLine Client.onFrame
      dsimp only
      split
      · rfl
      · split_ifs
        · split <;> rfl
        · rfl
    rw [List.foldl_cons, one, ih, List.foldl_cons]

theorem foldl_push (chunks : List (List UInt8)) (client : Client π ρ)
    (partial' : cutLines client.buffer = ([], client.buffer)) :
    chunks.foldl (Client.push codec) client =
      { (cutLines (client.buffer ++ chunks.flatMap lossy)).1.foldl (Client.onLine codec) client with
        buffer := (cutLines (client.buffer ++ chunks.flatMap lossy)).2 } := by
  induction chunks generalizing client with
  | nil =>
    rw [List.flatMap_nil, List.append_nil, partial']
    rfl
  | cons chunk chunks ih =>
    rw [List.foldl_cons, ih _ (cutLines_left _), List.flatMap_cons, ← List.append_assoc,
      cutLines_append (client.buffer ++ lossy chunk), List.foldl_append]
    unfold Client.push
    rw [foldl_onLine_buffer]

end Lines

/-! ### The body -/

section Body

variable {codec : JsonCodec π ρ} {json text rest : List Char} {client : Client π ρ}

theorem oneLine_of_marred (marred : Marred json text) (line : OneLine json) : OneLine text :=
  ⟨fun member => line.1 ((marred.mem_ascii (by decide)).mp member),
    fun member => line.2 ((marred.mem_ascii (by decide)).mp member)⟩

theorem sent_frame (terminal : StreamOutcome ρ) : Sent (terminal.frame : StreamFrame π ρ) := by
  cases terminal <;> trivial

theorem onFrame_frame (terminal : StreamOutcome ρ) :
    client.onFrame (some terminal.frame) = { client with outcome := some terminal } := by
  cases terminal <;> rfl

theorem ascii_of_all (all : text.all (fun char => char.toNat < 0x80) = true) :
    ∀ char ∈ text, char.toNat < 0x80 :=
  fun char member => of_decide_eq_true (List.all_eq_true.mp all char member)

theorem marred_dataEvent (marred : Marred (dataEvent json ++ rest) text) :
    ∃ json' rest', text = dataEvent json' ++ rest' ∧ Marred json json' ∧ Marred rest rest' := by
  obtain ⟨one, rest', rfl, event, others⟩ := marred.of_append
  obtain ⟨front, back, rfl, begun, ended⟩ := Marred.of_append event
  obtain ⟨opener, json', rfl, opened, written⟩ := begun.of_append
  rw [opened.of_ascii (ascii_of_all rfl), ended.of_ascii (ascii_of_all rfl)]
  exact ⟨json', rest', rfl, written, others⟩

theorem marred_keepAlive (marred : Marred (keepAlive ++ rest) text) :
    ∃ rest', text = keepAlive ++ rest' ∧ Marred rest rest' := by
  obtain ⟨one, rest', rfl, comment, others⟩ := marred.of_append
  rw [comment.of_ascii (ascii_of_all rfl)]
  exact ⟨rest', rfl, others⟩

theorem cutLines_dataEvent (line : OneLine json) (rest : List Char) :
    cutLines (dataEvent json ++ rest) =
      (("data: ".toList ++ json) :: [] :: (cutLines rest).1, (cutLines rest).2) := by
  rw [dataEvent_append, cutLines_line (oneLine_data line), cutLines_newline]

theorem cutLines_keepAlive (rest : List Char) :
    cutLines (keepAlive ++ rest) = ([':'] :: [] :: (cutLines rest).1, (cutLines rest).2) := by
  have line : OneLine [':'] := by
    unfold OneLine
    decide
  have split : keepAlive ++ rest = [':'] ++ '\n' :: ('\n' :: rest) := rfl
  rw [split, cutLines_line line, cutLines_newline]

theorem onLine_data (line : OneLine json) :
    client.onLine codec ("data: ".toList ++ json) = { client with data := json } := by
  have payload : stripPrefix "data: ".toList ("data: ".toList ++ json) = some json := by
    rw [stripPrefix, if_pos (List.isPrefixOf_iff_prefix.mpr (List.prefix_append ..)), List.drop_left]
  unfold Client.onLine
  dsimp only
  rw [trimEnd_of_oneLine (oneLine_data line), payload]

theorem onLine_blank (some : client.data ≠ []) :
    client.onLine codec [] = { client.onFrame (codec.read client.data) with data := [] } := by
  have blank : ([] : List Char) = [] ∧ client.data ≠ [] := ⟨rfl, some⟩
  exact if_pos blank

theorem onLine_of_empty (none : client.data = []) : client.onLine codec [] = client := by
  have blank : ¬(([] : List Char) = [] ∧ client.data ≠ []) := fun both => both.2 none
  exact if_neg blank

theorem onLine_comment : client.onLine codec [':'] = client := rfl

theorem frame_injective {one other : StreamOutcome ρ}
    (same : (one.frame : StreamFrame π ρ) = other.frame) : one = other := by
  cases one <;> cases other <;> cases same <;> rfl

theorem dataEvent_append_eq {json' rest' : List Char} (event : Marred json json')
    (others : Marred rest rest') :
    dataEvent json' ++ rest' = dataEvent json ++ rest ↔ json' = json ∧ rest' = rest := by
  constructor
  · intro same
    have sizes := congrArg List.length same
    simp only [dataEvent, List.length_append] at sizes
    rcases event.eq_or_longer with rfl | longer
    · exact ⟨rfl, List.append_cancel_left same⟩
    · rcases others.eq_or_longer with rfl | longer'
      · exact absurd longer (by omega)
      · exact absurd longer (by omega)
  · rintro ⟨rfl, rfl⟩
    rfl

theorem bodyText_cons (piece : Option π) (pieces : List (Option π)) (terminal : StreamOutcome ρ) :
    bodyText codec (piece :: pieces) terminal =
      pieceText codec piece ++ bodyText codec pieces terminal := by
  rw [bodyText, List.flatMap_cons, List.append_assoc, bodyText]

theorem prefix_cons_cons {α : Type} {one two : α} {taken lines : List α}
    (front : taken <+: one :: two :: lines) :
    taken = [] ∨ taken = [one] ∨ ∃ more, taken = one :: two :: more ∧ more <+: lines := by
  rcases List.prefix_cons_iff.mp front with rfl | ⟨more, rfl, inner⟩
  · exact .inl rfl
  · rcases List.prefix_cons_iff.mp inner with rfl | ⟨rest, rfl, innermost⟩
    · exact .inr (.inl rfl)
    · exact .inr (.inr ⟨rest, rfl, innermost⟩)

theorem ne_nil_of_marred (marred : Marred json text) (some : json ≠ []) : text ≠ [] := by
  rintro rfl
  rcases marred.eq_or_longer with same | longer
  · exact some same.symm
  · exact absurd longer (Nat.not_lt_zero _)

theorem reads_body (laws : codec.Lawful) {pieces : List (Option π)} {terminal : StreamOutcome ρ}
    (marred : Marred (bodyText codec pieces terminal) text) (fresh : client.data = []) :
    ∃ lines fragments other, cutLines text = (lines ++ [[]], []) ∧
      (∀ taken, taken <+: lines → (taken.foldl (Client.onLine codec) client).outcome =
        client.outcome) ∧
      ((lines ++ [[]]).foldl (Client.onLine codec) client).progress =
        client.progress ++ fragments ∧
      ((lines ++ [[]]).foldl (Client.onLine codec) client).outcome = some other ∧
      (fragments = pieces.reduceOption ∧ other = terminal ↔
        text = bodyText codec pieces terminal) := by
  induction pieces generalizing text client with
  | nil =>
    have whole : bodyText codec [] terminal = dataEvent (codec.write terminal.frame) ++ [] :=
      (List.append_nil _).symm
    rw [whole] at marred ⊢
    obtain ⟨json, _, rfl, written, ⟨⟩⟩ := marred_dataEvent marred
    have line := oneLine_of_marred written (laws.line _ (sent_frame terminal))
    have some := ne_nil_of_marred written (laws.written _ (sent_frame terminal))
    obtain ⟨other, reads, same⟩ := laws.terminal terminal json written
    have ended : (["data: ".toList ++ json] ++ [[]]).foldl (Client.onLine codec) client =
        { client with data := [], outcome := .some other } := by
      rw [List.singleton_append, List.foldl_cons, onLine_data line, List.foldl_cons,
        onLine_blank some, List.foldl_nil, reads, onFrame_frame]
    refine ⟨["data: ".toList ++ json], [], other, ?_, ?_, ?_, ?_, ?_⟩
    · exact cutLines_dataEvent line []
    · intro taken front
      rcases List.prefix_cons_iff.mp front with rfl | ⟨more, rfl, rest⟩
      · rfl
      · rw [List.prefix_nil.mp rest, List.foldl_cons, onLine_data line, List.foldl_nil]
    · rw [ended, List.append_nil]
    · rw [ended]
    · rw [dataEvent_append_eq written .nil, List.reduceOption_nil, and_iff_right rfl,
        and_iff_left rfl]
      refine ⟨same, ?_⟩
      rintro rfl
      rw [laws.reads _ (sent_frame terminal)] at reads
      exact (frame_injective (Option.some.inj reads)).symm
  | cons piece pieces ih =>
    rw [bodyText_cons] at marred ⊢
    cases piece with
    | none =>
      obtain ⟨rest, rfl, others⟩ := marred_keepAlive marred
      obtain ⟨lines, fragments, other, cut, before, progress, ended, whole⟩ := ih others fresh
      have passed : ∀ more : List (List Char),
          ([':'] :: [] :: more).foldl (Client.onLine codec) client =
            more.foldl (Client.onLine codec) client := by
        intro more
        rw [List.foldl_cons, onLine_comment, List.foldl_cons, onLine_of_empty fresh]
      refine ⟨[':'] :: [] :: lines, fragments, other, ?_, ?_, ?_, ?_, ?_⟩
      · rw [cutLines_keepAlive, cut]
        rfl
      · intro taken front
        rcases prefix_cons_cons front with rfl | rfl | ⟨more, rfl, inner⟩
        · rfl
        · rfl
        · rw [passed]
          exact before more inner
      · rw [List.cons_append, List.cons_append, passed]
        exact progress
      · rw [List.cons_append, List.cons_append, passed]
        exact ended
      · rw [pieceText, List.append_cancel_left_eq, ← whole]
        rfl
    | some fragment =>
      obtain ⟨json, rest, rfl, written, others⟩ := marred_dataEvent marred
      have line := oneLine_of_marred written (laws.line (.progress fragment) trivial)
      have some := ne_nil_of_marred written (laws.written (.progress fragment) trivial)
      obtain ⟨read, reads, same⟩ := laws.progress fragment json written
      have passed : ∀ more : List (List Char),
          (("data: ".toList ++ json) :: [] :: more).foldl (Client.onLine codec) client =
            more.foldl (Client.onLine codec)
              { client with data := [], progress := client.progress ++ [read] } := by
        intro more
        rw [List.foldl_cons, onLine_data line, List.foldl_cons, onLine_blank some, reads]
        rfl
      obtain ⟨lines, fragments, other, cut, before, progress, ended, whole⟩ :=
        @ih rest { client with data := [], progress := client.progress ++ [read] } others rfl
      refine ⟨("data: ".toList ++ json) :: [] :: lines, read :: fragments, other, ?_, ?_, ?_, ?_, ?_⟩
      · rw [cutLines_dataEvent line, cut]
        rfl
      · intro taken front
        rcases prefix_cons_cons front with rfl | rfl | ⟨more, rfl, inner⟩
        · rfl
        · rw [List.foldl_cons, onLine_data line, List.foldl_nil]
        · rw [passed]
          exact before more inner
      · rw [List.cons_append, List.cons_append, passed, progress, List.append_assoc]
        rfl
      · rw [List.cons_append, List.cons_append, passed]
        exact ended
      · rw [pieceText, dataEvent_append_eq written others, ← whole, List.reduceOption_cons_of_some,
          List.cons.injEq, and_assoc]
        refine and_congr_left fun _ => ⟨same, ?_⟩
        rintro rfl
        rw [laws.reads (.progress fragment) trivial] at reads
        cases reads
        rfl

theorem eq_left_of_cutLines (none : (cutLines text).1 = []) : (cutLines text).2 = text := by
  induction text with
  | nil => rfl
  | cons char text ih =>
    by_cases newline : char = '\n'
    · rw [newline, cutLines_newline] at none
      cases none
    · rw [cutLines_cons newline] at none ⊢
      cases split : cutLines text with
      | mk lines left =>
        rw [split] at none ih
        cases lines with
        | nil => exact congrArg _ (ih rfl)
        | cons => cases none

theorem foldl_push_empty (chunks : List (List UInt8)) :
    chunks.foldl (Client.push codec) .empty =
      { (cutLines (chunks.flatMap lossy)).1.foldl (Client.onLine codec) .empty with
        buffer := (cutLines (chunks.flatMap lossy)).2 } := by
  rw [foldl_push _ _ rfl]
  rfl

theorem outcome_of_cut (laws : codec.Lawful) {pieces : List (Option π)}
    {terminal : StreamOutcome ρ} {chunks : List (List UInt8)} {missing : List UInt8}
    (some : missing ≠ [])
    (cut : chunks.flatten ++ missing = encode (bodyText codec pieces terminal)) :
    (chunks.foldl (Client.push codec) .empty).outcome = none := by
  have joined : (chunks ++ [missing]).flatten = encode (bodyText codec pieces terminal) := by
    rw [List.flatten_append, List.flatten_singleton, cut]
  have marred := (lossy_chunks joined).1
  rw [List.flatMap_append, List.flatMap_singleton] at marred
  obtain ⟨lines, _, _, whole, before, _⟩ := @reads_body π ρ codec _ .empty laws pieces terminal marred rfl
  rw [cutLines_append, Prod.mk.injEq] at whole
  -- The last line, which is blank, is not complete before the missing bytes.
  have further : (cutLines ((cutLines (chunks.flatMap lossy)).2 ++ lossy missing)).1 ≠ [] := by
    intro none
    have left := eq_left_of_cutLines none
    rw [whole.2] at left
    exact lossy_ne_nil some (List.append_eq_nil_iff.mp left.symm).2
  have front : (cutLines (chunks.flatMap lossy)).1 <+: lines := by
    have within : (cutLines (chunks.flatMap lossy)).1 <+: lines ++ [[]] := ⟨_, whole.1⟩
    rcases List.prefix_concat_iff.mp within with all | most
    · have none := whole.1
      rw [all, List.append_right_eq_self] at none
      exact absurd none further
    · exact most
  rw [foldl_push_empty]
  exact before _ front

/-- The client hands on what the server wrote, from its fragments to its end, just where each chunk
of the body is a text; and of a body that is cut off it says that it is none or that it failed. -/
theorem sendMessageStream_iff (laws : codec.Lawful) (pieces : List (Option π))
    (terminal : StreamOutcome ρ) (chunks : List (List UInt8)) :
    (chunks.flatten = encode (bodyText codec pieces terminal) →
      (sendMessageStream codec (.streamed chunks false) = (pieces.reduceOption, .ok terminal) ↔
        ∀ chunk ∈ chunks, ∃ part, chunk = encode part)) ∧
    ∀ missing failed, missing ≠ [] →
      chunks.flatten ++ missing = encode (bodyText codec pieces terminal) →
        (sendMessageStream codec (.streamed chunks failed)).2 = .error .http ∨
          (sendMessageStream codec (.streamed chunks failed)).2 =
            .ok (.error "the stream ended without an outcome") := by
  constructor
  · intro joined
    obtain ⟨marred, exact'⟩ := lossy_chunks joined
    obtain ⟨lines, fragments, other, cut, _, progress, ended, whole⟩ :=
      @reads_body π ρ codec _ .empty laws pieces terminal marred rfl
    rw [← exact', ← whole, sendMessageStream, foldl_push_empty, cut]
    dsimp only
    rw [Client.ended, progress, ended, if_neg Bool.false_ne_true, Prod.mk.injEq, Except.ok.injEq,
      Option.getD_some]
    rfl
  · intro missing failed some cut
    rw [sendMessageStream]
    cases failed with
    | true => exact .inl rfl
    | false =>
      right
      dsimp only
      rw [Client.ended, outcome_of_cut laws some cut]
      rfl

end Body

/-! JSON for frames that carry one text each. -/

namespace OneText

/-- A character within quotes. -/
def escapeChar (char : Char) : List Char :=
  if char = '\x22' then ['\x5c', '\x22']
  else if char = '\x5c' then ['\x5c', '\x5c']
  else if char = '\n' then ['\x5c', 'n']
  else if char = '\r' then ['\x5c', 'r']
  else [char]

def escape (text : List Char) : List Char := text.flatMap escapeChar

/-- The character an escape stands for. -/
def escaped (char : Char) : Char :=
  if char = 'n' then '\n' else if char = 'r' then '\r' else char

/-- The text up to the closing quote, and what follows it. -/
def unescape : List Char → Option (List Char × List Char)
  | [] => none
  | '\x22' :: rest => some ([], rest)
  | '\x5c' :: char :: rest => (unescape rest).map fun read => (escaped char :: read.1, read.2)
  | char :: rest => (unescape rest).map fun read => (char :: read.1, read.2)

/-- What stands before the text of a fragment of progress, of a reply and of an error, and what
stands after the quote that ends it. -/
def aroundProgress : List Char × List Char :=
  ("\x7b\x22type\x22:\x22progress\x22,\x22text\x22:\x22".toList, "\x7d".toList)
def aroundOutcome : List Char × List Char :=
  ("\x7b\x22type\x22:\x22outcome\x22,\x22outcome\x22:\x7b\x22Reply\x22:\x22".toList,
    "\x7d,\x22participant_turn_ids\x22:[]\x7d".toList)
def aroundError : List Char × List Char :=
  ("\x7b\x22type\x22:\x22error\x22,\x22message\x22:\x22".toList, "\x7d".toList)

def wrap (around : List Char × List Char) (text : List Char) : List Char :=
  around.1 ++ (escape text ++ '\x22' :: around.2)

def readText (around : List Char × List Char) (text : List Char) : Option (List Char) :=
  (stripPrefix around.1 text).bind fun rest =>
    (unescape rest).bind fun read => if read.2 = around.2 then some read.1 else none

def json : JsonCodec (List Char) (List Char) where
  write
    | .progress fragment => wrap aroundProgress fragment
    | .outcome reply => wrap aroundOutcome reply
    | .error message => wrap aroundError message.toList
    | .event _ | .streamEnd => []
  read text :=
    ((readText aroundProgress text).map .progress).or
      (((readText aroundOutcome text).map .outcome).or
        ((readText aroundError text).map fun message => .error (.ofList message)))

theorem escapeChar_cases (char : Char) :
    (∃ letter, escapeChar char = ['\x5c', letter] ∧ escaped letter = char ∧ letter.toNat < 0x80 ∧
      letter ≠ '\n' ∧ letter ≠ '\r') ∨
    escapeChar char = [char] ∧ char ≠ '\x22' ∧ char ≠ '\x5c' ∧ char ≠ '\n' ∧ char ≠ '\r' := by
  unfold escapeChar
  split_ifs with quote backslash newline carriage
  · exact .inl ⟨'\x22', rfl, by rw [quote]; decide, by decide⟩
  · exact .inl ⟨'\x5c', rfl, by rw [backslash]; decide, by decide⟩
  · exact .inl ⟨'n', rfl, by rw [newline]; decide, by decide⟩
  · exact .inl ⟨'r', rfl, by rw [carriage]; decide, by decide⟩
  · exact .inr ⟨rfl, quote, backslash, newline, carriage⟩

theorem unescape_escape (text rest : List Char) :
    unescape (escape text ++ '\x22' :: rest) = some (text, rest) := by
  induction text with
  | nil => rfl
  | cons char text ih =>
    rw [escape, List.flatMap_cons, List.append_assoc, ← escape]
    obtain ⟨letter, written, read, _⟩ | ⟨written, quote, backslash, _⟩ := escapeChar_cases char
    · rw [written]
      simp [unescape, ih, read]
    · rw [written, List.singleton_append, unescape, ih]
      · rfl
      · exact quote
      · exact fun _ _ same _ => backslash same

theorem oneLine_escape (text : List Char) : OneLine (escape text) := by
  induction text with
  | nil => exact ⟨nofun, nofun⟩
  | cons char text ih =>
    rw [escape, List.flatMap_cons, oneLine_append]
    refine ⟨?_, ih⟩
    obtain ⟨letter, written, _, _, newline, carriage⟩ | ⟨written, _, _, newline, carriage⟩ :=
      escapeChar_cases char
    · rw [written]
      simp [OneLine, newline.symm, carriage.symm]
    · rw [written]
      simp [OneLine, newline.symm, carriage.symm]

theorem escape_replicate (marks : Nat) :
    escape (List.replicate marks replacement) = List.replicate marks replacement := by
  induction marks with
  | zero => rfl
  | succ marks ih =>
    rw [List.replicate_succ, escape, List.flatMap_cons, ← escape, ih]
    rfl

theorem marred_escape {text read : List Char} (marred : Marred (escape text) read) :
    ∃ other, read = escape other := by
  induction text generalizing read with
  | nil =>
    cases marred
    exact ⟨[], rfl⟩
  | cons char text ih =>
    rw [escape, List.flatMap_cons, ← escape] at marred
    obtain ⟨one, others, rfl, first, rest⟩ := marred.of_append
    obtain ⟨other, rfl⟩ := ih rest
    obtain ⟨letter, written, _, ascii, _⟩ | ⟨written, quote, _⟩ := escapeChar_cases char
    · have kept : one = escapeChar char := by
        rw [written] at first ⊢
        refine first.of_ascii (List.forall_mem_cons.mpr ⟨by decide, ?_⟩)
        exact List.forall_mem_singleton.mpr ascii
      exact ⟨char :: other, by rw [kept, escape, escape, List.flatMap_cons]⟩
    · rw [written] at first
      generalize single : [char] = whole at first
      cases first with
      | nil => cases single
      | keep following =>
        cases single
        cases following
        exact ⟨char :: other, by rw [escape, escape, List.flatMap_cons, written]⟩
      | @cut _ marks _ _ _ _ following =>
        cases single
        cases following
        refine ⟨List.replicate marks replacement ++ other, ?_⟩
        rw [List.append_nil]
        conv_lhs => rw [← escape_replicate]
        exact List.flatMap_append.symm

theorem marred_wrap {around : List Char × List Char} {text read : List Char}
    (ascii : ∀ char ∈ around.1 ++ around.2, char.toNat < 0x80)
    (marred : Marred (wrap around text) read) : ∃ other, read = wrap around other := by
  rw [List.forall_mem_append] at ascii
  obtain ⟨one, rest, rfl, first, others⟩ := marred.of_append
  obtain ⟨two, three, rfl, second, third⟩ := others.of_append
  obtain ⟨other, rfl⟩ := marred_escape second
  rw [first.of_ascii ascii.1, third.of_ascii (List.forall_mem_cons.mpr ⟨by decide, ascii.2⟩)]
  exact ⟨other, rfl⟩

theorem readText_wrap (around : List Char × List Char) (text : List Char) :
    readText around (wrap around text) = some text := by
  have front : stripPrefix around.1 (wrap around text) = some (escape text ++ '\x22' :: around.2) := by
    rw [stripPrefix, wrap, if_pos (List.isPrefixOf_iff_prefix.mpr (List.prefix_append ..)),
      List.drop_left]
  rw [readText, front, Option.bind_some, unescape_escape, Option.bind_some, if_pos rfl]

theorem read_progress (text : List Char) :
    json.read (wrap aroundProgress text) = some (.progress text) := by
  unfold json
  dsimp only
  rw [readText_wrap]
  rfl

theorem read_outcome (text : List Char) :
    json.read (wrap aroundOutcome text) = some (.outcome text) := by
  have apart : readText aroundProgress (wrap aroundOutcome text) = none := rfl
  unfold json
  dsimp only
  rw [apart, readText_wrap]
  rfl

theorem read_error (text : List Char) :
    json.read (wrap aroundError text) = some (.error (.ofList text)) := by
  have apart : readText aroundProgress (wrap aroundError text) = none ∧
    readText aroundOutcome (wrap aroundError text) = none := ⟨rfl, rfl⟩
  unfold json
  dsimp only
  rw [apart.1, apart.2, readText_wrap]
  rfl

theorem lawful : json.Lawful where
  line frame sent := by
    have around : ∀ around : List Char × List Char, OneLine (around.1 ++ around.2) → ∀ text,
        OneLine (wrap around text) := by
      intro around plain text
      rw [oneLine_append] at plain
      have quote : OneLine ['\x22'] := by
        unfold OneLine
        decide
      exact oneLine_append.mpr ⟨plain.1, oneLine_append.mpr ⟨oneLine_escape text,
        oneLine_cons.mpr ⟨quote, plain.2⟩⟩⟩
    have plain : OneLine (aroundProgress.1 ++ aroundProgress.2) ∧
        OneLine (aroundOutcome.1 ++ aroundOutcome.2) ∧
          OneLine (aroundError.1 ++ aroundError.2) := by
      unfold OneLine
      decide
    cases frame with
    | progress fragment => exact around _ plain.1 fragment
    | outcome reply => exact around _ plain.2.1 reply
    | error message => exact around _ plain.2.2 message.toList
    | event | streamEnd => exact sent.elim
  written frame sent := by
    cases frame with
    | progress | outcome | error => exact List.cons_ne_nil _ _
    | event | streamEnd => exact sent.elim
  reads frame sent := by
    cases frame with
    | progress fragment => exact read_progress fragment
    | outcome reply => exact read_outcome reply
    | error message =>
      refine (read_error message.toList).trans ?_
      rw [String.ofList_toList]
    | event | streamEnd => exact sent.elim
  progress fragment text marred := by
    obtain ⟨other, rfl⟩ := marred_wrap (ascii_of_all rfl) marred
    refine ⟨other, read_progress other, ?_⟩
    rintro rfl
    rfl
  terminal terminal text marred := by
    cases terminal with
    | outcome =>
      obtain ⟨other, rfl⟩ := marred_wrap (ascii_of_all rfl) marred
      refine ⟨.outcome other, read_outcome other, ?_⟩
      rintro ⟨⟩
      rfl
    | error =>
      obtain ⟨other, rfl⟩ := marred_wrap (ascii_of_all rfl) marred
      refine ⟨.error (.ofList other), read_error other, ?_⟩
      rintro ⟨⟩
      change _ = wrap aroundError _
      rw [String.toList_ofList]

def cutBody : List (List UInt8) :=
  let bytes := encode (bodyText json [] (.error "caf\u00e9"))
  [bytes.take 37, bytes.drop 37]

/-- What the client returns of it is another error, while the body in one chunk gives the error
itself. -/
theorem cut_character :
    cutBody.flatten = encode (bodyText json [] (.error "caf\u00e9")) ∧
      sendMessageStream json (.streamed cutBody false) =
        ([], .ok (.error "caf\ufffd\ufffd")) ∧
      sendMessageStream json (.streamed [cutBody.flatten] false) =
        ([], .ok (.error "caf\u00e9")) ∧
      sendMessageStream json (.streamed cutBody false) ≠
        sendMessageStream json (.streamed [cutBody.flatten] false) := by
  decide +kernel

/-- Whole, a body with a fragment and a reply of several bytes a character. -/
theorem sendMessageStream_whole :
    sendMessageStream json (.streamed
        [encode (bodyText json [none, some "n\u00e9".toList] (.outcome "\u00e0".toList))] false) =
      (["n\u00e9".toList], .ok (.outcome "\u00e0".toList)) := by
  have whole := (sendMessageStream_iff lawful [none, some "n\u00e9".toList]
    (.outcome "\u00e0".toList)
    [encode (bodyText json [none, some "n\u00e9".toList] (.outcome "\u00e0".toList))]).1 (by simp)
  exact whole.mpr (List.forall_mem_singleton.mpr ⟨_, rfl⟩)

end OneText

end Zuihitsu.Connector.MessageStream
