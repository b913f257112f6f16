/-
# Posting a batch

A batch of messages goes to the platform, a typing indicator runs from the first reply fragment of
its turn, and the outcome is posted back. Frames of a second turn, which a compaction may run in
the same request, are passed over. The indicator is stopped where an outcome has come; the two exits
for a request that failed leave it as it is.
-/

import Zuihitsu.Connector.MessageStream
import Zuihitsu.Core.Text
import Zuihitsu.Platform.Requests
import Zuihitsu.Turn.Record

namespace Zuihitsu.Connector.Process

open Zuihitsu.Core Zuihitsu.Connector.MessageStream

/-! ### What goes over the wire -/

/-- What a fragment carries. -/
inductive ProgressKind where
  | reasoning
  | reply
  | restart
  | abandoned
  deriving DecidableEq, Repr

/-- One fragment of a generation. -/
structure TurnProgress where
  conversation : ConversationId
  turnId : TurnId
  phase : Turn.ModelPhase
  kind : ProgressKind
  text : String
  step : Nat
  deriving DecidableEq

/-- What a turn delivers. -/
inductive TurnOutcome where
  | reply (text : String)
  | silent
  | maxStepsExceeded
  | deferred
  | superseded
  deriving DecidableEq, Repr

structure PlatformResponse where
  outcome : TurnOutcome
  participantTurnIds : List String
  deriving DecidableEq, Repr

structure MessageAttachment where
  name : String
  blob : String
  deriving DecidableEq, Repr

structure PlatformMessage where
  sender : Platform.PersonId
  text : String
  attachments : List MessageAttachment
  deriving DecidableEq, Repr

/-- A queued message. -/
structure PendingMessage where
  text : String
  sender : String
  attachments : List MessageAttachment
  deriving DecidableEq, Repr

/-- What a request for a batch does: the fragments it hands on, and what it returns. -/
abbrev Answer := List TurnProgress × Except Error (StreamOutcome PlatformResponse)

/-! ### The typing indicator -/

/-- The typing tasks of a batch: the fragment each was started by, and those aborted, by number. -/
structure Typing where
  started : Bool
  handle : Option Nat
  active : Option TurnId
  spawned : List TurnProgress
  aborted : List Nat

def Typing.none : Typing := ⟨false, .none, .none, [], []⟩

/-- Start typing with the first fragment of a reply. -/
def Typing.start (typing : Typing) (progress : TurnProgress) : Typing :=
  if progress.kind = .reply ∧ typing.started = false then
    { typing with
      started := true
      handle := some typing.spawned.length
      spawned := typing.spawned ++ [progress] }
  else typing

/-- See a fragment, which is passed over if it is not of the first turn seen. -/
def Typing.onProgress (typing : Typing) (progress : TurnProgress) : Typing :=
  match typing.active with
  | .none => { typing with active := some progress.turnId }.start progress
  | some id => if id ≠ progress.turnId then typing else typing.start progress

/-- Stop typing. -/
def Typing.stop (typing : Typing) : Typing :=
  match typing.handle with
  | some task => { typing with handle := .none, aborted := typing.aborted ++ [task] }
  | .none => typing

/-! ### A batch -/

/-- The name of the platform. -/
def discordPlatform : String := "discord"

def toMessages (batch : List PendingMessage) : List PlatformMessage :=
  batch.map fun message =>
    ⟨⟨discordPlatform, message.sender⟩, message.text, message.attachments⟩

/-- A text with notes below it. -/
def appendNotes (text : String) (notes : List String) : String :=
  if notes.isEmpty then text
  else if (trimmed text.toList).isEmpty then "\n".intercalate notes
  else text ++ "\n\n" ++ "\n".intercalate notes

def carriesAttachments (messages : List PlatformMessage) : Bool :=
  messages.any fun message => !message.attachments.isEmpty

/-- A batch with notes in the place of its files. -/
def withoutAttachments (messages : List PlatformMessage) : List PlatformMessage :=
  messages.map fun message =>
    if message.attachments.isEmpty then message
    else
      { message with
        text := appendNotes message.text (message.attachments.map fun attachment =>
          "(" ++ attachment.name ++ " was shared, but it could not be delivered to you)")
        attachments := [] }

/-- What the outside answers: the platform to the request and to one more, and the channel to a
post, with the message it makes. -/
structure Outside where
  first : Answer
  second : Answer
  say : String → Option Nat
  ulid : String → Option TurnId

/-- What was done: the typing, the batches sent, the reply posted and the turn its message stands
for. -/
structure Done where
  typing : Typing
  sent : List (List PlatformMessage)
  said : Option String
  recorded : Option (Nat × TurnId)

/-- Post what came of a turn. -/
def post (outside : Outside) (typing : Typing) (sent : List (List PlatformMessage)) :
    StreamOutcome PlatformResponse → Done
  | .outcome ⟨.reply text, ids⟩ =>
    ⟨typing, sent, some text, (outside.say text).bind fun message =>
      (ids.getLast?.bind outside.ulid).map fun turn => (message, turn)⟩
  -- silent, out of steps, deferred, superseded, or an error of the turn: nothing to post
  | .outcome _ | .error _ => ⟨typing, sent, .none, .none⟩

/-- Process a batch. -/
def processMessage (batch : List PendingMessage) (outside : Outside) : Done :=
  let messages := toMessages batch
  let typing := outside.first.1.foldl Typing.onProgress .none
  match outside.first.2 with
  | .ok outcome => post outside typing.stop [messages] outcome
  | .error (.status status _) =>
    if status = 400 ∧ carriesAttachments messages then
      let again := withoutAttachments messages
      let typing := outside.second.1.foldl Typing.onProgress typing
      match outside.second.2 with
      | .ok outcome => post outside typing.stop [messages, again] outcome
      | .error _ => ⟨typing, [messages, again], .none, .none⟩
    else ⟨typing, [messages], .none, .none⟩
  | .error .http => ⟨typing, [messages], .none, .none⟩

/-! ### What the callback has seen -/

/-- The agent refused the batch, and it carried files. -/
def retried (batch : List PendingMessage) (outside : Outside) : Bool :=
  match outside.first.2 with
  | .error (.status status _) => status = 400 && carriesAttachments (toMessages batch)
  | .error .http | .ok _ => false

/-- The frames the callback saw. -/
def seen (batch : List PendingMessage) (outside : Outside) : List TurnProgress :=
  outside.first.1 ++ if retried batch outside then outside.second.1 else []

/-- What the last request returned. -/
def lastAnswer (batch : List PendingMessage) (outside : Outside) :
    Except Error (StreamOutcome PlatformResponse) :=
  if retried batch outside then outside.second.2 else outside.first.2

/-- A fragment of a reply in the turn of the first of some frames. -/
def StartsTyping (frames : List TurnProgress) (progress : TurnProgress) : Prop :=
  progress.kind = .reply ∧ frames.head?.map TurnProgress.turnId = some progress.turnId

instance (frames : List TurnProgress) : DecidablePred (StartsTyping frames) :=
  fun _ => inferInstanceAs (Decidable (_ ∧ _))

/-- The typing after some frames. -/
def Typing.after (frames : List TurnProgress) : Typing where
  started := (frames.find? fun progress => StartsTyping frames progress).isSome
  handle := (frames.find? fun progress => StartsTyping frames progress).map fun _ => 0
  active := frames.head?.map TurnProgress.turnId
  spawned := (frames.find? fun progress => StartsTyping frames progress).toList
  aborted := []

theorem find_append (frames : List TurnProgress) (some' : frames ≠ []) (progress : TurnProgress) :
    ((frames ++ [progress]).find? fun one => StartsTyping (frames ++ [progress]) one) =
      (frames.find? fun one => StartsTyping frames one).or
        (if StartsTyping frames progress then some progress else none) := by
  have same : StartsTyping (frames ++ [progress]) = StartsTyping frames := by
    funext one
    obtain ⟨head, rest, rfl⟩ := List.exists_cons_of_ne_nil some'
    rfl
  simp only [same, List.find?_append, List.find?_singleton, decide_eq_true_eq]

theorem onProgress_after (frames : List TurnProgress) (progress : TurnProgress) :
    (Typing.after frames).onProgress progress = Typing.after (frames ++ [progress]) := by
  cases frames with
  | nil =>
    by_cases reply : progress.kind = .reply
    · simp [Typing.after, Typing.onProgress, Typing.start, StartsTyping, reply]
    · simp [Typing.after, Typing.onProgress, Typing.start, StartsTyping, reply]
  | cons head rest =>
    have found := find_append (head :: rest) (List.cons_ne_nil _ _) progress
    have active : (Typing.after (head :: rest)).active = some head.turnId := rfl
    have kept : (head :: rest ++ [progress]).head? = some head := rfl
    unfold Typing.onProgress
    rw [active]
    dsimp only
    by_cases turn : head.turnId = progress.turnId
    · rw [if_neg (not_not.mpr turn)]
      have may : StartsTyping (head :: rest) progress ↔ progress.kind = .reply := by
        simp [StartsTyping, turn]
      cases before : (head :: rest).find? fun one => StartsTyping (head :: rest) one with
      | some =>
        rw [before, Option.some_or] at found
        simp only [Typing.after, Typing.start, before, found, kept]
        simp
      | none =>
        rw [before, Option.none_or] at found
        simp only [Typing.after, Typing.start, before, found, kept, may]
        by_cases reply : progress.kind = .reply <;> simp [reply]
    · rw [if_pos turn]
      have not : ¬StartsTyping (head :: rest) progress := by
        simp [StartsTyping, turn]
      rw [if_neg not, Option.or_none] at found
      simp only [Typing.after, found, kept]
      rfl

theorem foldl_onProgress (frames : List TurnProgress) :
    frames.foldl Typing.onProgress .none = Typing.after frames := by
  induction frames using List.reverseRecOn with
  | nil => rfl
  | append_singleton frames progress ih =>
    rw [List.foldl_append, ih, List.foldl_cons, List.foldl_nil, onProgress_after]

section Batch

variable {batch : List PendingMessage} {outside : Outside} {frames : List TurnProgress}

/-- Every typing task has been aborted. -/
def Typing.Ended (typing : Typing) : Prop := ∀ task < typing.spawned.length, task ∈ typing.aborted

theorem ended_stop (frames : List TurnProgress) : (Typing.after frames).stop.Ended := by
  unfold Typing.Ended Typing.stop Typing.after
  cases frames.find? fun progress => StartsTyping frames progress with
  | none | some => simp

theorem ended_after (frames : List TurnProgress) :
    (Typing.after frames).Ended ↔ ¬∃ progress ∈ frames, StartsTyping frames progress := by
  unfold Typing.Ended Typing.after
  cases found : frames.find? fun progress => StartsTyping frames progress with
  | none => simpa using List.find?_eq_none.mp found
  | some first =>
    have starts := List.find?_some found
    refine iff_of_false (fun ended => nomatch ended 0 Nat.one_pos) (not_not.mpr ?_)
    exact ⟨first, List.mem_of_find?_eq_some found, of_decide_eq_true starts⟩

theorem stop_spawned (typing : Typing) : typing.stop.spawned = typing.spawned := by
  unfold Typing.stop
  split <;> rfl

theorem post_typing (typing : Typing) (sent : List (List PlatformMessage))
    (outcome : StreamOutcome PlatformResponse) : (post outside typing sent outcome).typing = typing := by
  unfold post
  split <;> rfl

theorem processMessage_typing (batch : List PendingMessage) (outside : Outside) :
    (processMessage batch outside).typing =
      match lastAnswer batch outside with
      | .ok _ => (Typing.after (seen batch outside)).stop
      | .error _ => Typing.after (seen batch outside) := by
  unfold processMessage lastAnswer seen retried
  rw [foldl_onProgress]
  cases answer : outside.first.2 with
  | ok => simp [post_typing]
  | error error =>
    cases error with
    | http => simp
    | status status body =>
      dsimp only
      by_cases again : status = 400 ∧ carriesAttachments (toMessages batch) = true
      · rw [if_pos again, ← foldl_onProgress, ← List.foldl_append, foldl_onProgress]
        simp only [again, decide_true, Bool.and_self, if_true]
        cases outside.second.2 with
        | ok => simp [post_typing]
        | error => rfl
      · have once : (decide (status = 400) && carriesAttachments (toMessages batch)) = false := by
          simpa using again
        simp [if_neg again, once]

/-- Every typing task of a batch has been aborted when it is done, just where it does not end with
a failed request after a fragment of a reply in the first turn; and there is one task at most,
started by such a fragment. -/
theorem typing_ended_iff (batch : List PendingMessage) (outside : Outside) :
    ((processMessage batch outside).typing.Ended ↔
      ¬((∃ error, lastAnswer batch outside = .error error) ∧
        ∃ progress ∈ seen batch outside, StartsTyping (seen batch outside) progress)) ∧
    (processMessage batch outside).typing.spawned.length ≤ 1 ∧
    ∀ progress ∈ (processMessage batch outside).typing.spawned,
      progress ∈ seen batch outside ∧ StartsTyping (seen batch outside) progress := by
  have spawned : (processMessage batch outside).typing.spawned =
      (Typing.after (seen batch outside)).spawned := by
    rw [processMessage_typing]
    cases lastAnswer batch outside with
    | ok => exact stop_spawned _
    | error => rfl
  refine ⟨?_, ?_, ?_⟩
  · rw [processMessage_typing]
    cases lastAnswer batch outside with
    | ok => simp [ended_stop]
    | error => simpa using ended_after (seen batch outside)
  · rw [spawned]
    unfold Typing.after
    cases (seen batch outside).find? fun progress => StartsTyping (seen batch outside) progress <;>
      simp
  · rw [spawned]
    intro progress member
    have found := Option.mem_toList.mp member
    have starts := List.find?_some found
    exact ⟨List.mem_of_find?_eq_some found, of_decide_eq_true starts⟩

/-- A fragment of a reply. -/
def replying : TurnProgress := ⟨⟨0⟩, ⟨1⟩, .step, .reply, "Hel", 0⟩

/-- The transport fails in the middle of the stream, and the typing that a fragment has started is
never stopped. -/
theorem typing_outlives :
    ¬(processMessage [⟨"hello", "1", []⟩]
      ⟨([replying], .error .http), ([], .error .http), fun _ => none, fun _ => none⟩).typing.Ended := by
  intro ended
  exact nomatch ended 0 Nat.one_pos

end Batch

end Zuihitsu.Connector.Process
