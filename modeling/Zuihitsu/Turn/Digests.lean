/-
# Rebuilding the requests of a turn

A turn's first call records its request whole, and each later one what was appended
to the messages. The console groups the recorded calls by turn and phase, rebuilds
each request and compares its digest with the recorded one. The rebuilt request is
the one that was sent exactly when no earlier record of the turn was lost and the
call kept the tools: the last step withdraws them, and no later record says so.
-/

import Mathlib.Data.Countable.Basic
import Mathlib.Logic.Equiv.List
import Mathlib.Tactic.DeriveCountable
import Zuihitsu.Library.Delta
import Zuihitsu.Turn.Seam
import Zuihitsu.Turn.Steps

namespace Zuihitsu.Turn

open Zuihitsu.Core
open Zuihitsu.Library

/-! ### Records as deltas -/

/-- The part of a request that only its first record keeps. -/
structure RequestFrame where
  system : String
  tools : List ToolSpec
  toolChoice : ToolChoice
  thinking : Option Bool
  deriving DecidableEq, Repr

/-- The frame of a request. -/
def GenerateRequest.frame (request : GenerateRequest) : RequestFrame :=
  ⟨request.system, request.tools, request.toolChoice, request.thinking⟩

/-- A recorded request as a delta of the messages. -/
def RequestRecord.delta : RequestRecord → Delta RequestFrame Message
  | base system messages tools toolChoice thinking => .base ⟨system, tools, toolChoice, thinking⟩ messages
  | continuation appendedMessages => .appended appendedMessages

/-- The request with a frame and messages: the record keeps no response format. -/
def requestOf (frame : RequestFrame) (messages : List Message) : GenerateRequest :=
  { system := frame.system, messages, tools := frame.tools, toolChoice := frame.toolChoice
    responseFormat := none, thinking := frame.thinking }

/-- The request that records rebuild. -/
def rebuiltRequest (records : List RequestRecord) : Option GenerateRequest :=
  (Delta.rebuild (records.map RequestRecord.delta)).map fun (frame, messages) =>
    requestOf frame messages

/-! ### The console's check -/

/-- What the console finds of a recorded call. -/
inductive DigestStatus where
  | verified
  | mismatch
  | unverifiable
  | unrecorded
  deriving DecidableEq, Repr

/-- The finding for one recorded call. -/
structure DigestCheck where
  seq : Nat
  status : DigestStatus
  deriving DecidableEq, Repr

/-- The requests rebuilt so far, by turn and phase. -/
abbrev RequestGroups := TurnId × ModelPhase → Option (RequestFrame × List Message)

/-- The finding for a rebuilt request. -/
def digestStatus (requestDigest : GenerateRequest → String) (phase : ModelPhase)
    (recorded : String) (group : RequestFrame × List Message) : DigestStatus :=
  if requestDigest (requestOf group.1 group.2) = recorded then .verified
  else if phase = .synthesis then .unverifiable
  else .mismatch

/-- Check one event against what was rebuilt before it. -/
def checkEvent (requestDigest : GenerateRequest → String) (groups : RequestGroups)
    (event : TurnEvent) : RequestGroups × Option DigestCheck :=
  match event.payload with
  | .modelCalled _ turnId phase recorded request _ =>
    match request with
    | some (.base system messages tools toolChoice thinking) =>
      let group := (⟨system, tools, toolChoice, thinking⟩, messages)
      (Function.update groups (turnId, phase) (some group),
        some ⟨event.seq, digestStatus requestDigest phase recorded group⟩)
    | some (.continuation appendedMessages) =>
      match groups (turnId, phase) with
      | some (frame, messages) =>
        let group := (frame, messages ++ appendedMessages)
        (Function.update groups (turnId, phase) (some group),
          some ⟨event.seq, digestStatus requestDigest phase recorded group⟩)
      | none => (groups, some ⟨event.seq, .unrecorded⟩)
    | none => (groups, some ⟨event.seq, .unrecorded⟩)
  | _ => (groups, none)

/-- Check every event in order. -/
def requestDigestsFrom (requestDigest : GenerateRequest → String) :
    RequestGroups → List TurnEvent → List DigestCheck
  | _, [] => []
  | groups, event :: rest =>
    let (groups, check) := checkEvent requestDigest groups event
    check.toList ++ requestDigestsFrom requestDigest groups rest

/-- The console's findings over a log. -/
def requestDigests (requestDigest : GenerateRequest → String) (log : List TurnEvent) :
    List DigestCheck :=
  requestDigestsFrom requestDigest (fun _ => none) log

/-- The request an event records for a turn's step calls. -/
def TurnEvent.stepRecord (turnId : TurnId) (event : TurnEvent) : Option RequestRecord :=
  match event.payload with
  | .modelCalled _ id .step _ request _ => if id = turnId then request else none
  | _ => none

/-- Whether an event records a step call of a turn. -/
def TurnEvent.isStepCall (turnId : TurnId) (event : TurnEvent) : Bool :=
  match event.payload with
  | .modelCalled _ id .step _ _ _ => id = turnId
  | _ => false

section Console

variable {requestDigest : GenerateRequest → String} {groups : RequestGroups}
variable {turnId : TurnId} {event : TurnEvent} {log before after : List TurnEvent}
variable {check : DigestCheck}

theorem checkEvent_groups :
    (checkEvent requestDigest groups event).1 (turnId, .step) =
      ((event.stepRecord turnId).toList.map RequestRecord.delta).foldl Delta.onto
        (groups (turnId, .step)) := by
  unfold checkEvent TurnEvent.stepRecord
  cases event.payload with
  | modelCalled conversation id phase recorded request promptTokens =>
    by_cases same : (turnId, ModelPhase.step) = (id, phase)
    · obtain ⟨rfl, rfl⟩ := Prod.mk.inj same
      rcases request with _ | ⟨system, messages, tools, toolChoice, thinking⟩ | appended
      · simp
      · simp [RequestRecord.delta, Delta.onto]
      · cases held : groups (turnId, .step) with
        | none | some => simp [held, RequestRecord.delta, Delta.onto]
    · have kept : ∀ group, Function.update groups (id, phase) group (turnId, .step) =
          groups (turnId, .step) := fun group => Function.update_of_ne same group groups
      have left : (match TurnPayload.modelCalled conversation id phase recorded request
          promptTokens with
          | .modelCalled _ id' .step _ request' _ => if id' = turnId then request' else none
          | _ => none) = none := by
        cases phase with
        | step => exact if_neg fun here => same (by rw [here])
        | synthesis => rfl
      rw [left]
      rcases request with _ | ⟨system, messages, tools, toolChoice, thinking⟩ | appended
      · rfl
      · exact kept _
      · cases held : groups (id, phase) with
        | none => simp [held]
        | some => simpa [held] using kept _
  | luaExecuted | conversationTurn | turnSuperseded | ambientRecallSurfaced | other => rfl

/-- What is rebuilt after some events. -/
def groupsAfter (requestDigest : GenerateRequest → String) (groups : RequestGroups)
    (log : List TurnEvent) : RequestGroups :=
  log.foldl (fun groups event => (checkEvent requestDigest groups event).1) groups

theorem groupsAfter_step :
    groupsAfter requestDigest groups log (turnId, .step) =
      ((log.filterMap (TurnEvent.stepRecord turnId)).map RequestRecord.delta).foldl Delta.onto
        (groups (turnId, .step)) := by
  induction log generalizing groups with
  | nil => rfl
  | cons event rest ih =>
    have first : groupsAfter requestDigest groups (event :: rest) =
        groupsAfter requestDigest (checkEvent requestDigest groups event).1 rest := rfl
    rw [first, ih, checkEvent_groups]
    cases found : event.stepRecord turnId with
    | none | some => simp [found]

theorem mem_requestDigestsFrom :
    check ∈ requestDigestsFrom requestDigest groups log ↔
      ∃ before event after, log = before ++ event :: after ∧
        (checkEvent requestDigest (groupsAfter requestDigest groups before) event).2 = some check := by
  induction log generalizing groups with
  | nil => simp [requestDigestsFrom]
  | cons first rest ih =>
    rw [requestDigestsFrom, List.mem_append, Option.mem_toList, ih]
    constructor
    · rintro (here | ⟨before, event, after, rfl, found⟩)
      · exact ⟨[], first, rest, rfl, here⟩
      · exact ⟨first :: before, event, after, rfl, found⟩
    · rintro ⟨before, event, after, split, found⟩
      cases before with
      | nil =>
        obtain ⟨rfl, rfl⟩ := List.cons.inj split
        exact .inl found
      | cons one more =>
        obtain ⟨rfl, rfl⟩ := List.cons.inj split
        exact .inr ⟨more, event, after, rfl, found⟩

theorem checkEvent_seq (found : (checkEvent requestDigest groups event).2 = some check) :
    check.seq = event.seq := by
  unfold checkEvent at found
  cases payload : event.payload with
  | modelCalled conversation id phase recorded request promptTokens =>
    rw [payload] at found
    rcases request with _ | ⟨system, messages, tools, toolChoice, thinking⟩ | appended
    · cases found
      rfl
    · cases found
      rfl
    · cases held : groups (id, phase) with
      | none | some =>
        simp only [held, Option.some_inj] at found
        rw [← found]
  | luaExecuted | conversationTurn | turnSuperseded | ambientRecallSurfaced | other =>
    rw [payload] at found
    cases found

theorem checkEvent_verified (injective : Function.Injective requestDigest)
    {conversation : ConversationId} {request : GenerateRequest} {record : RequestRecord}
    {promptTokens : Option Nat} (called : event.payload =
      .modelCalled conversation turnId .step (requestDigest request) (some record) promptTokens) :
    (checkEvent requestDigest groups event).2 = some ⟨event.seq, .verified⟩ ↔
      (Delta.onto (groups (turnId, .step)) record.delta).map
        (fun (frame, messages) => requestOf frame messages) = some request := by
  have status : ∀ group, digestStatus requestDigest .step (requestDigest request) group =
      .verified ↔ requestOf group.1 group.2 = request := by
    intro group
    by_cases same : requestOf group.1 group.2 = request
    · simp [digestStatus, same]
    · simp [digestStatus, same, injective.ne same]
  unfold checkEvent
  rw [called]
  cases record with
  | base =>
    simpa [RequestRecord.delta, Delta.onto] using status _
  | continuation =>
    cases held : groups (turnId, .step) with
    | none => simp [held, RequestRecord.delta, Delta.onto]
    | some => simpa [held, RequestRecord.delta, Delta.onto] using status _

end Console

/-! ### What a run sends -/

/-- The call of an act. -/
def LoopAct.call? : LoopAct → Option Call
  | called call => some call
  | nudged | exchanged _ _ | replied _ _ | superseded _ => none

/-- The calls of some acts. -/
def callsOf (acts : List LoopAct) : List Call := acts.filterMap LoopAct.call?

/-- A call as a list of messages sent in a frame. -/
def Call.sent (call : Call) : Delta.Sent RequestFrame Message :=
  ⟨call.request.frame, call.request.messages, call.answer.recorded.isSome⟩

/-- Each call is its step's request and the record of it since the call before; its messages
begin with that call's, and bring nothing new only in the last call. -/
def Sends (formats : Formats) (steps : Steps) : Option (List Message) → List Call → Prop
  | _, [] => True
  | previous, call :: rest =>
    call.request = stepRequest formats steps call.step call.request.messages ∧
      call.record = requestRecord call.request (previous.map List.length) ∧
      (∀ sent, previous = some sent →
        sent <+: call.request.messages ∧ (call.request.messages = sent → rest = [])) ∧
      Sends formats steps (some call.request.messages) rest

section Run

variable {formats : Formats} {steps : Steps} {world : World} {loop after : Loop}
variable {acts : List LoopAct} {stepIndex : Nat} {previous : Option (List Message)}

@[simp] theorem callsOf_cons {act : LoopAct} :
    callsOf (act :: acts) = act.call?.toList ++ callsOf acts := by
  cases found : act.call? with
  | none | some => simp [callsOf, found]

theorem requestRecord_delta {request : GenerateRequest} {sent : Option Nat} :
    (requestRecord request sent).delta = Delta.record request.frame request.messages sent := by
  cases sent with
  | none | some => rfl

theorem callsOf_recordAgentTurn {text : String} {outcome : TurnOutcome} :
    callsOf (recordAgentTurn world text outcome).1 = [] := by
  unfold recordAgentTurn
  cases world.agentTurn with
  | none | some => rfl

theorem afterExchange_calls {calls : List ToolCall} {dispatched : List Dispatched}
    {ended : CallsEnd} :
    callsOf (afterExchange world loop calls dispatched ended).1 = [] := by
  cases ended with
  | done | superseded | failed => rfl
  | skipped => exact @callsOf_recordAgentTurn world "" .silent

theorem afterExchange_next {calls : List ToolCall} {dispatched : List Dispatched}
    {ended : CallsEnd} (next : (afterExchange world loop calls dispatched ended).2 = .next after) :
    after.prevSentLen = loop.prevSentLen ∧ loop.messages <+: after.messages ∧
      after.messages ≠ loop.messages := by
  cases ended with
  | skipped | superseded | failed => cases next
  | done =>
    obtain rfl := StepEnd.next.inj next
    refine ⟨rfl, List.prefix_append _ _, fun same => ?_⟩
    simp [exchangeMessages] at same

theorem afterRetry_calls {completion : Completion} :
    callsOf (afterRetry world completion).1 = [] := by
  cases completion with
  | reply =>
    rw [afterRetry]
    split
    · exact callsOf_recordAgentTurn
    · exact callsOf_recordAgentTurn
  | toolCalls | silent => exact @callsOf_recordAgentTurn world "" .silent

theorem afterReply_calls {answer : StepAnswer} {request : GenerateRequest} {sent : Option Nat}
    {text : String} :
    callsOf (afterReply world stepIndex answer request sent text).1 = [] ∨
      callsOf (afterReply world stepIndex answer request sent text).1 =
        [⟨stepIndex, true, request, requestRecord request sent, answer.retry⟩] := by
  unfold afterReply
  split
  · cases answer.retry.generation with
    | failed | superseded => exact .inl rfl
    | completed completion =>
      right
      change _ :: callsOf (afterRetry world completion).1 = _
      rw [afterRetry_calls]
  · exact .inl callsOf_recordAgentTurn

/-- After a completion, the same request may be sent once more, and then the turn ends; or
another step follows with more messages. -/
theorem afterCompletion_calls {answer : StepAnswer} {request : GenerateRequest}
    {completion : Completion} :
    (callsOf (afterCompletion formats steps world stepIndex answer request loop completion).1 = [] ∨
      callsOf (afterCompletion formats steps world stepIndex answer request loop completion).1 =
        [⟨stepIndex, true, request, requestRecord request loop.prevSentLen, answer.retry⟩]) ∧
      ∀ after, (afterCompletion formats steps world stepIndex answer request loop completion).2 =
          .next after →
        callsOf (afterCompletion formats steps world stepIndex answer request loop
            completion).1 = [] ∧
          after.prevSentLen = loop.prevSentLen ∧ loop.messages <+: after.messages ∧
          after.messages ≠ loop.messages := by
  cases completion with
  | toolCalls calls =>
    exact ⟨.inl afterExchange_calls, fun after next =>
      ⟨afterExchange_calls, afterExchange_next next⟩⟩
  | reply text => exact ⟨afterReply_calls, fun after next => by cases next⟩
  | silent => exact ⟨.inl callsOf_recordAgentTurn, fun after next => by cases next⟩

theorem callsOf_nudges : callsOf (nudges steps stepIndex) = [] := by
  unfold nudges
  split
  · rfl
  · rfl

/-- A step sends the whole list of messages, then perhaps the same again. -/
theorem step_sends (level : loop.prevSentLen = previous.map List.length)
    (grows : ∀ sent, previous = some sent → sent <+: loop.messages ∧ loop.messages ≠ sent) :
    Sends formats steps previous (callsOf (step formats steps world stepIndex loop).1) ∧
      (∀ call ∈ callsOf (step formats steps world stepIndex loop).1, call.step = stepIndex) ∧
      ∀ after, (step formats steps world stepIndex loop).2 = .next after →
        ∃ call, callsOf (step formats steps world stepIndex loop).1 = [call] ∧
          (∀ sent, previous = some sent → call.request.messages ≠ sent) ∧
          after.prevSentLen = some call.request.messages.length ∧
          call.request.messages <+: after.messages ∧ after.messages ≠ call.request.messages := by
  have begins : loop.messages <+: stepMessages steps stepIndex loop := List.prefix_append _ _
  have further : ∀ sent, previous = some sent →
      sent <+: stepMessages steps stepIndex loop ∧ stepMessages steps stepIndex loop ≠ sent := by
    intro sent same
    obtain ⟨prefix_, apart⟩ := grows sent same
    refine ⟨prefix_.trans begins, ?_⟩
    rintro rfl
    exact apart (begins.eq_of_length_le prefix_.length_le)
  rcases step_cases formats steps world stepIndex loop with
    ⟨acts, outcome, taken, nothing⟩ | ⟨completion, _, taken⟩
  · have none : callsOf acts = [] := by
      rcases nothing with rfl | rfl
      · rfl
      · exact callsOf_nudges
    rw [taken]
    dsimp only
    rw [none]
    exact ⟨trivial, by simp, fun after next => by cases next⟩
  · have sends : ∀ rest, (rest = [] ∨ rest = [⟨stepIndex, true,
        (stepCall formats steps world stepIndex loop).request,
        requestRecord (stepCall formats steps world stepIndex loop).request
          (stepSent steps stepIndex loop).prevSentLen, (world.step stepIndex).retry⟩]) →
        Sends formats steps previous (stepCall formats steps world stepIndex loop :: rest) ∧
          ∀ call ∈ stepCall formats steps world stepIndex loop :: rest, call.step = stepIndex := by
      intro rest again
      have first : (stepCall formats steps world stepIndex loop).record = requestRecord
          (stepCall formats steps world stepIndex loop).request (previous.map List.length) := by
        rw [← level]
        rfl
      rcases again with rfl | rfl
      · exact ⟨⟨rfl, first, fun sent same => ⟨(further sent same).1, fun _ => rfl⟩, trivial⟩,
          by simp [stepCall]⟩
      · refine ⟨⟨rfl, first, fun sent same => ⟨(further sent same).1,
          fun level => absurd level (further sent same).2⟩, rfl, rfl, ?_, trivial⟩,
          by simp [stepCall]⟩
        intro sent same
        obtain rfl := Option.some.inj same
        exact ⟨List.prefix_refl _, fun _ => rfl⟩
    have calls : callsOf (step formats steps world stepIndex loop).1 =
        stepCall formats steps world stepIndex loop :: callsOf (afterCompletion formats steps world
          stepIndex (world.step stepIndex) (stepCall formats steps world stepIndex loop).request
          (stepSent steps stepIndex loop) completion).1 := by
      rw [taken, callsOf, List.filterMap_append, ← callsOf, callsOf_nudges]
      rfl
    obtain ⟨again, goesOn⟩ := @afterCompletion_calls formats steps world
      (stepSent steps stepIndex loop) stepIndex (world.step stepIndex)
      (stepCall formats steps world stepIndex loop).request completion
    rw [calls]
    refine ⟨(sends _ again).1, (sends _ again).2, fun after next => ?_⟩
    rw [taken] at next
    obtain ⟨none, same, longer, apart⟩ := goesOn after next
    rw [none]
    exact ⟨_, rfl, fun sent before => (further sent before).2, same, longer, apart⟩

theorem stepsFrom_sends {remaining : Nat} (room : remaining ≤ steps.maxSteps) (level : loop.prevSentLen = previous.map List.length)
    (grows : ∀ sent, previous = some sent → sent <+: loop.messages ∧ loop.messages ≠ sent) :
    Sends formats steps previous (callsOf (stepsFrom formats steps world remaining loop).1) ∧
      (∀ call ∈ callsOf (stepsFrom formats steps world remaining loop).1,
        call.step < steps.maxSteps) ∧
      ∀ first rest, callsOf (stepsFrom formats steps world remaining loop).1 = first :: rest →
        first.step = steps.maxSteps - remaining := by
  induction remaining generalizing loop previous with
  | zero =>
    have none : callsOf (stepsFrom formats steps world 0 loop).1 = [] := callsOf_recordAgentTurn
    rw [none]
    exact ⟨trivial, by simp, fun first rest impossible => by cases impossible⟩
  | succ remaining ih =>
    obtain ⟨sends, own, goesOn⟩ := @step_sends formats steps world loop
      (steps.maxSteps - (remaining + 1)) previous level grows
    rw [stepsFrom]
    cases ended : (step formats steps world (steps.maxSteps - (remaining + 1)) loop).2 with
    | ended =>
      refine ⟨sends, fun call member => ?_, fun first rest same => own first ?_⟩
      · rw [own call member]
        omega
      change callsOf (step formats steps world (steps.maxSteps - (remaining + 1)) loop).1 = _ at same
      rw [same]
      exact List.mem_cons_self
    | next after =>
      obtain ⟨call, calls, apart, sentLen, longer, more⟩ := goesOn after ended
      obtain ⟨rest, inside, _⟩ := @ih after (some call.request.messages) (by omega) sentLen (by
        intro sent same
        obtain rfl := Option.some.inj same
        exact ⟨longer, more⟩)
      have all : callsOf ((step formats steps world (steps.maxSteps - (remaining + 1)) loop).1 ++
          (stepsFrom formats steps world remaining after).1) =
          call :: callsOf (stepsFrom formats steps world remaining after).1 := by
        rw [callsOf, List.filterMap_append, ← callsOf, calls]
        rfl
      rw [calls] at sends own
      dsimp only
      rw [all]
      refine ⟨⟨sends.1, sends.2.1, fun sent same => ⟨(sends.2.2.1 sent same).1, fun level =>
        absurd level (apart sent same)⟩, rest⟩, fun other member => ?_, fun first rest' same => ?_⟩
      · rcases List.mem_cons.mp member with rfl | later
        · rw [own _ List.mem_cons_self]
          omega
        · exact inside other later
      obtain ⟨rfl, _⟩ := List.cons.inj same
      exact own _ List.mem_cons_self

theorem runSteps_sends :
    Sends formats steps none (callsOf (runSteps formats steps world).1) ∧
      (∀ call ∈ callsOf (runSteps formats steps world).1, call.step < steps.maxSteps) ∧
      ∀ first rest, callsOf (runSteps formats steps world).1 = first :: rest → first.step = 0 := by
  have looped := @stepsFrom_sends formats steps world { messages := steps.messages } none
    steps.maxSteps (Nat.le_refl _) rfl (fun sent impossible => by cases impossible)
  rw [Nat.sub_self] at looped
  have same : callsOf (runSteps formats steps world).1 =
      callsOf (stepsFrom formats steps world steps.maxSteps { messages := steps.messages }).1 := by
    rcases leaveSeam_cases world
        (stepsFrom formats steps world steps.maxSteps { messages := steps.messages }) with
      kept | ⟨place, left⟩
    · rw [runSteps, kept]
    · rw [runSteps, left]
      simp [callsOf, LoopAct.call?]
  rw [same]
  exact looped

/-! ### Which requests come back -/

/-- The call kept the tools it could call, or none of its turn did. -/
def Call.KeepsTools (steps : Steps) (call : Call) : Prop :=
  ¬ (2 ≤ steps.maxSteps ∧ call.step + 1 = steps.maxSteps)

/-- The records the log took of some calls. -/
def recordedOf (calls : List Call) : List RequestRecord :=
  (calls.filter fun call => call.answer.recorded.isSome).map Call.record

theorem recordedOf_delta {calls : List Call} (sends : Sends formats steps previous calls) :
    (recordedOf calls).map RequestRecord.delta =
      Delta.records (previous.map List.length) (calls.map Call.sent) := by
  induction calls generalizing previous with
  | nil => rfl
  | cons call rest ih =>
    obtain ⟨_, record, _, further⟩ := sends
    have tail := ih further
    have parts : Delta.records (previous.map List.length) ((call :: rest).map Call.sent) =
        (if call.answer.recorded.isSome then
          [Delta.record call.request.frame call.request.messages (previous.map List.length)]
        else []) ++ Delta.records (some call.request.messages.length) (rest.map Call.sent) := rfl
    rw [Option.map_some] at tail
    rw [parts, ← tail]
    cases kept : call.answer.recorded.isSome with
    | true => simp [recordedOf, kept, record, requestRecord_delta]
    | false => simp [recordedOf, kept]

theorem sends_grows {first : Call} {rest : List Call}
    (sends : Sends formats steps (some first.request.messages) rest) :
    Delta.Grows first.request.messages (rest.map Call.sent) := by
  induction rest generalizing first with
  | nil => trivial
  | cons call rest ih => exact ⟨(sends.2.2.1 _ rfl).1, ih sends.2.2.2⟩

theorem sends_own {calls : List Call} (sends : Sends formats steps previous calls) {call : Call}
    (member : call ∈ calls) :
    call.request = stepRequest formats steps call.step call.request.messages := by
  induction calls generalizing previous with
  | nil => cases member
  | cons first rest ih =>
    rcases List.mem_cons.mp member with rfl | later
    · exact sends.1
    · exact ih sends.2.2.2 later

theorem Sends.of_append {calls more : List Call}
    (sends : Sends formats steps previous (calls ++ more)) : Sends formats steps previous calls := by
  induction calls generalizing previous with
  | nil => trivial
  | cons call rest ih =>
    refine ⟨sends.1, sends.2.1, fun sent same => ⟨(sends.2.2.1 sent same).1, fun level => ?_⟩,
      ih sends.2.2.2⟩
    exact (List.append_eq_nil_iff.mp ((sends.2.2.1 sent same).2 level)).1

theorem unbroken_iff {items : List Message} {middle : List Call} {call : Call}
    (sends : Sends formats steps (some items) (middle ++ [call]))
    (recorded : call.answer.recorded.isSome = true) :
    Delta.Unbroken items ((middle ++ [call]).map Call.sent) ↔
      ∀ other ∈ middle, other.answer.recorded.isSome = true := by
  induction middle generalizing items with
  | nil => simp [Delta.Unbroken, Call.sent, recorded]
  | cons one rest ih =>
    have parts : Delta.Unbroken items ((one :: rest ++ [call]).map Call.sent) ↔
        (one.answer.recorded.isSome = true ∨ one.request.messages = items) ∧
          Delta.Unbroken one.request.messages ((rest ++ [call]).map Call.sent) := Iff.rfl
    have new : one.request.messages ≠ items := fun level => by
      simpa using (sends.2.2.1 items rfl).2 level
    rw [parts, ih sends.2.2.2, List.forall_mem_cons]
    simp [new]

theorem latest_sent {items : List Message} {middle : List Call} {call : Call} :
    Delta.latest items ((middle ++ [call]).map Call.sent) = call.request.messages := by
  induction middle generalizing items with
  | nil => rfl
  | cons one rest ih => exact ih

theorem requestOf_eq_iff {frame : RequestFrame} {messages : List Message}
    {request : GenerateRequest} (plain : request.responseFormat = none) :
    requestOf frame messages = request ↔ (frame, messages) = (request.frame, request.messages) := by
  cases frame
  cases request
  cases plain
  simp [requestOf, GenerateRequest.frame]
  tauto

theorem frame_eq_iff {call first : Call}
    (own : call.request = stepRequest formats steps call.step call.request.messages)
    (firstOwn : first.request = stepRequest formats steps first.step first.request.messages)
    (begins : first.step = 0) (inside : call.step < steps.maxSteps) :
    call.request.frame = first.request.frame ↔ call.KeepsTools steps := by
  rw [own, firstOwn, begins]
  simp only [GenerateRequest.frame, stepRequest, RequestFrame.mk.injEq, true_and, and_true]
  unfold Call.KeepsTools
  by_cases last : call.step + 1 = steps.maxSteps
  · by_cases single : 0 + 1 = steps.maxSteps
    · simp [last, single]
      omega
    · simp [last, single]
      omega
  · by_cases single : 0 + 1 = steps.maxSteps
    · exfalso
      omega
    · simp [last, single]

theorem rebuiltRequest_iff {earlier later : List Call} {call : Call}
    (run : callsOf (runSteps formats steps world).1 = earlier ++ call :: later)
    (recorded : call.answer.recorded.isSome = true) :
    rebuiltRequest (recordedOf (earlier ++ [call])) = some call.request ↔
      (∀ other ∈ earlier, other.answer.recorded.isSome = true) ∧ call.KeepsTools steps := by
  obtain ⟨sends, inside, begins⟩ := @runSteps_sends formats steps world
  rw [run] at sends inside begins
  have own : call.request = stepRequest formats steps call.step call.request.messages :=
    @sends_own formats steps none _ sends call (by simp)
  rw [List.append_cons] at sends
  have sent := sends.of_append
  have whole : rebuiltRequest (recordedOf (earlier ++ [call])) = some call.request ↔
      Delta.rebuild (Delta.records none ((earlier ++ [call]).map Call.sent)) =
        some (call.request.frame, call.request.messages) := by
    have plain : call.request.responseFormat = none := by
      rw [own]
      rfl
    have deltas := recordedOf_delta sent
    rw [Option.map_none] at deltas
    rw [rebuiltRequest, deltas]
    cases Delta.rebuild (Delta.records none ((earlier ++ [call]).map Call.sent)) with
    | none => exact iff_of_false (by simp) (by simp)
    | some =>
      rw [Option.map_some, Option.some_inj, Option.some_inj]
      exact requestOf_eq_iff plain
  rw [whole]
  cases earlier with
  | nil =>
    have grows : @Delta.Grows RequestFrame _ call.sent.items [] := trivial
    have same := begins call later rfl
    have keeps := frame_eq_iff own own same (inside call (by simp))
    have read := @Delta.rebuild_records _ _ call.request.frame [] call.sent grows
    rw [List.nil_append, List.map_singleton]
    refine read.trans ?_
    simp [Call.sent, Delta.Unbroken, recorded, ← keeps]
  | cons first middle =>
    have firstOwn := sent.1
    have further : Sends formats steps (some first.request.messages) (middle ++ [call]) :=
      sent.2.2.2
    have keeps := frame_eq_iff own firstOwn (begins first _ rfl) (inside call (by simp))
    have read := @Delta.rebuild_records _ _ call.request.frame _ first.sent (sends_grows further)
    have last : Delta.latest first.sent.items ((middle ++ [call]).map Call.sent) =
        call.request.messages := latest_sent
    rw [last] at read
    rw [List.cons_append, List.map_cons, read, List.forall_mem_cons, ← keeps]
    have lost := unbroken_iff further recorded
    change _ ∧ first.answer.recorded.isSome = true ∧
      Delta.Unbroken first.request.messages ((middle ++ [call]).map Call.sent) ↔ _
    rw [lost]
    constructor
    · rintro ⟨frame, kept, others⟩
      exact ⟨⟨kept, others⟩, frame⟩
    · rintro ⟨⟨kept, others⟩, frame⟩
      exact ⟨frame, kept, others⟩

/-! ### What the console finds -/

theorem filterMap_stepRecord {turnId : TurnId} {log : List TurnEvent} :
    (log.filter (TurnEvent.isStepCall turnId)).filterMap (TurnEvent.stepRecord turnId) =
      log.filterMap (TurnEvent.stepRecord turnId) := by
  have unread : ∀ event : TurnEvent, event.isStepCall turnId = false →
      event.stepRecord turnId = none := by
    intro event other
    unfold TurnEvent.isStepCall at other
    unfold TurnEvent.stepRecord
    cases payload : event.payload with
    | modelCalled conversation id phase recorded request promptTokens =>
      cases phase with
      | step =>
        rw [payload] at other
        exact if_neg (of_decide_eq_false other)
      | synthesis => rfl
    | luaExecuted | conversationTurn | turnSuperseded | ambientRecallSurfaced | other => rfl
  induction log with
  | nil => rfl
  | cons event rest ih =>
    cases own : event.isStepCall turnId with
    | true => simp [own, List.filterMap_cons, ih]
    | false => simp [own, unread event own, ih]

theorem filter_isStepCall {acts : List LoopAct} :
    (acts.flatMap (LoopAct.events formats steps)).filter (TurnEvent.isStepCall steps.turnId) =
      (callsOf acts).filterMap (Call.event formats steps) := by
  induction acts with
  | nil => rfl
  | cons act rest ih =>
    rw [List.flatMap_cons, List.filter_append, ih]
    cases act with
    | called call =>
      cases recorded : call.answer.recorded with
      | none => simp [LoopAct.events, LoopAct.call?, Call.event, recorded]
      | some => simp [LoopAct.events, LoopAct.call?, Call.event, recorded, TurnEvent.isStepCall]
    | exchanged calls dispatched =>
      have none : (dispatched.flatMap fun one => one.block.toList.flatMap
          (Executed.events steps)).filter (TurnEvent.isStepCall steps.turnId) = [] := by
        refine List.filter_eq_nil_iff.mpr fun event member => ?_
        obtain ⟨one, _, within⟩ := List.mem_flatMap.mp member
        obtain ⟨block, _, among⟩ := List.mem_flatMap.mp within
        rcases List.mem_append.mp among with effect | last
        · obtain ⟨place, _, rfl⟩ := List.mem_map.mp effect
          exact Bool.false_ne_true
        · rw [List.mem_singleton.mp last]
          exact Bool.false_ne_true
      simp [LoopAct.events, LoopAct.call?, none]
    | nudged | replied | superseded => simp [LoopAct.events, LoopAct.call?, TurnEvent.isStepCall]

theorem Ordered.split_unique {first first' rest rest' : List TurnEvent} {event event' : TurnEvent}
    (ordered : Ordered (first ++ event :: rest)) (split : first ++ event :: rest =
      first' ++ event' :: rest') (same : event.seq = event'.seq) : first = first' ∧ event = event' := by
  induction first generalizing first' with
  | nil =>
    cases first' with
    | nil => exact ⟨rfl, (List.cons.inj split).1⟩
    | cons =>
      exfalso
      obtain ⟨rfl, rfl⟩ := List.cons.inj split
      have less := (List.pairwise_cons.mp ordered).1 event' (by simp)
      omega
  | cons one more ih =>
    cases first' with
    | nil =>
      exfalso
      obtain ⟨rfl, rfl⟩ := List.cons.inj split
      have less := (List.pairwise_cons.mp ordered).1 event (by simp)
      omega
    | cons =>
      obtain ⟨rfl, rest_⟩ := List.cons.inj split
      obtain ⟨rfl, rfl⟩ := ih (List.pairwise_cons.mp ordered).2 rest_
      exact ⟨rfl, rfl⟩

theorem filterMap_event_stepRecord {calls : List Call} :
    (calls.filterMap (Call.event formats steps)).filterMap (TurnEvent.stepRecord steps.turnId) =
      recordedOf calls := by
  induction calls with
  | nil => rfl
  | cons call rest ih =>
    cases recorded : call.answer.recorded with
    | none => simpa [Call.event, recordedOf, recorded] using ih
    | some => simpa [Call.event, recordedOf, recorded, TurnEvent.stepRecord] using ih

theorem verified_iff_rebuilt (injective : Function.Injective formats.requestDigest)
    {log : List TurnEvent} (ordered : Ordered log)
    (own : log.filter (TurnEvent.isStepCall steps.turnId) =
      ((runSteps formats steps world).1.flatMap (LoopAct.events formats steps)).filter
        (TurnEvent.isStepCall steps.turnId))
    {earlier later : List Call} {call : Call} {place : Place}
    (run : callsOf (runSteps formats steps world).1 = earlier ++ call :: later)
    (recorded : call.answer.recorded = some place) :
    ⟨place.seq, .verified⟩ ∈ requestDigests formats.requestDigest log ↔
      rebuiltRequest (recordedOf (earlier ++ [call])) = some call.request := by
  generalize event_def : (⟨place.seq, place.recordedAt, .modelCalled steps.conversation
    steps.turnId .step (formats.requestDigest call.request) (some call.record)
    call.answer.promptTokens⟩ : TurnEvent) = event
  have found : call.event formats steps = some event := by
    rw [Call.event, recorded, Option.map_some, event_def]
  have at_ : event.seq = place.seq := by rw [← event_def]
  rw [filter_isStepCall, run, List.filterMap_append, List.filterMap_cons, found] at own
  obtain ⟨before, rest, rfl, ownBefore, ownRest⟩ := List.filter_eq_append_iff.mp own
  obtain ⟨gap, after, rfl, nothing, _, _⟩ := List.filter_eq_cons_iff.mp ownRest
  rw [← List.append_assoc] at ordered ⊢
  -- what the console has rebuilt when it comes to the call
  have before_ : (before ++ gap).filterMap (TurnEvent.stepRecord steps.turnId) =
      recordedOf earlier := by
    rw [← filterMap_stepRecord, List.filter_append, ownBefore,
      List.filter_eq_nil_iff.mpr (fun event member => by simpa using nothing event member),
      List.append_nil, filterMap_event_stepRecord]
  have group := @groupsAfter_step formats.requestDigest (fun _ => none) steps.turnId (before ++ gap)
  rw [before_] at group
  have kept : recordedOf (earlier ++ [call]) = recordedOf earlier ++ [call.record] := by
    simp [recordedOf, recorded]
  have check := @checkEvent_verified formats.requestDigest
    (groupsAfter formats.requestDigest (fun _ => none) (before ++ gap)) steps.turnId event injective
    steps.conversation call.request call.record call.answer.promptTokens (by rw [← event_def])
  rw [rebuiltRequest, kept, List.map_append, Delta.rebuild, List.foldl_append, ← group]
  refine Iff.trans ?_ check
  rw [requestDigests, mem_requestDigestsFrom, at_]
  constructor
  · rintro ⟨others, other, more, split, found⟩
    obtain ⟨rfl, rfl⟩ := ordered.split_unique split (at_.trans (checkEvent_seq found))
    exact found
  · intro found
    exact ⟨before ++ gap, event, after, rfl, found⟩

/-- In such a log a recorded call is rebuilt, and verified, exactly when no record before it was
lost and it kept the tools. -/
theorem verified_iff (injective : Function.Injective formats.requestDigest)
    {log : List TurnEvent} (ordered : Ordered log)
    (own : log.filter (TurnEvent.isStepCall steps.turnId) =
      ((runSteps formats steps world).1.flatMap (LoopAct.events formats steps)).filter
        (TurnEvent.isStepCall steps.turnId))
    {earlier later : List Call} {call : Call} {place : Place}
    (run : callsOf (runSteps formats steps world).1 = earlier ++ call :: later)
    (recorded : call.answer.recorded = some place) :
    (rebuiltRequest (recordedOf (earlier ++ [call])) = some call.request ↔
        (∀ other ∈ earlier, other.answer.recorded.isSome = true) ∧ call.KeepsTools steps) ∧
      (⟨place.seq, .verified⟩ ∈ requestDigests formats.requestDigest log ↔
        (∀ other ∈ earlier, other.answer.recorded.isSome = true) ∧ call.KeepsTools steps) := by
  have rebuilt := rebuiltRequest_iff run (by rw [recorded]; rfl)
  exact ⟨rebuilt, (verified_iff_rebuilt injective ordered own run recorded).trans rebuilt⟩

end Run

/-! ### A turn of two steps -/

instance countableChar : Countable Char :=
  Function.Injective.countable fun _ _ same => Char.ext (UInt32.toNat.inj same)

instance countableString : Countable String :=
  Function.Injective.countable fun _ _ same => String.ext same

deriving instance Countable for Role
deriving instance Countable for ImagePart
deriving instance Countable for ToolCall
deriving instance Countable for Message
deriving instance Countable for ToolSpec
deriving instance Countable for ToolChoice
deriving instance Countable for GenerateRequest

theorem exists_digest : ∃ requestDigest : GenerateRequest → String,
    Function.Injective requestDigest := by
  obtain ⟨number, injective⟩ := Countable.exists_injective_nat GenerateRequest
  refine ⟨fun request => String.ofList (List.replicate (number request) 'a'), fun first second same => ?_⟩
  have lengths := congrArg List.length (String.ofList_injective same)
  rw [List.length_replicate, List.length_replicate] at lengths
  exact injective lengths

namespace TwoSteps

def formats (requestDigest : GenerateRequest → String) : Formats where
  ulid turnId := toString turnId.ulid
  quoted name := "\"" ++ name ++ "\""
  parseScript _ := .ok "x"
  scriptArguments script := script
  runLuaSchema := ""
  requestDigest := requestDigest

def steps : Steps where
  conversation := ⟨1⟩
  turnId := ⟨1⟩
  system := "be kind"
  messages := [.user "why"]
  provenance := none
  maxSteps := 2

def world : World where
  step
    | 0 =>
      { call := ⟨.completed (.toolCalls [⟨"a", "run_lua", "x"⟩]), some 10, some ⟨1, ⟨0⟩⟩⟩
        block := fun _ => { outcome := some (.committed "noted"), place := ⟨2, ⟨0⟩⟩ }
        retry := ⟨.failed, none, none⟩ }
    | _ =>
      { call := ⟨.completed (.reply "because"), some 10, some ⟨3, ⟨0⟩⟩⟩
        block := fun _ => { outcome := none, place := ⟨0, ⟨0⟩⟩ }
        retry := ⟨.failed, none, none⟩ }
  agentTurn := some ⟨4, ⟨0⟩⟩
  superseded := none

/-- The log of the run. -/
def log (requestDigest : GenerateRequest → String) : List TurnEvent :=
  (runSteps (formats requestDigest) steps world).1.flatMap
    (LoopAct.events (formats requestDigest) steps)

theorem ordered (requestDigest : GenerateRequest → String) : Ordered (log requestDigest) := by
  have seqs : (log requestDigest).map TurnEvent.seq = [1, 2, 3, 4] := rfl
  exact List.pairwise_map.mp (seqs ▸ by decide : ((log requestDigest).map TurnEvent.seq).Pairwise (· < ·))

/-- The last call withdraws the tools, and its record does not say so. -/
theorem withdrawn_not_verified : ∃ (requestDigest : GenerateRequest → String) (first last : Call),
    Function.Injective requestDigest ∧ Ordered (log requestDigest) ∧
      callsOf (runSteps (formats requestDigest) steps world).1 = [first, last] ∧
      first.answer.recorded = some ⟨1, ⟨0⟩⟩ ∧ last.answer.recorded = some ⟨3, ⟨0⟩⟩ ∧
      rebuiltRequest (recordedOf [first, last]) ≠ some last.request ∧
      ⟨3, .verified⟩ ∉ requestDigests requestDigest (log requestDigest) := by
  obtain ⟨requestDigest, injective⟩ := exists_digest
  have other : ∀ first last, callsOf (runSteps (formats requestDigest) steps world).1 =
      [first, last] → last.answer.recorded = some ⟨3, ⟨0⟩⟩ → last.step = 1 →
      rebuiltRequest (recordedOf [first, last]) ≠ some last.request := by
    intro first last run recorded step rebuilt
    have kept := (@rebuiltRequest_iff _ _ _ [first] [] last run (by rw [recorded]; rfl)).mp rebuilt
    exact kept.2 ⟨Nat.le_refl 2, congrArg (· + 1) step⟩
  refine ⟨requestDigest, _, _, injective, ordered _, rfl, rfl, rfl, other _ _ rfl rfl rfl, ?_⟩
  intro verified
  exact other _ _ rfl rfl rfl ((@verified_iff_rebuilt (formats requestDigest) steps world injective
    _ (ordered requestDigest) rfl [_] [] _ ⟨3, ⟨0⟩⟩ rfl rfl).mp verified)

/-- The first call is rebuilt and verified. -/
theorem first_verified : ∃ requestDigest : GenerateRequest → String,
    ⟨1, .verified⟩ ∈ requestDigests requestDigest (log requestDigest) := by
  obtain ⟨requestDigest, injective⟩ := exists_digest
  refine ⟨requestDigest, (@verified_iff (formats requestDigest) steps world injective _
    (ordered requestDigest) rfl [] [_] _ ⟨1, ⟨0⟩⟩ rfl rfl).2.mpr ⟨by simp, fun last => ?_⟩⟩
  exact absurd last.2 (show ¬ 0 + 1 = 2 by decide)

end TwoSteps

end Zuihitsu.Turn
