/-
# The step loop

A turn asks the model, runs the blocks it calls for and feeds their results back,
until it answers, falls silent, skips or runs out of steps. Everything outside the
loop is an answer to it: how each call ends, what each block does, whether a newer
batch has overtaken the turn, and where each append lands in the log. What the loop
does on the way is kept as a list of acts, and the events it records are read off
them.
-/

import Mathlib.Data.List.Infix
import Zuihitsu.Turn.Buffer

namespace Zuihitsu.Turn

open Zuihitsu.Core

/-! ### What the loop is given, and what it is answered -/

/-- What the loop uses of the formatter, of the JSON library and of the digest. -/
structure Formats where
  ulid : TurnId → String
  quoted : String → String
  parseScript : String → Except String String
  scriptArguments : String → String
  runLuaSchema : String
  requestDigest : GenerateRequest → String

/-- What a turn hands to the loop. -/
structure Steps where
  conversation : ConversationId
  turnId : TurnId
  system : String
  messages : List Message
  provenance : Option ProducedBy
  maxSteps : Nat

/-- Where in the log an append lands, and when. -/
structure Place where
  seq : Nat
  recordedAt : Timestamp
  deriving DecidableEq, Repr

/-- How a streamed call ends. -/
inductive Generation where
  | completed (completion : Completion)
  | superseded
  | failed
  deriving DecidableEq, Repr

/-- What the outside answers a call with. The record of the call is kept as far as the log
takes it. -/
structure CallAnswer where
  generation : Generation
  promptTokens : Option Nat := none
  recorded : Option Place := none

/-- How a block ends. -/
inductive BlockOutcome where
  | committed (result : String)
  | terminated (cause : TerminalCause)
  | skipped (reason : Option String)
  deriving DecidableEq, Repr

/-- What the outside answers a block with, nothing where the block fails outside the script,
and whether the turn is overtaken by then. -/
structure BlockAnswer where
  outcome : Option BlockOutcome
  effects : List Place := []
  place : Place
  overtaken : Bool := false

/-- What the outside answers in one step. -/
structure StepAnswer where
  overtaken : Bool := false
  call : CallAnswer
  block : Nat → BlockAnswer
  retry : CallAnswer

/-- The outside of a loop: its answers in each step, and where the loop's last event lands. -/
structure World where
  step : Nat → StepAnswer
  agentTurn : Option Place
  superseded : Option Place

/-- How a turn ends. -/
inductive TurnOutcome where
  | reply (text : String)
  | silent
  | maxStepsExceeded
  | superseded
  deriving DecidableEq, Repr

/-! ### What the loop does -/

/-- A call the loop sent. -/
structure Call where
  step : Nat
  resampled : Bool
  request : GenerateRequest
  record : RequestRecord
  answer : CallAnswer

/-- A block that ran, and its events' places. -/
structure Executed where
  script : String
  outcome : BlockOutcome
  effects : List Place
  place : Place
  deriving DecidableEq, Repr

/-- A tool call the loop dispatched, with the block it ran and the result it fed back. -/
structure Dispatched where
  call : ToolCall
  block : Option Executed
  result : Option String
  deriving DecidableEq, Repr

/-- What the loop does. -/
inductive LoopAct where
  | nudged
  | called (call : Call)
  | exchanged (calls : List ToolCall) (dispatched : List Dispatched)
  | replied (text : String) (place : Place)
  | superseded (place : Place)

/-- The tool the loop offers. -/
def Formats.runLuaTool (formats : Formats) : ToolSpec where
  name := "run_lua"
  description := "Execute a Luau block (Lua with string interpolation: `like \x7bthis\x7d`) against " ++
    "your memory; returns the value of its final expression."
  parameters := formats.runLuaSchema

/-- The id of a turn's call, by its place among the turn's calls. -/
def Formats.toolCallId (formats : Formats) (turnId : TurnId) (index : Nat) : String :=
  "call_" ++ formats.ulid turnId ++ "_" ++ toString index

/-- The message that asks the model to wrap up. -/
def wrapUpNudge : Message :=
  .system "two steps remain in this turn — finish gathering and answer with what you have."

/-- What a superseded turn leaves for its successor. -/
def supersededHint : String :=
  "The reply being composed to the conversation above was superseded by the newest message " ++
  "before anything was sent — the earlier request has not been answered. Answer the outstanding " ++
  "messages as one reply; work already recorded above stands."

/-- Whether a reply leaks the markup of a chat template. -/
def replyLeaksSpecialTokens (text : String) : Bool :=
  ['<', '|'] <:+: text.toList || ['|', '>'] <:+: text.toList

/-- The record of a request, where a list of the given length was sent before. -/
def requestRecord (request : GenerateRequest) : Option Nat → RequestRecord
  | none =>
    .base request.system request.messages request.tools request.toolChoice request.thinking
  | some sent => .continuation (request.messages.drop sent)

/-- What the model sees of a block's end, or nothing when the block skips the turn. -/
def BlockOutcome.result (quoted : String → String) : BlockOutcome → Option String
  | committed result => some result
  | terminated (.error message) => some ((ToolError.blockError message).display quoted)
  | terminated (.aborted reason) => some ((ToolError.blockAborted reason).display quoted)
  | terminated (.skipped _) | skipped _ => none

/-- Whether a block ends by skipping the turn. -/
def BlockOutcome.skips : BlockOutcome → Bool
  | terminated (.skipped _) | skipped _ => true
  | committed _ | terminated (.error _) | terminated (.aborted _) => false

theorem BlockOutcome.result_isSome {quoted : String → String} {outcome : BlockOutcome} :
    (outcome.result quoted).isSome = !outcome.skips := by
  rcases outcome with committed | (message | reason | reason) | reason
  · rfl
  · rfl
  · rfl
  · rfl
  · rfl

/-- The result of a block its event records. -/
def BlockOutcome.recordedResult : BlockOutcome → Option String
  | committed result => some result
  | terminated _ | skipped _ => none

/-- The end of a block its event records. -/
def BlockOutcome.terminalCause : BlockOutcome → Option TerminalCause
  | committed _ => none
  | terminated cause => some cause
  | skipped reason => some (.skipped reason)

/-- Run one tool call: nothing where its block fails outside the script. -/
def runToolCall (formats : Formats) (call : ToolCall) (answer : BlockAnswer) : Option Dispatched :=
  if call.name ≠ "run_lua" then
    some ⟨call, none, some ((ToolError.unknownTool call.name).display formats.quoted)⟩
  else
    match formats.parseScript call.arguments with
    | .error message =>
      some ⟨call, none, some ((ToolError.invalidArguments message).display formats.quoted)⟩
    | .ok script =>
      answer.outcome.map fun outcome =>
        ⟨call, some ⟨script, outcome, answer.effects, answer.place⟩, outcome.result formats.quoted⟩

/-- How the calls of one completion end. -/
inductive CallsEnd where
  | done
  | skipped
  | superseded
  | failed
  deriving DecidableEq, Repr

/-- Run the calls of one completion in order, until one skips the turn, fails, or the turn is
overtaken after it. -/
def runToolCalls (formats : Formats) (block : Nat → BlockAnswer) :
    Nat → List ToolCall → List Dispatched × CallsEnd
  | _, [] => ([], .done)
  | index, call :: rest =>
    match runToolCall formats call (block index) with
    | none => ([], .failed)
    | some one =>
      match one.result with
      | none => ([one], .skipped)
      | some _ =>
        if (block index).overtaken then ([one], .superseded)
        else
          let (more, ended) := runToolCalls formats block (index + 1) rest
          (one :: more, ended)

/-- The message that feeds a call's result back. -/
def Dispatched.message (dispatched : Dispatched) : Option Message :=
  dispatched.result.map (Message.toolResult dispatched.call.id)

/-- The messages of one exchange: the assistant's calls, and the results fed back. -/
def exchangeMessages (calls : List ToolCall) (dispatched : List Dispatched) : List Message :=
  .assistantToolCalls calls :: dispatched.filterMap Dispatched.message

/-- What the loop carries from step to step. -/
structure Loop where
  messages : List Message
  blocks : Nat := 0
  prevSentLen : Option Nat := none

/-- How a step ends: with another one, or with the turn. -/
inductive StepEnd where
  | next (loop : Loop)
  | ended (outcome : Option TurnOutcome)

section Loop

variable (formats : Formats) (steps : Steps) (world : World)

/-- The request of a step. -/
def stepRequest (stepIndex : Nat) (messages : List Message) : GenerateRequest where
  system := steps.system
  messages := messages
  tools := [formats.runLuaTool]
  toolChoice := if stepIndex + 1 = steps.maxSteps then .none else .auto
  responseFormat := none
  thinking := none

/-- Record the agent's turn, and end with an outcome. -/
def recordAgentTurn (text : String) (outcome : TurnOutcome) : List LoopAct × Option TurnOutcome :=
  match world.agentTurn with
  | none => ([], none)
  | some place => ([.replied text place], some outcome)

/-- The model's ids are replaced by the deterministic ones. -/
def normalized (blocks : Nat) (calls : List ToolCall) : List ToolCall :=
  calls.mapIdx fun index call => { call with id := formats.toolCallId steps.turnId (blocks + index) }

/-- What follows an exchange. -/
def afterExchange (loop : Loop) (calls : List ToolCall) (dispatched : List Dispatched) :
    CallsEnd → List LoopAct × StepEnd
  | .failed => ([.exchanged calls dispatched], .ended none)
  | .superseded => ([.exchanged calls dispatched], .ended (some .superseded))
  | .skipped =>
    let closed := recordAgentTurn world "" .silent
    (.exchanged calls dispatched :: closed.1, .ended closed.2)
  | .done =>
    ([.exchanged calls dispatched], .next
      { loop with
        messages := loop.messages ++ exchangeMessages calls dispatched
        blocks := loop.blocks + dispatched.length })

/-- Answer a completion with tool calls. -/
def afterToolCalls (answer : StepAnswer) (loop : Loop) (calls : List ToolCall) :
    List LoopAct × StepEnd :=
  let calls := normalized formats steps loop.blocks calls
  let ran := runToolCalls formats answer.block 0 calls
  afterExchange world loop calls ran.1 ran.2

/-- Answer the resampled completion: only a clean reply is delivered. -/
def afterRetry : Completion → List LoopAct × Option TurnOutcome
  | .reply text =>
    if replyLeaksSpecialTokens text then recordAgentTurn world "" .silent
    else recordAgentTurn world text (.reply text)
  | .toolCalls _ | .silent => recordAgentTurn world "" .silent

/-- Answer a reply, asking once more when it leaks markup. -/
def afterReply (stepIndex : Nat) (answer : StepAnswer) (request : GenerateRequest)
    (prevSentLen : Option Nat) (text : String) : List LoopAct × Option TurnOutcome :=
  if replyLeaksSpecialTokens text then
    match answer.retry.generation with
    | .failed => ([], none)
    | .superseded => ([], some .superseded)
    | .completed completion =>
      let retry : Call :=
        { step := stepIndex, resampled := true, request, answer := answer.retry
          record := requestRecord request prevSentLen }
      let closed := afterRetry world completion
      (.called retry :: closed.1, closed.2)
  else recordAgentTurn world text (.reply text)

/-- Answer a completion. -/
def afterCompletion (stepIndex : Nat) (answer : StepAnswer) (request : GenerateRequest)
    (loop : Loop) : Completion → List LoopAct × StepEnd
  | .toolCalls calls => afterToolCalls formats steps world answer loop calls
  | .reply text =>
    let closed := afterReply world stepIndex answer request loop.prevSentLen text
    (closed.1, .ended closed.2)
  | .silent =>
    let closed := recordAgentTurn world "" .silent
    (closed.1, .ended closed.2)

/-- Two steps before the last the model is asked to wrap up. -/
def nudges (stepIndex : Nat) : List LoopAct :=
  if 2 ≤ steps.maxSteps ∧ stepIndex = steps.maxSteps - 2 then [.nudged] else []

/-- What an act says in the messages, the nudge included. -/
def LoopAct.messages : LoopAct → List Message
  | nudged => [wrapUpNudge]
  | exchanged calls dispatched => exchangeMessages calls dispatched
  | called _ | replied _ _ | superseded _ => []

/-- The messages a step sends. -/
def stepMessages (stepIndex : Nat) (loop : Loop) : List Message :=
  loop.messages ++ (nudges steps stepIndex).flatMap LoopAct.messages

/-- The call of a step. -/
def stepCall (stepIndex : Nat) (loop : Loop) : Call :=
  let request := stepRequest formats steps stepIndex (stepMessages steps stepIndex loop)
  { step := stepIndex, resampled := false, request
    record := requestRecord request loop.prevSentLen, answer := (world.step stepIndex).call }

/-- What the loop carries once a step has sent its call. -/
def stepSent (stepIndex : Nat) (loop : Loop) : Loop :=
  { loop with
    messages := stepMessages steps stepIndex loop
    prevSentLen := some (stepMessages steps stepIndex loop).length }

/-- One step of the loop. -/
def step (stepIndex : Nat) (loop : Loop) : List LoopAct × StepEnd :=
  if (world.step stepIndex).overtaken then ([], .ended (some .superseded))
  else
    match (world.step stepIndex).call.generation with
    | .failed => (nudges steps stepIndex, .ended none)
    | .superseded => (nudges steps stepIndex, .ended (some .superseded))
    | .completed completion =>
      let call := stepCall formats steps world stepIndex loop
      let closed := afterCompletion formats steps world stepIndex (world.step stepIndex)
        call.request (stepSent steps stepIndex loop) completion
      (nudges steps stepIndex ++ .called call :: closed.1, closed.2)

/-- A step is cut off before its call ends, or answers the completion it gets. -/
theorem step_cases (stepIndex : Nat) (loop : Loop) :
    (∃ acts outcome, step formats steps world stepIndex loop = (acts, .ended outcome) ∧
        (acts = [] ∨ acts = nudges steps stepIndex)) ∨
      ∃ completion, (world.step stepIndex).call.generation = .completed completion ∧
        step formats steps world stepIndex loop =
          (nudges steps stepIndex ++ .called (stepCall formats steps world stepIndex loop) ::
              (afterCompletion formats steps world stepIndex (world.step stepIndex)
                (stepCall formats steps world stepIndex loop).request
                (stepSent steps stepIndex loop) completion).1,
            (afterCompletion formats steps world stepIndex (world.step stepIndex)
              (stepCall formats steps world stepIndex loop).request
              (stepSent steps stepIndex loop) completion).2) := by
  unfold step
  split
  · exact .inl ⟨_, _, rfl, .inl rfl⟩
  · cases ended : (world.step stepIndex).call.generation with
    | failed | superseded => exact .inl ⟨_, _, rfl, .inr rfl⟩
    | completed completion => exact .inr ⟨completion, rfl, rfl⟩

/-- The steps that remain. -/
def stepsFrom : Nat → Loop → List LoopAct × Option TurnOutcome
  | 0, _ =>
    recordAgentTurn world
      ("max steps (" ++ toString steps.maxSteps ++ ") reached without a reply") .maxStepsExceeded
  | remaining + 1, loop =>
    let taken := step formats steps world (steps.maxSteps - (remaining + 1)) loop
    match taken.2 with
    | .ended outcome => (taken.1, outcome)
    | .next loop =>
      let rest := stepsFrom remaining loop
      (taken.1 ++ rest.1, rest.2)

/-- A superseded turn leaves its seam behind. -/
def leaveSeam (looped : List LoopAct × Option TurnOutcome) : List LoopAct × Option TurnOutcome :=
  if looped.2 = some .superseded then
    match world.superseded with
    | none => (looped.1, none)
    | some place => (looped.1 ++ [.superseded place], some .superseded)
  else looped

/-- The whole loop, and the seam of a superseded turn. -/
def runSteps : List LoopAct × Option TurnOutcome :=
  leaveSeam world (stepsFrom formats steps world steps.maxSteps { messages := steps.messages })

theorem leaveSeam_cases (looped : List LoopAct × Option TurnOutcome) :
    (leaveSeam world looped).1 = looped.1 ∨
      ∃ place, leaveSeam world looped = (looped.1 ++ [.superseded place], some .superseded) := by
  unfold leaveSeam
  split
  · cases world.superseded with
    | none => exact .inl rfl
    | some place => exact .inr ⟨place, rfl⟩
  · exact .inl rfl

/-! ### What the loop records -/

/-- The event of a call, where the log took it. -/
def Call.event (call : Call) : Option TurnEvent :=
  call.answer.recorded.map fun place =>
    ⟨place.seq, place.recordedAt, .modelCalled steps.conversation steps.turnId .step
      (formats.requestDigest call.request) (some call.record) call.answer.promptTokens⟩

/-- The events of a block: its effects, and the record of its run. -/
def Executed.events (block : Executed) : List TurnEvent :=
  block.effects.map (fun place => ⟨place.seq, place.recordedAt, .other⟩) ++
    [⟨block.place.seq, block.place.recordedAt, .luaExecuted steps.conversation steps.turnId
      block.script block.outcome.recordedResult block.outcome.terminalCause⟩]

/-- The events of an act. -/
def LoopAct.events : LoopAct → List TurnEvent
  | .nudged => []
  | .called call => (call.event formats steps).toList
  | .exchanged _ dispatched =>
    dispatched.flatMap fun one => one.block.toList.flatMap (Executed.events steps)
  | .replied text place =>
    [⟨place.seq, place.recordedAt, .conversationTurn steps.conversation steps.turnId .agent text
      none steps.provenance []⟩]
  | .superseded place =>
    [⟨place.seq, place.recordedAt, .turnSuperseded steps.conversation steps.turnId
      supersededHint⟩]

end Loop

end Zuihitsu.Turn
