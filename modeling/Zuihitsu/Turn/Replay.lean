/-
# The next turn's prompt

The messages a turn held while it ran are put together once more for the next turn,
from the events it recorded. The two come out the same exactly when every completion
with tool calls made one call of the block tool, in the form the replay writes it,
and none skipped the turn, when each inbound message reads its recorded time and
speaker as it did live, and when the reply was delivered.
-/

import Mathlib.Data.List.Flatten
import Zuihitsu.Turn.Digests

namespace Zuihitsu.Turn

open Zuihitsu.Core

/-! ### The buffer as messages -/

/-- A message's text and images once its attachments are rendered. -/
structure Rendered where
  body : String
  images : List ImagePart

/-- What the assembly of a prompt uses of the calendar and of the blob store. -/
structure Rendering where
  formatStamp : Timestamp → String
  render : String → List Attachment → Rendered

/-- What is put before a message that is read: its time, and who spoke. -/
def Rendering.label (rendering : Rendering) (at_ : Timestamp) : Option String → String
  | some name => "[" ++ rendering.formatStamp at_ ++ "] " ++ name ++ ": "
  | none => "[" ++ rendering.formatStamp at_ ++ "] "

/-- Prefix a message with its time, and with who spoke. -/
def Rendering.stamp (rendering : Rendering) (text : String) (at_ : Timestamp)
    (speaker : Option String) : String :=
  rendering.label at_ speaker ++ text

/-- A participant's message. -/
def Rendering.userMessage (rendering : Rendering) (text : String) (attachments : List Attachment)
    (at_ : Timestamp) (speaker : Option String) : Message :=
  { Message.user (rendering.stamp (rendering.render text attachments).body at_ speaker) with
    images := (rendering.render text attachments).images }

section Messages

variable (formats : Formats) (rendering : Rendering) (names : MemoryId → Option String)

/-- A block of a turn as the call that ran it and the result it fed back. -/
def toolStepMessages (turnId : TurnId) (index : Nat) (step : ToolStep) : List Message :=
  let callId := formats.toolCallId turnId index
  [.assistantToolCalls [⟨callId, "run_lua", formats.scriptArguments step.script⟩],
    .toolResult callId step.result]

/-- One turn of the buffer as messages. -/
def turnMessages (turn : TurnView) : List Message :=
  match turn.role with
  | .participant =>
    [rendering.userMessage turn.text turn.attachments turn.recordedAt
      (turn.participant.bind names)]
  | .agent =>
    (turn.steps.mapIdx (toolStepMessages formats turn.turnId)).flatten ++
      if turn.text = "" then [] else [.assistant turn.text]
  | .system => [.system (rendering.stamp turn.text turn.recordedAt none)]

/-- The live buffer as chat messages. -/
def bufferMessages (buffer : List TurnView) : List Message :=
  buffer.flatMap (turnMessages formats rendering names)

end Messages

/-! ### A turn -/

/-- An inbound message: where its turn is recorded, and when the prompt's clock was read for
it. -/
structure Inbound where
  turnId : TurnId
  participant : MemoryId
  text : String
  attachments : List Attachment
  place : Place
  readAt : Timestamp

/-- What a turn is run on. The ambient hint reads the clock once, for its event and its
message. -/
structure TurnRun where
  conversation : ConversationId
  turnId : TurnId
  system : String
  buffer : List Message
  inbound : List Inbound
  hint : Option (String × Place)
  names : MemoryId → Option String
  provenance : Option ProducedBy
  maxSteps : Nat
  overtaken : Bool := false

section Turn

variable (formats : Formats) (rendering : Rendering) (turn : TurnRun) (world : World)

/-- The inbound messages, stamped for the model. -/
def TurnRun.inboundMessages : List Message :=
  turn.inbound.map fun inbound => rendering.userMessage inbound.text inbound.attachments
    inbound.readAt (turn.names inbound.participant)

/-- The ambient hint, stamped for the model. -/
def TurnRun.hintMessages : List Message :=
  turn.hint.toList.map fun hint => .system (rendering.stamp hint.1 hint.2.recordedAt none)

/-- What the turn hands to the loop. -/
def TurnRun.steps : Steps where
  conversation := turn.conversation
  turnId := turn.turnId
  system := turn.system
  messages := turn.buffer ++ turn.inboundMessages rendering ++ turn.hintMessages rendering
  provenance := turn.provenance
  maxSteps := turn.maxSteps

/-- Run the turn, unless a newer batch came while it queued. -/
def runTurn : List LoopAct × Option TurnOutcome :=
  if turn.overtaken then ([], some .superseded)
  else runSteps formats (turn.steps rendering) world

/-- The event of an inbound message. -/
def Inbound.event (conversation : ConversationId) (inbound : Inbound) : TurnEvent :=
  ⟨inbound.place.seq, inbound.place.recordedAt, .conversationTurn conversation inbound.turnId
    .participant inbound.text (some inbound.participant) none inbound.attachments⟩

/-- The event of the ambient hint. -/
def TurnRun.hintEvent (hint : String × Place) : TurnEvent :=
  ⟨hint.2.seq, hint.2.recordedAt, .ambientRecallSurfaced turn.conversation turn.turnId hint.1⟩

/-- The events of the turn: its inbound messages, its hint, and what the loop recorded. -/
def TurnRun.events (acts : List LoopAct) : List TurnEvent :=
  turn.inbound.map (Inbound.event turn.conversation) ++
    turn.hint.toList.map turn.hintEvent ++
    acts.flatMap (LoopAct.events formats (turn.steps rendering))

/-- What an act says in the messages that a replay should bring back: the nudge is left out,
and a reply is the assistant's message unless it is empty. -/
def LoopAct.held : LoopAct → List Message
  | exchanged calls dispatched => exchangeMessages calls dispatched
  | replied text _ => if text = "" then [] else [.assistant text]
  | nudged | called _ | superseded _ => []

/-- The messages the loop held for the turn. -/
def TurnRun.heldMessages (acts : List LoopAct) : List Message :=
  turn.inboundMessages rendering ++ turn.hintMessages rendering ++ acts.flatMap LoopAct.held

end Turn

/-! ### The exchanges of a run -/

/-- The exchange of an act. -/
def LoopAct.exchange? : LoopAct → Option (List ToolCall × List Dispatched)
  | exchanged calls dispatched => some (calls, dispatched)
  | nudged | called _ | replied _ _ | superseded _ => none

/-- Whether an act leaves the turn open: it neither answers nor abandons it. -/
def LoopAct.quiet : LoopAct → Bool
  | nudged | called _ | exchanged _ _ => true
  | replied _ _ | superseded _ => false

/-- The exchanges of some acts. -/
def exchangesOf (acts : List LoopAct) : List (List ToolCall × List Dispatched) :=
  acts.filterMap LoopAct.exchange?

/-- The exchanges of a run that records a reply: each made its calls under the turn's next ids
and ran them all, or one of them skipped the turn, and then the reply is empty. -/
def Exchanges (formats : Formats) (turnId : TurnId) (text : String) :
    Nat → List (List ToolCall × List Dispatched) → Prop
  | _, [] => True
  | blocks, (calls, dispatched) :: rest =>
    (∀ index call, calls[index]? = some call →
        call.id = formats.toolCallId turnId (blocks + index)) ∧
      (∃ block, runToolCalls formats block 0 calls = (dispatched, .done) ∨
        runToolCalls formats block 0 calls = (dispatched, .skipped) ∧ rest = [] ∧ text = "") ∧
      Exchanges formats turnId text (blocks + dispatched.length) rest

section Run

variable {formats : Formats} {steps : Steps} {world : World} {loop after : Loop}
variable {acts : List LoopAct} {stepIndex : Nat} {text : String} {place : Place}

@[simp] theorem exchangesOf_append {more : List LoopAct} :
    exchangesOf (acts ++ more) = exchangesOf acts ++ exchangesOf more :=
  List.filterMap_append

theorem quiet_append {first rest : List LoopAct} (before : ∀ act ∈ first, act.quiet = true)
    (later : ∀ act ∈ rest, act.quiet = true) : ∀ act ∈ first ++ rest, act.quiet = true :=
  fun act member => (List.mem_append.mp member).elim (before act) (later act)

theorem split_quiet {first rest : List LoopAct} (quiet : ∀ act ∈ first, act.quiet = true)
    (closed : first ++ rest = acts ++ [.replied text place]) :
    ∃ more, rest = more ++ [.replied text place] ∧ acts = first ++ more := by
  rcases List.eq_nil_or_concat rest with rfl | ⟨more, last, rfl⟩
  · rw [List.append_nil] at closed
    have answered := quiet (.replied text place) (by rw [closed]; simp)
    cases answered
  · rw [List.concat_eq_append, ← List.append_assoc] at closed
    obtain ⟨rfl, rfl⟩ := List.append_singleton_inj.mp closed
    exact ⟨more, List.concat_eq_append, rfl⟩

theorem recordAgentTurn_replied {said : String} {outcome : TurnOutcome}
    (recorded : (recordAgentTurn world said outcome).1 = acts ++ [.replied text place]) :
    acts = [] ∧ text = said := by
  unfold recordAgentTurn at recorded
  cases landed : world.agentTurn with
  | none => simp [landed] at recorded
  | some there =>
    rw [landed] at recorded
    change [] ++ [LoopAct.replied said there] = _ at recorded
    obtain ⟨none, same⟩ := List.append_singleton_inj.mp recorded
    exact ⟨none.symm, (LoopAct.replied.inj same).1.symm⟩

theorem getElem?_normalized {blocks index : Nat} {calls : List ToolCall} {call : ToolCall}
    (found : (normalized formats steps blocks calls)[index]? = some call) :
    call.id = formats.toolCallId steps.turnId (blocks + index) := by
  rw [normalized, List.getElem?_mapIdx] at found
  obtain ⟨raw, _, rfl⟩ := Option.map_eq_some_iff.mp found
  rfl

theorem afterExchange_replied {calls : List ToolCall} {dispatched : List Dispatched}
    {ended : CallsEnd}
    (closed : (afterExchange world loop calls dispatched ended).1 = acts ++ [.replied text place]) :
    ended = .skipped ∧ acts = [.exchanged calls dispatched] ∧ text = "" := by
  have last : ∀ act : LoopAct, [act] = acts ++ [.replied text place] → act = .replied text place := by
    intro act same
    rw [← List.nil_append [act]] at same
    exact (List.append_singleton_inj.mp same).2
  cases ended with
  | done | superseded | failed => cases last _ closed
  | skipped =>
    cases acts with
    | nil =>
      rw [List.nil_append] at closed
      cases closed
    | cons =>
      obtain ⟨rfl, recorded⟩ := List.cons.inj closed
      obtain ⟨rfl, rfl⟩ := recordAgentTurn_replied recorded
      exact ⟨rfl, rfl, rfl⟩

theorem afterReply_replied {answer : StepAnswer} {request : GenerateRequest} {sent : Option Nat}
    {said : String}
    (closed : (afterReply world stepIndex answer request sent said).1 = acts ++ [.replied text place]) :
    (∀ act ∈ acts, act.quiet = true) ∧ exchangesOf acts = [] := by
  unfold afterReply at closed
  split at closed
  · cases generation : answer.retry.generation with
    | failed | superseded => simp [generation] at closed
    | completed completion =>
      rw [generation] at closed
      cases acts with
      | nil =>
        rw [List.nil_append] at closed
        cases closed
      | cons first rest =>
        obtain ⟨rfl, recorded⟩ := List.cons.inj closed
        have none : rest = [] := by
          cases completion with
          | reply =>
            rw [afterRetry] at recorded
            split at recorded
            · exact (recordAgentTurn_replied recorded).1
            · exact (recordAgentTurn_replied recorded).1
          | toolCalls | silent => exact (recordAgentTurn_replied recorded).1
        rw [none]
        exact ⟨by simp [LoopAct.quiet], rfl⟩
  · obtain ⟨rfl, _⟩ := recordAgentTurn_replied closed
    exact ⟨by simp, rfl⟩

/-- A completion after which the reply is recorded: its calls skipped the turn, or it was a
reply, or silence. -/
theorem afterCompletion_replied {answer : StepAnswer} {request : GenerateRequest}
    {completion : Completion}
    (closed : (afterCompletion formats steps world stepIndex answer request loop completion).1 =
      acts ++ [.replied text place]) :
    (∀ act ∈ acts, act.quiet = true) ∧
      Exchanges formats steps.turnId text loop.blocks (exchangesOf acts) := by
  cases completion with
  | toolCalls =>
    obtain ⟨skipped, rfl, rfl⟩ := afterExchange_replied closed
    exact ⟨by simp [LoopAct.quiet], fun index call => getElem?_normalized,
      ⟨answer.block, .inr ⟨Prod.ext rfl skipped, rfl, rfl⟩⟩, trivial⟩
  | reply =>
    obtain ⟨quiet, none⟩ := afterReply_replied closed
    rw [none]
    exact ⟨quiet, trivial⟩
  | silent =>
    obtain ⟨rfl, _⟩ := recordAgentTurn_replied closed
    exact ⟨by simp, trivial⟩

/-- A completion after which another step follows had all its calls run. -/
theorem afterCompletion_next {answer : StepAnswer} {request : GenerateRequest}
    {completion : Completion}
    (next : (afterCompletion formats steps world stepIndex answer request loop completion).2 =
      .next after) :
    ∃ calls dispatched,
      (afterCompletion formats steps world stepIndex answer request loop completion).1 =
          [.exchanged calls dispatched] ∧
        (∀ index call, calls[index]? = some call →
          call.id = formats.toolCallId steps.turnId (loop.blocks + index)) ∧
        runToolCalls formats answer.block 0 calls = (dispatched, .done) ∧
        after.messages = loop.messages ++ exchangeMessages calls dispatched ∧
        after.blocks = loop.blocks + dispatched.length := by
  cases completion with
  | toolCalls calls =>
    change (afterExchange world loop _ _ _).2 = _ at next
    cases ended : (runToolCalls formats answer.block 0
        (normalized formats steps loop.blocks calls)).2 with
    | skipped | superseded | failed =>
      rw [ended] at next
      cases next
    | done =>
      rw [ended] at next
      obtain rfl := StepEnd.next.inj next
      refine ⟨_, _, ?_, fun index call => getElem?_normalized, Prod.ext rfl ended, rfl, rfl⟩
      change (afterExchange world loop _ _ _).1 = _
      rw [ended]
      rfl
  | reply | silent => cases next

theorem quiet_nudges : ∀ act ∈ nudges steps stepIndex, act.quiet = true := by
  unfold nudges
  split
  · simp [LoopAct.quiet]
  · simp

theorem exchangesOf_nudges : exchangesOf (nudges steps stepIndex) = [] := by
  unfold nudges
  split
  · rfl
  · rfl

theorem quiet_opening :
    (∀ act ∈ nudges steps stepIndex ++ [.called (stepCall formats steps world stepIndex loop)],
        act.quiet = true) ∧
      exchangesOf (nudges steps stepIndex ++
        [.called (stepCall formats steps world stepIndex loop)]) = [] := by
  constructor
  · exact quiet_append quiet_nudges (by simp [LoopAct.quiet])
  · rw [exchangesOf_append, exchangesOf_nudges]
    rfl

theorem stepsFrom_replied {remaining : Nat}
    (closed : (stepsFrom formats steps world remaining loop).1 = acts ++ [.replied text place]) :
    (∀ act ∈ acts, act.quiet = true) ∧
      Exchanges formats steps.turnId text loop.blocks (exchangesOf acts) := by
  induction remaining generalizing loop acts with
  | zero =>
    obtain ⟨rfl, _⟩ := recordAgentTurn_replied closed
    exact ⟨by simp, trivial⟩
  | succ remaining ih =>
    rw [stepsFrom] at closed
    rcases step_cases formats steps world (steps.maxSteps - (remaining + 1)) loop with
      ⟨cut, outcome, taken, nothing⟩ | ⟨completion, _, taken⟩
    · -- a step that was cut off answers nothing
      rw [taken] at closed
      have quiet : ∀ act ∈ cut, act.quiet = true := by
        rcases nothing with rfl | rfl
        · simp
        · exact quiet_nudges
      have none : cut ++ [] = acts ++ [.replied text place] := by rwa [List.append_nil]
      obtain ⟨more, empty, _⟩ := split_quiet quiet none
      simp at empty
    · rw [taken] at closed
      have opened := @quiet_opening formats steps world loop (steps.maxSteps - (remaining + 1))
      cases ended : (afterCompletion formats steps world (steps.maxSteps - (remaining + 1))
          (world.step (steps.maxSteps - (remaining + 1)))
          (stepCall formats steps world (steps.maxSteps - (remaining + 1)) loop).request
          (stepSent steps (steps.maxSteps - (remaining + 1)) loop) completion).2 with
      | ended outcome =>
        simp only [ended] at closed
        rw [List.append_cons] at closed
        obtain ⟨more, answered, rfl⟩ := split_quiet opened.1 closed
        obtain ⟨quiet, exchanges⟩ := afterCompletion_replied answered
        rw [exchangesOf_append, opened.2, List.nil_append]
        exact ⟨quiet_append opened.1 quiet, exchanges⟩
      | next after =>
        simp only [ended] at closed
        obtain ⟨calls, dispatched, exchange, ids, ran, _, blocks⟩ := afterCompletion_next ended
        rw [exchange, List.append_cons, List.append_assoc] at closed
        obtain ⟨more, rest, rfl⟩ := split_quiet opened.1 closed
        have one : ∀ act ∈ [LoopAct.exchanged calls dispatched], act.quiet = true := by simp [LoopAct.quiet]
        obtain ⟨later, followed, rfl⟩ := split_quiet one rest
        obtain ⟨quiet, exchanges⟩ := ih followed
        rw [blocks] at exchanges
        rw [exchangesOf_append, opened.2, List.nil_append]
        exact ⟨quiet_append opened.1 (quiet_append one quiet),
          ids, ⟨_, .inl ran⟩, exchanges⟩

theorem runSteps_replied (closed : (runSteps formats steps world).1 = acts ++ [.replied text place]) :
    (∀ act ∈ acts, act.quiet = true) ∧
      Exchanges formats steps.turnId text 0 (exchangesOf acts) := by
  have looped : (stepsFrom formats steps world steps.maxSteps { messages := steps.messages }).1 =
      acts ++ [.replied text place] := by
    rcases leaveSeam_cases world
        (stepsFrom formats steps world steps.maxSteps { messages := steps.messages }) with
      kept | ⟨seam, left⟩
    · rw [← kept]
      exact closed
    · -- a seam is not a reply
      rw [runSteps, left] at closed
      cases (List.append_singleton_inj.mp closed).2
  exact stepsFrom_replied looped

end Run

/-! ### The two tellings of an exchange -/

/-- The block a dispatched call ran, as the replay reads it back. -/
def Dispatched.toolStep (dispatched : Dispatched) : Option ToolStep :=
  dispatched.block.map fun block =>
    ⟨block.script, blockResult block.outcome.recordedResult block.outcome.terminalCause⟩

/-- The blocks of some exchanges. -/
def toolStepsOf (exchanges : List (List ToolCall × List Dispatched)) : List ToolStep :=
  exchanges.flatMap fun exchange => exchange.2.filterMap Dispatched.toolStep

/-- The messages of some exchanges. -/
def exchangedMessages (exchanges : List (List ToolCall × List Dispatched)) : List Message :=
  exchanges.flatMap fun exchange => exchangeMessages exchange.1 exchange.2

/-- The blocks of a turn replayed, from one of its calls on. -/
def replayedFrom (formats : Formats) (turnId : TurnId) (blocks : Nat) (steps : List ToolStep) :
    List Message :=
  (steps.mapIdx fun index => toolStepMessages formats turnId (blocks + index)).flatten

/-- One call of the block tool, with the arguments as the replay writes them, which does not
skip the turn. -/
def RunsLuaOnce (formats : Formats) (exchange : List ToolCall × List Dispatched) : Prop :=
  (∃ call script, exchange.1 = [call] ∧ call.name = "run_lua" ∧
      call.arguments = formats.scriptArguments script) ∧
    ∀ dispatched ∈ exchange.2, ∀ block, dispatched.block = some block →
      block.outcome.skips = false

section Exchange

variable {formats : Formats} {turnId : TurnId} {blocks : Nat} {text : String}
variable {exchanges : List (List ToolCall × List Dispatched)}

theorem blockResult_of_result {outcome : BlockOutcome} {result : String}
    (seen : outcome.result formats.quoted = some result) :
    blockResult outcome.recordedResult outcome.terminalCause = result := by
  rcases outcome with committed | (message | reason | reason) | reason
  · exact Option.some.inj seen
  · exact Option.some.inj seen
  · exact Option.some.inj seen
  · cases seen
  · cases seen

theorem replayedFrom_cons {step : ToolStep} {steps : List ToolStep} :
    replayedFrom formats turnId blocks (step :: steps) =
      toolStepMessages formats turnId blocks step ++
        replayedFrom formats turnId (blocks + 1) steps := by
  have shift : (fun index => toolStepMessages formats turnId (blocks + (index + 1))) =
      fun index => toolStepMessages formats turnId (blocks + 1 + index) := by
    funext index
    rw [Nat.add_right_comm, Nat.add_assoc]
  rw [replayedFrom, List.mapIdx_cons, List.flatten_cons, Nat.add_zero, shift]
  rfl

/-- One call of the block tool runs its script, and skips the turn when nothing comes back. -/
theorem runToolCalls_once (roundTrip : ∀ script, formats.parseScript
      (formats.scriptArguments script) = .ok script) {block : Nat → BlockAnswer} {call : ToolCall}
    {script : String} {dispatched : List Dispatched} {ended : CallsEnd}
    (name : call.name = "run_lua") (arguments : call.arguments = formats.scriptArguments script)
    (ran : runToolCalls formats block 0 [call] = (dispatched, ended))
    (through : ended = .done ∨ ended = .skipped) :
    ∃ outcome effects place,
      dispatched = [⟨call, some ⟨script, outcome, effects, place⟩, outcome.result formats.quoted⟩] ∧
        (outcome.result formats.quoted = none → ended = .skipped) := by
  have one : runToolCall formats call (block 0) = (block 0).outcome.map fun outcome =>
      ⟨call, some ⟨script, outcome, (block 0).effects, (block 0).place⟩,
        outcome.result formats.quoted⟩ := by
    rw [runToolCall, if_neg (not_not_intro name), arguments, roundTrip]
  rw [runToolCalls, one] at ran
  cases end_ : (block 0).outcome with
  | none =>
    rw [end_] at ran
    obtain ⟨_, rfl⟩ := Prod.mk.inj ran
    simp at through
  | some outcome =>
    refine ⟨outcome, (block 0).effects, (block 0).place, ?_⟩
    cases seen : outcome.result formats.quoted with
    | none =>
      simp only [end_, Option.map_some, seen, Prod.mk.injEq] at ran
      exact ⟨ran.1.symm, fun _ => ran.2.symm⟩
    | some =>
      simp only [end_, Option.map_some, seen] at ran
      split at ran
      · obtain ⟨_, rfl⟩ := Prod.mk.inj ran
        simp at through
      · simp only [runToolCalls, Prod.mk.injEq] at ran
        exact ⟨ran.1.symm, fun impossible => by cases impossible⟩

/-- The messages of a run's exchanges, and what follows, are those its blocks are replayed as
exactly when each exchange ran one block and the same follows. -/
theorem exchangedMessages_eq_iff (roundTrip : ∀ script, formats.parseScript
      (formats.scriptArguments script) = .ok script)
    (shape : Exchanges formats turnId text blocks exchanges) {tail tail' : List Message}
    (spoken : tail' = [] ∨ ∃ said rest, said ≠ "" ∧ tail' = .assistant said :: rest)
    (silent : text = "" → tail = [] ∧ tail' = []) :
    exchangedMessages exchanges ++ tail =
        replayedFrom formats turnId blocks (toolStepsOf exchanges) ++ tail' ↔
      (∀ exchange ∈ exchanges, RunsLuaOnce formats exchange) ∧ tail = tail' := by
  induction exchanges generalizing blocks with
  | nil => simp [exchangedMessages, toolStepsOf, replayedFrom]
  | cons exchange rest ih =>
    obtain ⟨calls, dispatched⟩ := exchange
    obtain ⟨ids, ⟨block, ran⟩, further⟩ := shape
    have single : ∀ call script, calls = [call] → call.name = "run_lua" →
        call.arguments = formats.scriptArguments script →
        ∃ outcome effects place,
          dispatched = [⟨call, some ⟨script, outcome, effects, place⟩,
              outcome.result formats.quoted⟩] ∧
            (outcome.result formats.quoted = none → rest = [] ∧ text = "") := by
      rintro call script rfl name arguments
      rcases ran with done | ⟨skipped, none, empty⟩
      · obtain ⟨outcome, effects, place, same, skips⟩ :=
          runToolCalls_once roundTrip name arguments done (.inl rfl)
        exact ⟨outcome, effects, place, same, fun unseen => by cases skips unseen⟩
      · obtain ⟨outcome, effects, place, same, _⟩ :=
          runToolCalls_once roundTrip name arguments skipped (.inr rfl)
        exact ⟨outcome, effects, place, same, fun _ => ⟨none, empty⟩⟩
    by_cases once : RunsLuaOnce formats (calls, dispatched)
    · -- both tellings open with the call and its result
      obtain ⟨⟨call, script, rfl, name, arguments⟩, results⟩ := once
      obtain ⟨outcome, effects, place, rfl, _⟩ := single call script rfl name arguments
      have sees : (outcome.result formats.quoted).isSome = true := by
        rw [BlockOutcome.result_isSome, results _ List.mem_cons_self _ rfl]
        rfl
      obtain ⟨result, seen⟩ := Option.isSome_iff_exists.mp sees
      change Exchanges formats turnId text (blocks + 1) rest at further
      have message : Dispatched.message ⟨call, some ⟨script, outcome, effects, place⟩,
          outcome.result formats.quoted⟩ = some (.toolResult call.id result) := by
        rw [Dispatched.message, seen]
        rfl
      have id : call.id = formats.toolCallId turnId blocks := ids 0 call rfl
      have call_eq : call = ⟨formats.toolCallId turnId blocks, "run_lua",
          formats.scriptArguments script⟩ := by
        rw [← id, ← name, ← arguments]
      have told : exchangedMessages (([call], [⟨call, some ⟨script, outcome, effects, place⟩,
          outcome.result formats.quoted⟩]) :: rest) =
          toolStepMessages formats turnId blocks ⟨script, result⟩ ++ exchangedMessages rest := by
        rw [exchangedMessages, List.flatMap_cons, ← exchangedMessages]
        simp [exchangeMessages, message, toolStepMessages, ← call_eq, id]
      have replayed : toolStepsOf (([call], [⟨call, some ⟨script, outcome, effects, place⟩,
          outcome.result formats.quoted⟩]) :: rest) = ⟨script, result⟩ :: toolStepsOf rest := by
        rw [toolStepsOf, List.flatMap_cons, ← toolStepsOf]
        simp [Dispatched.toolStep, blockResult_of_result seen]
      rw [told, replayed, replayedFrom_cons, List.append_assoc, List.append_assoc,
        List.append_right_inj, ih further, List.forall_mem_cons]
      have this : RunsLuaOnce formats ([call], [⟨call, some ⟨script, outcome, effects, place⟩,
          outcome.result formats.quoted⟩]) := ⟨⟨call, script, rfl, name, arguments⟩, results⟩
      simp [this]
    · refine iff_of_false (fun same => ?_) (fun both => once (both.1 _ List.mem_cons_self))
      rw [exchangedMessages, List.flatMap_cons, ← exchangedMessages, exchangeMessages] at same
      cases steps : toolStepsOf ((calls, dispatched) :: rest) with
      | nil =>
        -- nothing was run, and a reply is not a list of calls
        rw [steps] at same
        rcases spoken with rfl | ⟨said, more, something, rfl⟩
        · simp [replayedFrom] at same
        · obtain ⟨head, _⟩ := List.cons.inj (same : _ :: _ = Message.assistant said :: more)
          exact something (congrArg Message.content head).symm
      | cons step more =>
        rw [steps, replayedFrom_cons] at same
        obtain ⟨head, tail_⟩ := List.cons.inj (same : _ :: _ = Message.assistantToolCalls _ :: _)
        have only : calls = [⟨formats.toolCallId turnId blocks, "run_lua",
          formats.scriptArguments step.script⟩] := congrArg Message.toolCalls head
        obtain ⟨outcome, effects, place, rfl, skips⟩ := single _ step.script only rfl rfl
        cases seen : outcome.result formats.quoted with
        | some =>
          refine once ⟨⟨_, step.script, only, rfl, rfl⟩, fun one member block ran => ?_⟩
          rw [List.mem_singleton.mp member] at ran
          rw [← Option.some.inj ran]
          have sees := @BlockOutcome.result_isSome formats.quoted outcome
          rw [seen] at sees
          simpa using sees.symm
        | none =>
          -- the replay has a result for the block that skipped the turn
          obtain ⟨rfl, empty⟩ := skips seen
          obtain ⟨rfl, rfl⟩ := silent empty
          have unsaid : Dispatched.message ⟨⟨formats.toolCallId turnId blocks, "run_lua",
              formats.scriptArguments step.script⟩, some ⟨step.script, outcome, effects, place⟩,
              outcome.result formats.quoted⟩ = none := by
            rw [Dispatched.message, seen]
            rfl
          rw [List.filterMap_cons_none unsaid] at tail_
          simp [exchangedMessages] at tail_

end Exchange

/-! ### Reading the events back -/

section Reading

variable {formats : Formats} {rendering : Rendering} {turn : TurnRun} {acts : List LoopAct}
variable {conversation : ConversationId} {before : List TurnEvent}

theorem turnsAfter_append {first rest : List TurnEvent} :
    turnsAfter conversation before (first ++ rest) =
      turnsAfter conversation before first ++ turnsAfter conversation (before ++ first) rest := by
  induction first generalizing before with
  | nil =>
    rw [List.nil_append, List.append_nil]
    rfl
  | cons event more ih =>
    rw [List.cons_append, turnsAfter_cons, turnsAfter_cons, ih, List.append_assoc,
      List.append_assoc]
    rfl

/-- The turn an inbound message is read back as. -/
def Inbound.view (inbound : Inbound) : TurnView :=
  { seq := inbound.place.seq, turnId := inbound.turnId, role := .participant, text := inbound.text
    participant := some inbound.participant, recordedAt := inbound.place.recordedAt
    attachments := inbound.attachments }

theorem turnsAfter_inbound {inbound : List Inbound} :
    turnsAfter conversation before (inbound.map (Inbound.event conversation)) =
      inbound.map Inbound.view := by
  induction inbound generalizing before with
  | nil => rfl
  | cons first rest ih =>
    rw [List.map_cons, turnsAfter_cons, ih]
    simp [Replay.adds, Replay.read, Inbound.event, Inbound.view]

theorem turnsAfter_hint :
    turnsAfter turn.conversation before (turn.hint.toList.map turn.hintEvent) =
      turn.hint.toList.map fun hint =>
        { seq := hint.2.seq, turnId := turn.turnId, role := .system, text := hint.1
          recordedAt := hint.2.recordedAt } := by
  cases turn.hint with
  | none => rfl
  | some =>
    rw [Option.toList_some, List.map_singleton, turnsAfter_cons]
    simp [Replay.adds, Replay.read, TurnRun.hintEvent, systemTurn, turnsAfter]

theorem events_of_quiet {steps : Steps} {act : LoopAct} (quiet : act.quiet = true)
    {event : TurnEvent} (member : event ∈ act.events formats steps) :
    (∀ replay : Replay, replay.adds steps.conversation event = []) ∧
      ∀ turnId, event.answers steps.conversation turnId = false := by
  cases act with
  | nudged => cases member
  | called =>
    obtain ⟨place, _, rfl⟩ := Option.map_eq_some_iff.mp (Option.mem_toList.mp member)
    exact ⟨fun replay => by simp [Replay.adds, Replay.read], fun turnId => rfl⟩
  | exchanged =>
    obtain ⟨one, _, within⟩ := List.mem_flatMap.mp member
    obtain ⟨block, _, among⟩ := List.mem_flatMap.mp within
    rcases List.mem_append.mp among with effect | last
    · obtain ⟨place, _, rfl⟩ := List.mem_map.mp effect
      exact ⟨fun replay => rfl, fun turnId => rfl⟩
    · rw [List.mem_singleton.mp last]
      exact ⟨fun replay => by simp [Replay.adds, Replay.read], fun turnId => rfl⟩
  | replied | superseded => cases quiet

theorem turnsAfter_nothing {events : List TurnEvent}
    (nothing : ∀ event ∈ events, ∀ replay : Replay, replay.adds conversation event = []) :
    turnsAfter conversation before events = [] := by
  induction events generalizing before with
  | nil => rfl
  | cons event rest ih =>
    rw [turnsAfter_cons, nothing event List.mem_cons_self,
      ih fun other member => nothing other (List.mem_cons_of_mem _ member)]
    rfl

theorem stepsIn_dispatched {steps : Steps} {dispatched : List Dispatched} :
    stepsIn steps.conversation steps.turnId
        (dispatched.flatMap fun one => one.block.toList.flatMap (Executed.events steps)) =
      dispatched.filterMap Dispatched.toolStep := by
  have effects : ∀ places : List Place, stepsIn steps.conversation steps.turnId
      (places.map fun place => ⟨place.seq, place.recordedAt, .other⟩) = [] := by
    intro places
    rw [stepsIn, List.filterMap_map]
    exact List.filterMap_eq_nil_iff.mpr fun place _ => rfl
  induction dispatched with
  | nil => rfl
  | cons one rest ih =>
    rw [List.flatMap_cons, stepsIn_append, ih]
    cases ran : one.block with
    | none => simp [Dispatched.toolStep, ran, stepsIn]
    | some =>
      rw [Option.toList_some, List.flatMap_singleton, Executed.events, stepsIn_append, effects]
      simp [Dispatched.toolStep, ran, stepsIn, TurnEvent.stepOf]

theorem stepsIn_events {steps : Steps} :
    stepsIn steps.conversation steps.turnId (acts.flatMap (LoopAct.events formats steps)) =
      toolStepsOf (exchangesOf acts) := by
  induction acts with
  | nil => rfl
  | cons act rest ih =>
    rw [List.flatMap_cons, stepsIn_append, ih]
    cases act with
    | exchanged =>
      rw [LoopAct.events, stepsIn_dispatched]
      rfl
    | called call =>
      have none : stepsIn steps.conversation steps.turnId
          (LoopAct.events formats steps (.called call)) = [] := by
        refine List.filterMap_eq_nil_iff.mpr fun event member => ?_
        obtain ⟨place, _, rfl⟩ := Option.map_eq_some_iff.mp (Option.mem_toList.mp member)
        rfl
      rw [none]
      rfl
    | nudged | replied | superseded => rfl

theorem held_of_quiet (quiet : ∀ act ∈ acts, act.quiet = true) :
    acts.flatMap LoopAct.held = exchangedMessages (exchangesOf acts) := by
  induction acts with
  | nil => rfl
  | cons act rest ih =>
    obtain ⟨first, others⟩ := List.forall_mem_cons.mp quiet
    rw [List.flatMap_cons, ih others]
    cases act with
    | nudged | called | exchanged => rfl
    | replied | superseded => cases first

/-- The turns a turn's events are read back as. -/
theorem bufferTurns_events {text : String} {place : Place}
    (quiet : ∀ act ∈ acts, act.quiet = true) :
    ∃ price, bufferTurns (turn.events formats rendering (acts ++ [.replied text place]))
        turn.conversation 0 =
      turn.inbound.map Inbound.view ++
        (turn.hint.toList.map fun hint =>
          { seq := hint.2.seq, turnId := turn.turnId, role := .system, text := hint.1
            recordedAt := hint.2.recordedAt }) ++
        { seq := place.seq, turnId := turn.turnId, role := .agent, text
          recordedAt := place.recordedAt, steps := toolStepsOf (exchangesOf acts)
          producedBy := turn.provenance, promptTokens := price } ::
          if text ≠ "" && turn.provenance.any isFlush then
            [{ seq := place.seq, turnId := turn.turnId, role := .system
               text := undeliveredFlushNote, recordedAt := place.recordedAt }]
          else [] := by
  generalize conversation_def : turn.conversation = conversation
  generalize opening_def : turn.inbound.map (Inbound.event conversation) ++
    turn.hint.toList.map turn.hintEvent = opening
  generalize working_def : acts.flatMap (LoopAct.events formats (turn.steps rendering)) = working
  generalize reply_def : (⟨place.seq, place.recordedAt, .conversationTurn conversation turn.turnId
    .agent text none turn.provenance []⟩ : TurnEvent) = reply
  have events : turn.events formats rendering (acts ++ [.replied text place]) =
      opening ++ working ++ [reply] := by
    rw [← opening_def, ← working_def, ← reply_def, ← conversation_def, TurnRun.events,
      List.flatMap_append, List.append_assoc, List.append_assoc, List.append_assoc]
    rfl
  have each : ∀ event ∈ working, (∀ replay : Replay, replay.adds conversation event = []) ∧
      ∀ turnId, event.answers conversation turnId = false := by
    intro event member
    rw [← working_def] at member
    obtain ⟨act, within, among⟩ := List.mem_flatMap.mp member
    rw [← conversation_def]
    exact @events_of_quiet formats (turn.steps rendering) act (quiet act within) event among
  have unanswered : answeredIn conversation turn.turnId (opening ++ working) = false := by
    refine List.any_eq_false.mpr fun event member => ?_
    rcases List.mem_append.mp member with first | work
    · rw [← opening_def] at first
      rcases List.mem_append.mp first with inbound | hint
      · obtain ⟨message, _, rfl⟩ := List.mem_map.mp inbound
        simp [Inbound.event, TurnEvent.answers]
      · obtain ⟨message, _, rfl⟩ := List.mem_map.mp hint
        simp [TurnRun.hintEvent, TurnEvent.answers]
    · rw [(each event work).2]
      exact Bool.false_ne_true
  have steps : stepsIn conversation turn.turnId (opening ++ working) =
      toolStepsOf (exchangesOf acts) := by
    have none : stepsIn conversation turn.turnId opening = [] := by
      refine List.filterMap_eq_nil_iff.mpr fun event member => ?_
      rw [← opening_def] at member
      rcases List.mem_append.mp member with inbound | hint
      · obtain ⟨message, _, rfl⟩ := List.mem_map.mp inbound
        rfl
      · obtain ⟨message, _, rfl⟩ := List.mem_map.mp hint
        rfl
    rw [stepsIn_append, none, List.nil_append, ← working_def, ← conversation_def]
    exact @stepsIn_events formats acts (turn.steps rendering)
  have gathers := (@gathered_unanswered conversation turn.turnId [] (opening ++ working)
    unanswered).1
  have fresh : (gathered conversation []).stepsByTurn turn.turnId = [] := rfl
  rw [List.nil_append, steps, fresh, List.nil_append] at gathers
  refine ⟨(gathered conversation (opening ++ working)).promptTokensByTurn turn.turnId, ?_⟩
  have all : since (opening ++ working ++ [reply]) 0 = opening ++ working ++ [reply] :=
    List.filter_eq_self.mpr fun event _ => decide_eq_true (Nat.zero_le _)
  have last : turnsAfter conversation (opening ++ working) [reply] =
      (gathered conversation (opening ++ working)).adds conversation reply := by
    rw [turnsAfter_cons]
    exact List.append_nil _
  have inbound : turnsAfter conversation [] opening = turn.inbound.map Inbound.view ++
      turn.hint.toList.map fun hint =>
        { seq := hint.2.seq, turnId := turn.turnId, role := .system, text := hint.1
          recordedAt := hint.2.recordedAt } := by
    rw [← opening_def, turnsAfter_append, turnsAfter_inbound, ← conversation_def, turnsAfter_hint]
  rw [events, bufferTurns_eq, all, turnsAfter_append, turnsAfter_append, inbound, List.nil_append,
    turnsAfter_nothing fun event member => (each event member).1, List.append_nil, List.nil_append,
    last, ← reply_def]
  simp [Replay.adds, Replay.read, gathers, systemTurn]

end Reading

/-! ### The two tellings of a turn -/

section Telling

variable {formats : Formats} {rendering : Rendering} {turn : TurnRun} {world : World}
variable {acts : List LoopAct} {text : String} {place : Place} {outcome : Option TurnOutcome}

/-- An inbound message reads the same at two times, to two namings, exactly when its label
does. -/
theorem userMessage_eq_iff {said : String} {attachments : List Attachment}
    {first second : Timestamp} {speaker speaker' : Option String} :
    rendering.userMessage said attachments first speaker =
        rendering.userMessage said attachments second speaker' ↔
      rendering.label first speaker = rendering.label second speaker' := by
  constructor
  · intro same
    exact (String.append_left_inj _).mp (congrArg Message.content same)
  · intro same
    rw [Rendering.userMessage, Rendering.userMessage, Rendering.stamp, Rendering.stamp, same]

/-- The messages the next turn is prompted with are those a turn held exactly when each inbound
message has the label it had live, each exchange ran one block of the tool as the replay
writes it, and the reply is no undelivered note of a flush. -/
theorem replayed_iff (roundTrip : ∀ script, formats.parseScript
      (formats.scriptArguments script) = .ok script) (names : MemoryId → Option String)
    (run : runTurn formats rendering turn world = (acts ++ [.replied text place], outcome)) :
    bufferMessages formats rendering names (bufferTurns
        (turn.events formats rendering (acts ++ [.replied text place])) turn.conversation 0) =
        turn.heldMessages rendering (acts ++ [.replied text place]) ↔
      (∀ inbound ∈ turn.inbound,
          rendering.label inbound.place.recordedAt (names inbound.participant) =
            rendering.label inbound.readAt (turn.names inbound.participant)) ∧
        (∀ exchange ∈ exchangesOf acts, RunsLuaOnce formats exchange) ∧
        (text = "" ∨ turn.provenance.any isFlush = false) := by
  have closed : (runSteps formats (turn.steps rendering) world).1 =
      acts ++ [.replied text place] := by
    unfold runTurn at run
    split at run
    · cases acts <;> simp at run
    · rw [run]
  obtain ⟨quiet, shape⟩ := runSteps_replied closed
  obtain ⟨price, turns⟩ := @bufferTurns_events formats rendering turn acts text place quiet
  generalize reply_def : (if text = "" then [] else [Message.assistant text]) = reply
  generalize note_def : (if text ≠ "" && turn.provenance.any isFlush then
    [Message.system (rendering.stamp undeliveredFlushNote place.recordedAt none)] else []) = note
  have replayed : bufferMessages formats rendering names (bufferTurns
      (turn.events formats rendering (acts ++ [.replied text place])) turn.conversation 0) =
      turn.inbound.map (fun inbound => rendering.userMessage inbound.text inbound.attachments
        inbound.place.recordedAt (names inbound.participant)) ++
      (turn.hintMessages rendering ++
        (replayedFrom formats turn.turnId 0 (toolStepsOf (exchangesOf acts)) ++ (reply ++ note))) := by
    have inbound : (turn.inbound.map Inbound.view).flatMap
        (turnMessages formats rendering names) = turn.inbound.map fun inbound =>
          rendering.userMessage inbound.text inbound.attachments inbound.place.recordedAt
            (names inbound.participant) := by
      rw [List.flatMap_map]
      exact (List.map_eq_flatMap).symm
    have hint : (turn.hint.toList.map fun hint =>
        ({ seq := hint.2.seq, turnId := turn.turnId, role := .system, text := hint.1
           recordedAt := hint.2.recordedAt } : TurnView)).flatMap
        (turnMessages formats rendering names) = turn.hintMessages rendering := by
      rw [List.flatMap_map]
      exact (List.map_eq_flatMap).symm
    have agent : turnMessages formats rendering names
        { seq := place.seq, turnId := turn.turnId, role := .agent, text
          recordedAt := place.recordedAt, steps := toolStepsOf (exchangesOf acts)
          producedBy := turn.provenance, promptTokens := price } =
        replayedFrom formats turn.turnId 0 (toolStepsOf (exchangesOf acts)) ++ reply := by
      rw [← reply_def]
      simp [turnMessages, replayedFrom]
    have noted : (if text ≠ "" && turn.provenance.any isFlush then
        [({ seq := place.seq, turnId := turn.turnId, role := .system
            text := undeliveredFlushNote, recordedAt := place.recordedAt } : TurnView)]
        else []).flatMap (turnMessages formats rendering names) = note := by
      rw [← note_def]
      split
      · rfl
      · rfl
    rw [bufferMessages, turns, List.flatMap_append, List.flatMap_append, inbound, hint,
      List.flatMap_cons, agent, noted]
    simp
  have held : turn.heldMessages rendering (acts ++ [.replied text place]) =
      turn.inboundMessages rendering ++ (turn.hintMessages rendering ++
        (exchangedMessages (exchangesOf acts) ++ reply)) := by
    rw [TurnRun.heldMessages, List.flatMap_append, held_of_quiet quiet, ← reply_def,
      List.append_assoc]
    simp [LoopAct.held]
  have delivered : reply = reply ++ note ↔ text = "" ∨ turn.provenance.any isFlush = false := by
    rw [List.self_eq_append_right, ← note_def]
    by_cases empty : text = ""
    · simp [empty]
    · cases flushed : turn.provenance.any isFlush <;> simp [empty]
  have spoken : reply ++ note = [] ∨
      ∃ said rest, said ≠ "" ∧ reply ++ note = .assistant said :: rest := by
    by_cases empty : text = ""
    · left
      simp [← reply_def, ← note_def, empty]
    · right
      exact ⟨text, note, empty, by simp [← reply_def, empty]⟩
  have silent : text = "" → reply = [] ∧ reply ++ note = [] := by
    intro empty
    simp [← reply_def, ← note_def, empty]
  have labels : turn.inbound.map (fun inbound => rendering.userMessage inbound.text
        inbound.attachments inbound.place.recordedAt (names inbound.participant)) =
        turn.inboundMessages rendering ↔
      ∀ inbound ∈ turn.inbound,
        rendering.label inbound.place.recordedAt (names inbound.participant) =
          rendering.label inbound.readAt (turn.names inbound.participant) := by
    rw [TurnRun.inboundMessages, List.map_inj_left]
    exact forall₂_congr fun inbound _ => userMessage_eq_iff
  have exchanged := exchangedMessages_eq_iff roundTrip shape spoken silent
  rw [delivered] at exchanged
  rw [replayed, held, ← labels, ← exchanged]
  constructor
  · intro same
    obtain ⟨inbound, rest⟩ := List.append_inj same (by simp [TurnRun.inboundMessages])
    exact ⟨inbound, (List.append_cancel_left rest).symm⟩
  · rintro ⟨inbound, rest⟩
    rw [inbound, rest]
    rfl

end Telling

/-! ### One question -/

namespace OneQuestion

def formats : Formats where
  ulid turnId := toString turnId.ulid
  quoted name := "\"" ++ name ++ "\""
  parseScript arguments := .ok (String.ofList ((arguments.toList.drop 11).dropLast.dropLast))
  scriptArguments script := "\x7b\"script\":\"" ++ script ++ "\"\x7d"
  runLuaSchema := ""
  requestDigest _ := ""

def rendering : Rendering where
  formatStamp at_ := toString (at_.millis / 60000)
  render text _ := ⟨text, []⟩

/-- The names of the room. -/
def names (_ : MemoryId) : Option String := some "person/ada"

def turn : TurnRun where
  conversation := ⟨1⟩
  turnId := ⟨7⟩
  system := "be kind"
  buffer := []
  inbound := [⟨⟨6⟩, ⟨1⟩, "why", [], ⟨1, ⟨0⟩⟩, ⟨5⟩⟩]
  hint := none
  names := names
  provenance := none
  maxSteps := 9

/-- The model calls for some blocks, and then answers. -/
def world (calls : List ToolCall) : World where
  step
    | 0 =>
      { call := ⟨.completed (.toolCalls calls), some 10, some ⟨2, ⟨10⟩⟩⟩
        block := fun index => { outcome := some (.committed "noted"), place := ⟨3 + index, ⟨20⟩⟩ }
        retry := ⟨.failed, none, none⟩ }
    | _ =>
      { call := ⟨.completed (.reply "because"), some 10, some ⟨8, ⟨30⟩⟩⟩
        block := fun _ => { outcome := none, place := ⟨0, ⟨0⟩⟩ }
        retry := ⟨.failed, none, none⟩ }
  agentTurn := some ⟨9, ⟨40⟩⟩
  superseded := none

def remember : ToolCall := ⟨"a", "run_lua", formats.scriptArguments "remember()"⟩

theorem roundTrip (script : String) :
    formats.parseScript (formats.scriptArguments script) = .ok script := by
  have text : (formats.scriptArguments script).toList =
      ("\x7b\"script\":\"" : String).toList ++ (script.toList ++ ['"'] ++ ['\x7d']) := by
    simp [formats, String.toList_append]
  have opening : ("\x7b\"script\":\"" : String).toList.length = 11 := by decide
  change Except.ok (String.ofList (((formats.scriptArguments script).toList.drop 11).dropLast.dropLast)) = _
  rw [text, ← opening, List.drop_left, List.dropLast_concat, List.dropLast_concat,
    String.ofList_toList]

/-- Two calls in one completion are replayed as two completions of one call. -/
theorem two_calls_apart :
    (∀ script, formats.parseScript (formats.scriptArguments script) = .ok script) ∧
      ∃ acts place outcome,
        runTurn formats rendering turn (world [remember, remember]) =
            (acts ++ [.replied "because" place], outcome) ∧
          bufferMessages formats rendering names (bufferTurns (turn.events formats rendering
            (acts ++ [.replied "because" place])) turn.conversation 0) ≠
            turn.heldMessages rendering (acts ++ [.replied "because" place]) := by
  refine ⟨roundTrip, [.called _, .exchanged _ _, .called _], ⟨9, ⟨40⟩⟩, some (.reply "because"), rfl,
    fun same => ?_⟩
  have lengths := congrArg List.length same
  exact absurd lengths (by decide)

/-- One call is replayed as it was held. -/
theorem one_call_replayed : ∃ acts place outcome,
    runTurn formats rendering turn (world [remember]) =
        (acts ++ [.replied "because" place], outcome) ∧
      bufferMessages formats rendering names (bufferTurns (turn.events formats rendering
        (acts ++ [.replied "because" place])) turn.conversation 0) =
        turn.heldMessages rendering (acts ++ [.replied "because" place]) := by
  have run : ∃ first second calls dispatched,
      runTurn formats rendering turn (world [remember]) =
        ([.called first, .exchanged calls dispatched, .called second] ++
          [.replied "because" ⟨9, ⟨40⟩⟩], some (.reply "because")) ∧
      RunsLuaOnce formats (calls, dispatched) := by
    refine ⟨_, _, _, _, rfl, ⟨_, "remember()", rfl, rfl, rfl⟩, fun one member block ran => ?_⟩
    have only : one = ⟨_, some ⟨_, .committed "noted", _, _⟩, _⟩ := List.mem_singleton.mp member
    rw [only] at ran
    rw [← Option.some.inj ran]
    rfl
  obtain ⟨first, second, calls, dispatched, ran, once⟩ := run
  refine ⟨_, _, _, ran, (replayed_iff roundTrip names ran).mpr ⟨?_, ?_, .inr rfl⟩⟩
  · intro inbound member
    rw [List.mem_singleton.mp member]
    rfl
  · intro exchange member
    rw [List.mem_singleton.mp member]
    exact once

end OneQuestion

end Zuihitsu.Turn
