/-
# The live buffer

The turns of a conversation from a position of the log on, as the next turn's
prompt replays them. A turn's blocks and model calls are recorded before its reply
under the same turn id, so the reading gathers them until the reply comes. What it
has gathered when it starts at a later position is what this module is about.
-/

import Mathlib.Data.List.Induction
import Mathlib.Logic.Function.Basic
import Zuihitsu.Turn.Record

namespace Zuihitsu.Turn

open Zuihitsu.Core

/-- The note that marks a flush reply as undelivered when it is replayed. -/
def undeliveredFlushNote : String :=
  "The agent reply just above was an internal checkpoint note, not delivered to any participant."

/-- A block a turn ran, with what the model saw back. -/
structure ToolStep where
  script : String
  result : String
  deriving DecidableEq, Repr

/-- One turn replayed into the live buffer. -/
structure TurnView where
  seq : Nat
  turnId : TurnId
  role : TurnRole
  text : String
  participant : Option MemoryId := none
  recordedAt : Timestamp
  steps : List ToolStep := []
  producedBy : Option ProducedBy := none
  promptTokens : Option Nat := none
  attachments : List Attachment := []
  deriving DecidableEq

/-- What a reading has gathered, and the turns it has come by. -/
structure Replay where
  stepsByTurn : TurnId → List ToolStep := fun _ => []
  promptTokensByTurn : TurnId → Option Nat := fun _ => none
  turns : List TurnView := []

/-- What the model saw back of a block: its result, or the text of its end. -/
def blockResult (result : Option String) (terminalCause : Option TerminalCause) : String :=
  result.getD ((terminalCause.map TerminalCause.display).getD "")

/-- A system turn replayed at an event's place in the log. -/
def systemTurn (event : TurnEvent) (turnId : TurnId) (text : String) : TurnView :=
  { seq := event.seq, turnId, role := .system, text, recordedAt := event.recordedAt }

/-- Read one event of the log. -/
def Replay.read (conversation : ConversationId) (replay : Replay) (event : TurnEvent) : Replay :=
  match event.payload with
  | .modelCalled turnConversation turnId _ _ _ promptTokens =>
    if turnConversation = conversation then
      { replay with
        promptTokensByTurn := Function.update replay.promptTokensByTurn turnId
          ((replay.promptTokensByTurn turnId).or promptTokens) }
    else replay
  | .luaExecuted turnConversation turnId script result terminalCause =>
    if turnConversation = conversation then
      { replay with
        stepsByTurn := Function.update replay.stepsByTurn turnId
          (replay.stepsByTurn turnId ++ [⟨script, blockResult result terminalCause⟩]) }
    else replay
  | .conversationTurn turnConversation turnId role text participant producedBy attachments =>
    if turnConversation = conversation then
      let view : TurnView :=
        { seq := event.seq, turnId, role, text, participant, recordedAt := event.recordedAt,
          producedBy, attachments }
      if role = .agent then
        let undelivered := text ≠ "" && producedBy.any isFlush
        { stepsByTurn := Function.update replay.stepsByTurn turnId []
          promptTokensByTurn := Function.update replay.promptTokensByTurn turnId none
          turns := replay.turns ++
            { view with
              steps := replay.stepsByTurn turnId
              promptTokens := replay.promptTokensByTurn turnId } ::
            if undelivered then [systemTurn event turnId undeliveredFlushNote] else [] }
      else { replay with turns := replay.turns ++ [view] }
    else replay
  | .turnSuperseded turnConversation turnId text
  | .ambientRecallSurfaced turnConversation turnId text =>
    if turnConversation = conversation then
      { replay with turns := replay.turns ++ [systemTurn event turnId text] }
    else replay
  | .other => replay

/-- The turns of a conversation recorded from a position on, oldest first. -/
def bufferTurns (log : List TurnEvent) (conversation : ConversationId) (fromSeq : Nat) :
    List TurnView :=
  ((log.filter fun event => fromSeq ≤ event.seq).foldl (Replay.read conversation) {}).turns

/-- The seq of the buffer's last flush turn, or the session's start. -/
def flushedUpTo (buffer : List TurnView) (sessionStart : Nat) : Nat :=
  ((buffer.reverse.find? fun turn => turn.producedBy.any isFlush).map (·.seq)).getD sessionStart

theorem flushedUpTo_cases {buffer : List TurnView} {sessionStart : Nat} :
    flushedUpTo buffer sessionStart = sessionStart ∨
      ∃ view ∈ buffer, view.producedBy.any isFlush = true ∧
        flushedUpTo buffer sessionStart = view.seq := by
  unfold flushedUpTo
  cases found : buffer.reverse.find? fun turn => turn.producedBy.any isFlush with
  | none => exact .inl rfl
  | some view =>
    have member := List.mem_reverse.mp (List.mem_of_find?_eq_some found)
    have flush := @List.find?_some _ (fun turn : TurnView => turn.producedBy.any isFlush) _ _ found
    exact .inr ⟨view, member, flush, rfl⟩

/-- The conversation a turn is of, and what it was produced by. -/
def TurnPayload.turnIn : TurnPayload → Option (ConversationId × Option ProducedBy)
  | conversationTurn conversation _ _ _ _ producedBy _ => some (conversation, producedBy)
  | _ => none

/-! ### What an event is to a turn -/

/-- The block of a turn an event records. -/
def TurnEvent.stepOf (conversation : ConversationId) (turnId : TurnId) (event : TurnEvent) :
    Option ToolStep :=
  match event.payload with
  | .luaExecuted turnConversation id script result terminalCause =>
    if turnConversation = conversation ∧ id = turnId then
      some ⟨script, blockResult result terminalCause⟩
    else none
  | _ => none

/-- The prompt size a model call of a turn reported. -/
def TurnEvent.priceOf (conversation : ConversationId) (turnId : TurnId) (event : TurnEvent) :
    Option Nat :=
  match event.payload with
  | .modelCalled turnConversation id _ _ _ promptTokens =>
    if turnConversation = conversation ∧ id = turnId then promptTokens else none
  | _ => none

/-- Whether an event is the reply of a turn. -/
def TurnEvent.answers (conversation : ConversationId) (turnId : TurnId) (event : TurnEvent) :
    Bool :=
  match event.payload with
  | .conversationTurn turnConversation id role _ _ _ _ =>
    turnConversation = conversation && id = turnId && role = .agent
  | _ => false

/-- The blocks of a turn among events. -/
def stepsIn (conversation : ConversationId) (turnId : TurnId) (events : List TurnEvent) :
    List ToolStep :=
  events.filterMap (TurnEvent.stepOf conversation turnId)

/-- The first prompt size reported for a turn among events. -/
def priceIn (conversation : ConversationId) (turnId : TurnId) (events : List TurnEvent) :
    Option Nat :=
  events.findSome? (TurnEvent.priceOf conversation turnId)

/-- Whether a turn is answered among events. -/
def answeredIn (conversation : ConversationId) (turnId : TurnId) (events : List TurnEvent) :
    Bool :=
  events.any (TurnEvent.answers conversation turnId)

/-- The turns one event adds, from what was gathered before it. -/
def Replay.adds (conversation : ConversationId) (replay : Replay) (event : TurnEvent) :
    List TurnView :=
  (({ replay with turns := [] } : Replay).read conversation event).turns

section Reading

variable {conversation : ConversationId} {replay other : Replay} {event : TurnEvent}
variable {turnId : TurnId} {events before after : List TurnEvent} {view : TurnView}

theorem read_stepsByTurn :
    (replay.read conversation event).stepsByTurn turnId =
      if event.answers conversation turnId then []
      else replay.stepsByTurn turnId ++ (event.stepOf conversation turnId).toList := by
  unfold Replay.read TurnEvent.answers TurnEvent.stepOf
  cases event.payload with
  | modelCalled turnConversation id phase digest request promptTokens =>
    by_cases here : turnConversation = conversation <;> simp [here]
  | luaExecuted turnConversation id script result terminalCause =>
    by_cases here : turnConversation = conversation
    · by_cases same : id = turnId
      · simp [here, same]
      · simp [here, same, Function.update_of_ne (Ne.symm same)]
    · simp [here]
  | conversationTurn turnConversation id role text participant producedBy attachments =>
    by_cases here : turnConversation = conversation
    · by_cases agent : role = .agent
      · by_cases same : id = turnId
        · simp [here, agent, same]
        · simp [here, agent, same, Function.update_of_ne (Ne.symm same)]
      · simp [here, agent]
    · simp [here]
  | turnSuperseded turnConversation id text =>
    by_cases here : turnConversation = conversation <;> simp [here]
  | ambientRecallSurfaced turnConversation id text =>
    by_cases here : turnConversation = conversation <;> simp [here]
  | other => simp

theorem read_promptTokensByTurn :
    (replay.read conversation event).promptTokensByTurn turnId =
      if event.answers conversation turnId then none
      else (replay.promptTokensByTurn turnId).or (event.priceOf conversation turnId) := by
  unfold Replay.read TurnEvent.answers TurnEvent.priceOf
  cases event.payload with
  | modelCalled turnConversation id phase digest request promptTokens =>
    by_cases here : turnConversation = conversation
    · by_cases same : id = turnId
      · simp [here, same]
      · simp [here, same, Function.update_of_ne (Ne.symm same)]
    · simp [here]
  | luaExecuted turnConversation id script result terminalCause =>
    by_cases here : turnConversation = conversation <;> simp [here]
  | conversationTurn turnConversation id role text participant producedBy attachments =>
    by_cases here : turnConversation = conversation
    · by_cases agent : role = .agent
      · by_cases same : id = turnId
        · simp [here, agent, same]
        · simp [here, agent, same, Function.update_of_ne (Ne.symm same)]
      · simp [here, agent]
    · simp [here]
  | turnSuperseded turnConversation id text =>
    by_cases here : turnConversation = conversation <;> simp [here]
  | ambientRecallSurfaced turnConversation id text =>
    by_cases here : turnConversation = conversation <;> simp [here]
  | other => simp

theorem read_turns :
    (replay.read conversation event).turns = replay.turns ++ replay.adds conversation event := by
  unfold Replay.adds Replay.read
  cases event.payload with
  | conversationTurn turnConversation id role =>
    by_cases here : turnConversation = conversation
    · by_cases agent : role = .agent <;> simp [here, agent]
    · simp [here]
  | modelCalled turnConversation | luaExecuted turnConversation | turnSuperseded turnConversation
  | ambientRecallSurfaced turnConversation =>
    by_cases here : turnConversation = conversation <;> simp [here]
  | other => simp

theorem adds_seq (added : view ∈ replay.adds conversation event) : view.seq = event.seq := by
  unfold Replay.adds Replay.read at added
  cases payload : event.payload with
  | modelCalled turnConversation =>
    by_cases here : turnConversation = conversation <;> simp [payload, here] at added
  | luaExecuted turnConversation =>
    by_cases here : turnConversation = conversation <;> simp [payload, here] at added
  | conversationTurn turnConversation id role text participant producedBy attachments =>
    by_cases here : turnConversation = conversation
    · by_cases agent : role = .agent
      · simp only [payload, here, agent, if_true, List.nil_append, List.mem_cons] at added
        rcases added with rfl | noted
        · rfl
        · split at noted
          · rw [List.mem_singleton.mp noted]
            rfl
          · cases noted
      · simp only [payload, here, agent, if_true, if_false, List.nil_append,
          List.mem_singleton] at added
        rw [added]
    · simp [payload, here] at added
  | turnSuperseded turnConversation =>
    by_cases here : turnConversation = conversation
    · simp only [payload, here, if_true, List.nil_append, List.mem_singleton] at added
      rw [added]
      rfl
    · simp [payload, here] at added
  | ambientRecallSurfaced turnConversation =>
    by_cases here : turnConversation = conversation
    · simp only [payload, here, if_true, List.nil_append, List.mem_singleton] at added
      rw [added]
      rfl
    · simp [payload, here] at added
  | other => simp [payload] at added

theorem adds_turn {producedBy : Option ProducedBy}
    (turn : event.payload.turnIn = some (conversation, producedBy)) :
    ∃ view ∈ replay.adds conversation event,
      view.seq = event.seq ∧ view.producedBy = producedBy := by
  unfold Replay.adds Replay.read
  cases payload : event.payload with
  | conversationTurn turnConversation id role text participant producer attachments =>
    rw [payload] at turn
    cases turn
    by_cases agent : role = .agent <;> simp [agent]
  | _ =>
    rw [payload] at turn
    cases turn

theorem turn_of_adds {producer : ProducedBy} (added : view ∈ replay.adds conversation event)
    (produced : view.producedBy = some producer) :
    event.payload.turnIn = some (conversation, some producer) := by
  unfold Replay.adds Replay.read at added
  cases payload : event.payload with
  | conversationTurn turnConversation id role text participant producedBy attachments =>
    by_cases here : turnConversation = conversation
    · by_cases agent : role = .agent
      · simp only [payload, here, agent, if_true, List.nil_append, List.mem_cons] at added
        rcases added with rfl | noted
        · rw [here, ← produced]
          rfl
        · split at noted
          · rw [List.mem_singleton.mp noted] at produced
            cases produced
          · cases noted
      · simp only [payload, here, agent, if_true, if_false, List.nil_append,
          List.mem_singleton] at added
        rw [added] at produced
        rw [here, ← produced]
        rfl
    · simp [payload, here] at added
  | turnSuperseded turnConversation | ambientRecallSurfaced turnConversation =>
    by_cases here : turnConversation = conversation
    · simp only [payload, here, if_true, List.nil_append, List.mem_singleton] at added
      rw [added] at produced
      cases produced
    · simp [payload, here] at added
  | modelCalled turnConversation | luaExecuted turnConversation =>
    by_cases here : turnConversation = conversation <;> simp [payload, here] at added
  | other => simp [payload] at added

theorem adds_length :
    (replay.adds conversation event).length = (other.adds conversation event).length := by
  unfold Replay.adds Replay.read
  cases event.payload with
  | conversationTurn turnConversation id role =>
    by_cases here : turnConversation = conversation
    · by_cases agent : role = .agent <;> simp [here, agent]
    · simp [here]
  | modelCalled turnConversation | luaExecuted turnConversation | turnSuperseded turnConversation
  | ambientRecallSurfaced turnConversation =>
    by_cases here : turnConversation = conversation <;> simp [here]
  | other => simp

theorem adds_eq_iff :
    replay.adds conversation event = other.adds conversation event ↔
      ∀ turnId, event.answers conversation turnId = true →
        replay.stepsByTurn turnId = other.stepsByTurn turnId ∧
          replay.promptTokensByTurn turnId = other.promptTokensByTurn turnId := by
  unfold Replay.adds Replay.read TurnEvent.answers
  cases event.payload with
  | conversationTurn turnConversation id role =>
    by_cases here : turnConversation = conversation
    · by_cases agent : role = .agent <;> simp [here, agent]
    · simp [here]
  | modelCalled turnConversation | luaExecuted turnConversation | turnSuperseded turnConversation
  | ambientRecallSurfaced turnConversation =>
    by_cases here : turnConversation = conversation <;> simp [here]
  | other => simp

/-! ### Reading on -/

/-- What is gathered from the events before a position. -/
def gathered (conversation : ConversationId) (before : List TurnEvent) : Replay :=
  before.foldl (Replay.read conversation) {}

/-- The turns of events read after others. -/
def turnsAfter (conversation : ConversationId) (before after : List TurnEvent) : List TurnView :=
  (after.foldl (Replay.read conversation)
    { gathered conversation before with turns := [] }).turns

theorem gathered_snoc :
    gathered conversation (before ++ [event]) =
      (gathered conversation before).read conversation event := by
  rw [gathered, List.foldl_append]
  rfl

theorem foldl_read_turns :
    (events.foldl (Replay.read conversation) replay).turns =
      replay.turns ++
        (events.foldl (Replay.read conversation) { replay with turns := [] }).turns := by
  induction events generalizing replay with
  | nil => simp
  | cons event rest ih =>
    have same : ({ replay with turns := [] } : Replay).read conversation event =
        { replay.read conversation event with turns := replay.adds conversation event } := by
      unfold Replay.adds Replay.read
      cases event.payload with
      | conversationTurn turnConversation id role =>
        by_cases here : turnConversation = conversation
        · by_cases agent : role = .agent <;> simp [here, agent]
        · simp [here]
      | modelCalled turnConversation | luaExecuted turnConversation | turnSuperseded turnConversation
      | ambientRecallSurfaced turnConversation =>
        by_cases here : turnConversation = conversation <;> simp [here]
      | other => simp
    rw [List.foldl_cons, List.foldl_cons, ih, same, read_turns]
    conv_rhs => rw [ih]
    simp

theorem turnsAfter_cons :
    turnsAfter conversation before (event :: after) =
      (gathered conversation before).adds conversation event ++
        turnsAfter conversation (before ++ [event]) after := by
  unfold turnsAfter
  rw [List.foldl_cons, foldl_read_turns, gathered_snoc]
  congr 1
  have apart : ∀ first second : Replay, first.stepsByTurn = second.stepsByTurn →
      first.promptTokensByTurn = second.promptTokensByTurn →
      ({ first with turns := [] } : Replay) = { second with turns := [] } := by
    intro first second steps prompts
    cases first
    cases second
    cases steps
    cases prompts
    rfl
  refine congrArg (fun replay => (after.foldl (Replay.read conversation) replay).turns)
    (apart _ _ ?_ ?_)
  · funext turnId
    rw [read_stepsByTurn, read_stepsByTurn]
  · funext turnId
    rw [read_promptTokensByTurn, read_promptTokensByTurn]

theorem gathered_append :
    (gathered conversation (before ++ after)).turns =
      (gathered conversation before).turns ++ turnsAfter conversation before after := by
  rw [gathered, List.foldl_append, foldl_read_turns]
  rfl

theorem turnsAfter_nil_left :
    turnsAfter conversation [] after = (gathered conversation after).turns := rfl

theorem turnsAfter_seq (member : view ∈ turnsAfter conversation before after) :
    ∃ event ∈ after, view.seq = event.seq := by
  induction after generalizing before with
  | nil => cases member
  | cons event rest ih =>
    rw [turnsAfter_cons] at member
    rcases List.mem_append.mp member with added | later
    · exact ⟨event, List.mem_cons_self, adds_seq added⟩
    · obtain ⟨other, within, same⟩ := ih later
      exact ⟨other, List.mem_cons_of_mem _ within, same⟩

theorem mem_turnsAfter {producedBy : Option ProducedBy} (recorded : event ∈ after)
    (turn : event.payload.turnIn = some (conversation, producedBy)) :
    ∃ view ∈ turnsAfter conversation before after,
      view.seq = event.seq ∧ view.producedBy = producedBy := by
  induction after generalizing before with
  | nil => cases recorded
  | cons first rest ih =>
    rw [turnsAfter_cons]
    rcases List.mem_cons.mp recorded with rfl | later
    · obtain ⟨view, added, same⟩ := @adds_turn conversation (gathered conversation before) event producedBy turn
      exact ⟨view, List.mem_append_left _ added, same⟩
    · obtain ⟨view, read, same⟩ := @ih (before ++ [first]) later
      exact ⟨view, List.mem_append_right _ read, same⟩

theorem turn_of_turnsAfter {producer : ProducedBy}
    (member : view ∈ turnsAfter conversation before after)
    (produced : view.producedBy = some producer) :
    ∃ event ∈ after, view.seq = event.seq ∧
      event.payload.turnIn = some (conversation, some producer) := by
  induction after generalizing before with
  | nil => cases member
  | cons first rest ih =>
    rw [turnsAfter_cons] at member
    rcases List.mem_append.mp member with added | later
    · exact ⟨first, List.mem_cons_self, adds_seq added, turn_of_adds added produced⟩
    · obtain ⟨event, within, same⟩ := ih later
      exact ⟨event, List.mem_cons_of_mem _ within, same⟩

theorem turnsAfter_length {first second : List TurnEvent} :
    (turnsAfter conversation first after).length =
      (turnsAfter conversation second after).length := by
  induction after generalizing first second with
  | nil => rfl
  | cons event rest ih =>
    rw [turnsAfter_cons, turnsAfter_cons, List.length_append, List.length_append,
      @adds_length conversation _ (gathered conversation second) event,
      @ih (first ++ [event]) (second ++ [event])]

theorem turnsAfter_eq_iff {first second : List TurnEvent} :
    turnsAfter conversation first after = turnsAfter conversation second after ↔
      ∀ earlier event later, after = earlier ++ event :: later → ∀ turnId,
        event.answers conversation turnId = true →
        (gathered conversation (first ++ earlier)).stepsByTurn turnId =
            (gathered conversation (second ++ earlier)).stepsByTurn turnId ∧
          (gathered conversation (first ++ earlier)).promptTokensByTurn turnId =
            (gathered conversation (second ++ earlier)).promptTokensByTurn turnId := by
  induction after generalizing first second with
  | nil => exact iff_of_true rfl (fun earlier event later same => by simp at same)
  | cons event rest ih =>
    have parts : (gathered conversation first).adds conversation event ++
          turnsAfter conversation (first ++ [event]) rest =
        (gathered conversation second).adds conversation event ++
          turnsAfter conversation (second ++ [event]) rest ↔ _ :=
      ⟨fun same => List.append_inj same adds_length, fun both => congrArg₂ _ both.1 both.2⟩
    rw [turnsAfter_cons, turnsAfter_cons, parts, adds_eq_iff, ih]
    constructor
    · rintro ⟨here, further⟩ earlier other later same turnId answers
      cases earlier with
      | nil =>
        obtain ⟨rfl, _⟩ := List.cons.inj same
        simpa using here turnId answers
      | cons one more =>
        obtain ⟨rfl, split⟩ := List.cons.inj same
        simpa using further more other later split turnId answers
    · intro all
      refine ⟨fun turnId answers => ?_, fun earlier other later same turnId answers => ?_⟩
      · simpa using all [] event rest rfl turnId answers
      · simpa [same] using all (event :: earlier) other later (by rw [same]; rfl) turnId answers

/-! ### What a later start leaves out -/

/-- No block, and no reported model call, of a turn is recorded after its reply. -/
def CallsFirst (conversation : ConversationId) (events : List TurnEvent) : Prop :=
  events.Pairwise fun earlier later => ∀ turnId, earlier.answers conversation turnId = true →
    later.stepOf conversation turnId = none ∧ later.priceOf conversation turnId = none

theorem stepsIn_append :
    stepsIn conversation turnId (before ++ after) =
      stepsIn conversation turnId before ++ stepsIn conversation turnId after :=
  List.filterMap_append

theorem priceIn_append :
    priceIn conversation turnId (before ++ after) =
      (priceIn conversation turnId before).or (priceIn conversation turnId after) :=
  List.findSome?_append

theorem price_of_answers (answers : event.answers conversation turnId = true) :
    event.priceOf conversation turnId = none := by
  unfold TurnEvent.answers at answers
  unfold TurnEvent.priceOf
  cases payload : event.payload with
  | modelCalled => simp [payload] at answers
  | luaExecuted | conversationTurn | turnSuperseded | ambientRecallSurfaced | other => rfl

theorem gathered_unanswered (unanswered : answeredIn conversation turnId after = false) :
    (gathered conversation (before ++ after)).stepsByTurn turnId =
        (gathered conversation before).stepsByTurn turnId ++ stepsIn conversation turnId after ∧
      (gathered conversation (before ++ after)).promptTokensByTurn turnId =
        ((gathered conversation before).promptTokensByTurn turnId).or
          (priceIn conversation turnId after) := by
  induction after using List.reverseRecOn with
  | nil => simp [stepsIn, priceIn]
  | append_singleton earlier event ih =>
    rw [answeredIn, List.any_append, Bool.or_eq_false_iff] at unanswered
    obtain ⟨steps, price⟩ := ih unanswered.1
    have other : event.answers conversation turnId = false := by simpa using unanswered.2
    rw [← List.append_assoc, gathered_snoc, read_stepsByTurn, read_promptTokensByTurn, other,
      stepsIn_append, priceIn_append, steps, price]
    constructor
    · cases found : event.stepOf conversation turnId <;> simp [stepsIn, found]
    · cases found : event.priceOf conversation turnId <;> simp [priceIn, found]

theorem gathered_answered (callsFirst : CallsFirst conversation before)
    (answered : answeredIn conversation turnId before = true) :
    (gathered conversation before).stepsByTurn turnId = [] ∧
      (gathered conversation before).promptTokensByTurn turnId = none := by
  induction before using List.reverseRecOn with
  | nil => cases answered
  | append_singleton earlier event ih =>
    rw [gathered_snoc, read_stepsByTurn, read_promptTokensByTurn]
    cases last : event.answers conversation turnId with
    | true => exact ⟨rfl, rfl⟩
    | false =>
      have already : answeredIn conversation turnId earlier = true := by
        rw [answeredIn, List.any_append, Bool.or_eq_true_iff] at answered
        exact answered.resolve_right (by simp [last])
      obtain ⟨first, _, following⟩ := List.pairwise_append.mp callsFirst
      obtain ⟨steps, price⟩ := ih first already
      obtain ⟨reply, member, answers⟩ := List.any_eq_true.mp already
      obtain ⟨noStep, noPrice⟩ := following reply member event List.mem_cons_self turnId answers
      simp [steps, price, noStep, noPrice]

theorem exists_first_answer (answered : answeredIn conversation turnId events = true) :
    ∃ earlier event later, events = earlier ++ event :: later ∧
      event.answers conversation turnId = true ∧ answeredIn conversation turnId earlier = false := by
  induction events with
  | nil => cases answered
  | cons event rest ih =>
    cases first : event.answers conversation turnId with
    | true => exact ⟨[], event, rest, rfl, first, rfl⟩
    | false =>
      have later : answeredIn conversation turnId rest = true := by
        simpa [answeredIn, first] using answered
      obtain ⟨earlier, reply, following, rfl, answers, unanswered⟩ := ih later
      refine ⟨event :: earlier, reply, following, rfl, answers, ?_⟩
      simpa [answeredIn, first] using unanswered

theorem price_from_answer {later : List TurnEvent}
    (pairs : CallsFirst conversation (event :: later))
    (answers : event.answers conversation turnId = true) :
    priceIn conversation turnId (event :: later) = none := by
  refine List.findSome?_eq_none_iff.mpr fun other member => ?_
  rcases List.mem_cons.mp member with rfl | further
  · exact price_of_answers answers
  · exact (List.rel_of_pairwise_cons pairs further turnId answers).2

theorem turnsAfter_eq_fresh_iff (callsFirst : CallsFirst conversation (before ++ after)) :
    turnsAfter conversation before after = turnsAfter conversation [] after ↔
      ∀ turnId, answeredIn conversation turnId before = false →
        answeredIn conversation turnId after = true →
        stepsIn conversation turnId before = [] ∧
          priceIn conversation turnId (before ++ after) = priceIn conversation turnId after := by
  obtain ⟨callsBefore, callsAfter, across⟩ := List.pairwise_append.mp callsFirst
  rw [turnsAfter_eq_iff]
  constructor
  · intro same turnId unanswered answered
    obtain ⟨earlier, reply, later, rfl, answers, first⟩ := exists_first_answer answered
    obtain ⟨steps, price⟩ := same earlier reply later rfl turnId answers
    have nothing : answeredIn conversation turnId (before ++ earlier) = false := by
      rw [answeredIn, List.any_append, ← answeredIn, ← answeredIn, unanswered, first]
      rfl
    have whole := @gathered_unanswered conversation turnId [] (before ++ earlier) nothing
    have part := @gathered_unanswered conversation turnId [] earlier first
    rw [List.nil_append] at whole part
    rw [List.nil_append, whole.1, part.1, stepsIn_append] at steps
    rw [List.nil_append, whole.2, part.2, priceIn_append] at price
    have rest := price_from_answer (List.pairwise_append.mp callsAfter).2.1 answers
    constructor
    · simpa [gathered] using steps
    · rw [priceIn_append, priceIn_append, rest, Option.or_none]
      simpa [gathered] using price
  · intro cond earlier reply later same turnId answers
    subst same
    rw [List.nil_append]
    obtain ⟨callsEarlier, pairs, following⟩ := List.pairwise_append.mp callsAfter
    cases already : answeredIn conversation turnId earlier with
    | true =>
      have whole : answeredIn conversation turnId (before ++ earlier) = true := by
        rw [answeredIn, List.any_append, ← answeredIn, ← answeredIn, already, Bool.or_true]
      have callsWhole : CallsFirst conversation (before ++ earlier) :=
        callsFirst.sublist ((List.prefix_append _ (reply :: later)).sublist.append_left before)
      obtain ⟨steps, price⟩ := gathered_answered callsWhole whole
      obtain ⟨steps', price'⟩ := gathered_answered callsEarlier already
      exact ⟨steps.trans steps'.symm, price.trans price'.symm⟩
    | false =>
      have whole := @gathered_unanswered conversation turnId before earlier already
      have part := @gathered_unanswered conversation turnId [] earlier already
      rw [List.nil_append] at part
      rw [whole.1, whole.2, part.1, part.2]
      have answered : answeredIn conversation turnId (earlier ++ reply :: later) = true :=
        List.any_eq_true.mpr ⟨reply, by simp, answers⟩
      cases before_ : answeredIn conversation turnId before with
      | true =>
        obtain ⟨steps, price⟩ := gathered_answered callsBefore before_
        rw [steps, price]
        exact ⟨rfl, rfl⟩
      | false =>
        obtain ⟨noStep, samePrice⟩ := cond turnId before_ answered
        have own := @gathered_unanswered conversation turnId [] before before_
        rw [List.nil_append] at own
        have rest := price_from_answer pairs answers
        rw [priceIn_append, priceIn_append, rest, Option.or_none] at samePrice
        rw [own.1, own.2, noStep]
        constructor
        · simp [gathered]
        · simpa [gathered] using samePrice

end Reading

end Zuihitsu.Turn
