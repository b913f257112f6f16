/-
# Running a block

A script runs as a transaction. What it buffers is committed with the record of the run
when it finishes, and dropped when it ends in an error; a run that outlasts its time is
tried again from scratch, unless it reached an outside tool. An abort and a skip are
marks on the block and errors that the script sees like any other, and the end of the
run is read off the error it ended in. What of this is all or nothing, and when, is said
of the last attempt.
-/

import Zuihitsu.Block.Operations
import Zuihitsu.Turn.Steps

namespace Zuihitsu.Turn

open Zuihitsu.Core Zuihitsu.Graph Zuihitsu.Library

/-! ### Errors -/

/-- An error of a script. One that leaves a function of the host is wrapped by it. -/
inductive LuaFailure where
  | runtime (message : String)
  | turnSkip (reason : Option String)
  | callback (cause : LuaFailure)
  deriving DecidableEq, Repr

namespace LuaFailure

/-- The skip an error is. -/
def downcast : LuaFailure → Option (Option String)
  | turnSkip reason => some reason
  | runtime _ | callback _ => none

/-- The skip the end of a run is read as: that of the error, or of what its callback raised. -/
def recognised : LuaFailure → Option (Option String)
  | callback cause => cause.downcast
  | failure => failure.downcast

/-- The skip an error stems from, however often it was wrapped. -/
def stems : LuaFailure → Option (Option String)
  | turnSkip reason => some reason
  | runtime _ => none
  | callback cause => cause.stems

/-- How often an error was wrapped. -/
def depth : LuaFailure → Nat
  | callback cause => cause.depth + 1
  | runtime _ | turnSkip _ => 0

theorem stems_of_downcast {failure : LuaFailure} {reason : Option String}
    (skip : failure.downcast = some reason) : failure.stems = some reason ∧ failure.depth = 0 := by
  cases failure with
  | turnSkip => exact ⟨skip, rfl⟩
  | _ => cases skip

theorem recognised_eq_some {failure : LuaFailure} {reason : Option String} :
    failure.recognised = some reason ↔ failure.stems = some reason ∧ failure.depth ≤ 1 := by
  constructor
  · intro skip
    cases failure with
    | callback =>
      have root := stems_of_downcast skip
      exact ⟨root.1, by simp [depth, root.2]⟩
    | turnSkip => exact ⟨skip, by simp [depth]⟩
    | runtime => cases skip
  · rintro ⟨root, near⟩
    match failure with
    | turnSkip _ => exact root
    | callback (turnSkip _) => exact root
    | callback (callback _) => simp [depth] at near
    | callback (runtime _) | runtime _ => cases root

theorem recognised_of_stems_none {failure : LuaFailure} (other : failure.stems = none) :
    failure.recognised = none := by
  cases recognised : failure.recognised with
  | none => rfl
  | some =>
    have stems := (recognised_eq_some.mp recognised).1
    rw [other] at stems
    cases stems

end LuaFailure

/-! ### Scripts -/

/-- The path a script takes through an attempt. A function of the host that calls back into
the script is a statement of its own, and so is a protected call; what a protected call
catches is kept in the globals. An attempt that stalls is one its time runs out on. -/
inductive Script where
  | returns (value : String)
  | operate (engine : Engine) (op : MemoryBlock.Operation) (rest : Script)
  | print (text : String) (rest : Script)
  | call (failure : Option String) (rest : Script)
  | pcall (body rest : Script)
  | host (body rest : Script)
  | abort (reason : Option String)
  | skip (reason : Option String)
  | raise (message : String)
  | rethrow (index : Nat)
  | stall

/-- What an attempt carries: its block with the marks a script leaves on it, what was
printed, the latch of the outside tools, and the errors that were caught. -/
structure Running where
  block : MemoryBlock
  aborted : Option String := none
  skip : Option String := none
  printed : String := ""
  madeCall : Bool := false
  caught : List LuaFailure := []
  deriving DecidableEq

/-- How a script ends. -/
inductive Ended where
  | returned (value : String)
  | failed (failure : LuaFailure)
  | timedOut
  deriving DecidableEq, Repr

/-- What the program words: a failed operation, the error a run ended in with its lesson,
and what a block changed. -/
structure BlockTexts where
  teachable : MemoryError → String
  failureText : LuaFailure → String
  summarizeCommitted : List EventPayload → Option String

/-- Run a script. -/
def Script.eval (texts : BlockTexts) : Script → Running → Running × Ended
  | returns value, running => (running, .returned value)
  | operate engine op rest, running =>
    match op.run engine running.block with
    | .ok block => rest.eval texts { running with block }
    | .error failure => (running, .failed (.callback (.runtime (texts.teachable failure))))
  | print text rest, running =>
    rest.eval texts { running with printed := running.printed ++ text ++ "\n" }
  | call failure rest, running =>
    -- the latch is set before the tool is reached
    match failure with
    | none => rest.eval texts { running with madeCall := true }
    | some message =>
      ({ running with madeCall := true }, .failed (.callback (.runtime message)))
  | pcall body rest, running =>
    match body.eval texts running with
    | (after, .returned _) => rest.eval texts after
    | (after, .failed failure) =>
      rest.eval texts { after with caught := after.caught ++ [failure] }
    | (after, .timedOut) => (after, .timedOut)
  | host body rest, running =>
    match body.eval texts running with
    | (after, .returned _) => rest.eval texts after
    | (after, .failed failure) => (after, .failed (.callback failure))
    | (after, .timedOut) => (after, .timedOut)
  | abort reason, running =>
    ({ running with aborted := some (reason.getD "") },
      .failed (.callback (.runtime "block aborted")))
  | skip reason, running =>
    ({ running with skip := some (reason.getD "") }, .failed (.callback (.turnSkip reason)))
  | raise message, running => (running, .failed (.runtime message))
  | rethrow index, running => (running, .failed (running.caught[index]?.getD (.runtime "nil")))
  | stall, running => (running, .timedOut)

/-! ### The records of a run -/

/-- What a block's run adds to the log. -/
inductive LogRecord where
  | effect (payload : EventPayload)
  | luaExecuted (conversation : ConversationId) (turnId : TurnId) (script : String)
      (result : Option String) (terminalCause : Option TerminalCause)
  deriving DecidableEq

/-- Whether a record is that of a run. -/
def LogRecord.isRun : LogRecord → Bool
  | luaExecuted .. => true
  | effect payload => payload = .luaExecuted

/-- The effect a record is. -/
def LogRecord.payload? : LogRecord → Option EventPayload
  | effect payload => some payload
  | luaExecuted .. => none

/-- The end of a run that a record tells. -/
def LogRecord.cause? : LogRecord → Option (Option TerminalCause)
  | luaExecuted _ _ _ _ terminalCause => some terminalCause
  | effect _ => none

/-- What a turn runs its blocks under. -/
structure BlockContext where
  conversation : ConversationId
  turnId : TurnId
  teller : Teller
  authority : Authority
  presentSet : List MemoryId
  maxEntryChars : Nat
  blockTimeout : Nat
  maxBlockAttempts : Nat
  dryRun : Bool

/-- Put what was printed before the value of a script. -/
def combineOutput (printed value : String) : String :=
  let printed := String.ofList (printed.toList.reverse.dropWhile (· = '\n')).reverse
  if printed.isEmpty then value
  else if value.isEmpty ∨ value = "nil" then printed
  else printed ++ "\n" ++ value

/-- Put the summary of what a block changed behind its result. -/
def withCommitSummary (rendered : String) : Option String → String
  | none => rendered
  | some summary =>
    let text := trimmed rendered.toList
    if text.isEmpty ∨ text = "nil".toList then summary else rendered ++ "\n\n" ++ summary

/-- The end of a run whose time ran out. -/
def timedOutCause (secs : Nat) : Option Nat → TerminalCause
  | some attempts =>
    .error ("the block exceeded its time budget of " ++ toString secs ++ "s on each of " ++
      toString attempts ++ " attempts and was aborted")
  | none =>
    .error ("the block exceeded its time budget of " ++ toString secs ++ "s and was aborted")

section Execute

variable (texts : BlockTexts) (context : BlockContext) (script : String)

/-- The record of a run. -/
def luaExecuted (result : Option String) (terminalCause : Option TerminalCause) : LogRecord :=
  .luaExecuted context.conversation context.turnId script result terminalCause

/-- Append the records of a run, and return its outcome. -/
def finish (log records : List LogRecord) (outcome : BlockOutcome) :
    List LogRecord × BlockOutcome :=
  (log ++ records, outcome)

/-- Record the end of a run that dropped its buffer. -/
def commitTerminal (log : List LogRecord) (cause : TerminalCause) :
    List LogRecord × BlockOutcome :=
  if context.dryRun then (log, .terminated cause)
  else finish log [luaExecuted context script none (some cause)] (.terminated cause)

/-- Settle a run that came to its end. -/
def settle (log : List LogRecord) (running : Running) (evaluated : Except LuaFailure String) :
    List LogRecord × BlockOutcome :=
  let events := running.block.buffer
  match evaluated with
  | .ok value =>
    let result := combineOutput running.printed value
    if context.dryRun then (log, .committed result)
    else
      let result := withCommitSummary result (texts.summarizeCommitted events)
      finish log (events.map .effect ++ [luaExecuted context script (some result) none])
        (.committed result)
  | .error failure =>
    match failure.recognised with
    | some skip =>
      if context.dryRun then (log, .skipped skip)
      else
        finish log (events.map .effect ++ [luaExecuted context script none (some (.skipped skip))])
          (.skipped skip)
    | none =>
      commitTerminal context script log <|
        match running.aborted with
        | some reason => .aborted reason
        | none => .error (texts.failureText failure)

/-- One attempt: the graph its block is opened over, and the path its script takes. -/
structure Attempt where
  graph : Graph
  path : Script

/-- Run an attempt: on a fresh block, in the globals the last one left. -/
def Attempt.run (attempt : Attempt) (caught : List LuaFailure) : Running × Ended :=
  attempt.path.eval texts
    { block := MemoryBlock.open attempt.graph context.teller context.authority
        (some context.conversation) (some context.turnId) context.presentSet context.maxEntryChars
      caught }

variable (attempts : Nat → Attempt)

/-- Run the attempts from one on, with so many left after it. -/
def executeFrom (log : List LogRecord) :
    (left attempt : Nat) → List LuaFailure → List LogRecord × BlockOutcome
  | left, attempt, caught =>
    match (attempts attempt).run texts context caught with
    | (running, .timedOut) =>
      -- what a tool did outside cannot be taken back, so nothing is tried again
      if running.madeCall then
        commitTerminal context script log (timedOutCause context.blockTimeout none)
      else
        match left with
        | 0 => commitTerminal context script log (timedOutCause context.blockTimeout (some attempt))
        | left + 1 => executeFrom log left (attempt + 1) running.caught
    | (running, .returned value) => settle texts context script log running (.ok value)
    | (running, .failed failure) => settle texts context script log running (.error failure)

/-- Execute a script as a transaction. -/
def execute (log : List LogRecord) (caught : List LuaFailure) : List LogRecord × BlockOutcome :=
  executeFrom texts context script attempts log (max 1 context.maxBlockAttempts - 1) 1 caught

/-! ### The attempts of a run -/

/-- The attempts made from one on: those that were tried again, and the last. -/
def attemptsFrom : (left attempt : Nat) → List LuaFailure →
    List (Running × Ended) × (Running × Ended)
  | left, attempt, caught =>
    match (attempts attempt).run texts context caught with
    | (running, .timedOut) =>
      if running.madeCall then ([], (running, .timedOut))
      else
        match left with
        | 0 => ([], (running, .timedOut))
        | left + 1 =>
          let later := attemptsFrom left (attempt + 1) running.caught
          ((running, .timedOut) :: later.1, later.2)
    | ended => ([], ended)

/-- The attempts an execution makes. -/
def attemptsMade (caught : List LuaFailure) : List (Running × Ended) × (Running × Ended) :=
  attemptsFrom texts context attempts (max 1 context.maxBlockAttempts - 1) 1 caught

/-- How the last attempt of a run is recorded, with what is said of one whose time ran out. -/
def conclude (log : List LogRecord) (overdue : String) :
    Running × Ended → List LogRecord × BlockOutcome
  | (_, .timedOut) => commitTerminal context script log (.error overdue)
  | (running, .returned value) => settle texts context script log running (.ok value)
  | (running, .failed failure) => settle texts context script log running (.error failure)

end Execute

section Attempts

variable {texts : BlockTexts} {context : BlockContext} {script : String}
variable {attempts : Nat → Attempt} {log : List LogRecord} {caught : List LuaFailure}

theorem executeFrom_eq_conclude (left attempt : Nat) (caught : List LuaFailure) :
    ∃ overdue, executeFrom texts context script attempts log left attempt caught =
      conclude texts context script log overdue
        (attemptsFrom texts context attempts left attempt caught).2 := by
  induction left generalizing attempt caught with
  | zero =>
    rw [executeFrom, attemptsFrom]
    rcases (attempts attempt).run texts context caught with ⟨running, value | failure | _⟩
    · exact ⟨"", rfl⟩
    · exact ⟨"", rfl⟩
    · by_cases called : running.madeCall = true
      · simp only [called, if_true]
        exact ⟨_, rfl⟩
      · simp only [called]
        exact ⟨_, rfl⟩
  | succ left ih =>
    rw [executeFrom, attemptsFrom]
    rcases (attempts attempt).run texts context caught with ⟨running, value | failure | _⟩
    · exact ⟨"", rfl⟩
    · exact ⟨"", rfl⟩
    · by_cases called : running.madeCall = true
      · simp only [called, if_true]
        exact ⟨_, rfl⟩
      · simp only [called]
        exact ih (attempt + 1) running.caught

theorem attemptsFrom_earlier (left attempt : Nat) (caught : List LuaFailure) :
    ∀ earlier ∈ (attemptsFrom texts context attempts left attempt caught).1,
      earlier.1.madeCall = false := by
  induction left generalizing attempt caught with
  | zero =>
    rw [attemptsFrom]
    split
    · split <;> simp
    · simp
  | succ left ih =>
    rw [attemptsFrom]
    split
    · split
      · simp
      · rename_i running _ called
        intro earlier member
        rcases List.mem_cons.mp member with rfl | member
        · simpa using called
        · exact ih (attempt + 1) running.caught earlier member
    · simp

theorem attemptsFrom_last (left attempt : Nat) (caught : List LuaFailure) :
    ∃ number caught', (attemptsFrom texts context attempts left attempt caught).2 =
      (attempts number).run texts context caught' := by
  induction left generalizing attempt caught with
  | zero =>
    rw [attemptsFrom]
    refine ⟨attempt, caught, ?_⟩
    rcases (attempts attempt).run texts context caught with ⟨running, value | failure | _⟩
    · rfl
    · rfl
    · dsimp only
      split <;> rfl
  | succ left ih =>
    rw [attemptsFrom]
    rcases ran : (attempts attempt).run texts context caught with ⟨running, value | failure | _⟩
    · exact ⟨attempt, caught, ran.symm⟩
    · exact ⟨attempt, caught, ran.symm⟩
    · by_cases called : running.madeCall = true
      · simp only [called, if_true]
        exact ⟨attempt, caught, ran.symm⟩
      · simp only [called]
        exact ih (attempt + 1) running.caught

/-! ### What a script buffers -/

theorem Script.eval_buffer (path : Script) (running : Running)
    (quiet : EventPayload.luaExecuted ∉ running.block.buffer) :
    EventPayload.luaExecuted ∉ (path.eval texts running).1.block.buffer := by
  induction path generalizing running with
  | returns | abort | skip | raise | rethrow | stall => exact quiet
  | operate engine op rest ih =>
    rw [Script.eval]
    cases ran : op.run engine running.block with
    | error => exact quiet
    | ok block =>
      refine ih _ ?_
      have calls : MemoryBlock.Calls engine.graph running.block (engine.now, op) block := ran
      obtain ⟨events, buffers, kinds⟩ := MemoryBlock.call_mayBuffer calls
      intro member
      rw [buffers.buffer, List.mem_append] at member
      rcases member with member | member
      · exact quiet member
      · have kind := kinds _ member
        cases op <;> cases kind
  | print text rest ih => exact ih _ quiet
  | call failure rest ih =>
    cases failure with
    | none => exact ih _ quiet
    | some => exact quiet
  | pcall body rest ihBody ihRest =>
    have inner := ihBody running quiet
    rw [Script.eval]
    generalize body.eval texts running = ran at inner ⊢
    rcases ran with ⟨after, value | failure | _⟩
    · exact ihRest _ inner
    · exact ihRest _ inner
    · exact inner
  | host body rest ihBody ihRest =>
    have inner := ihBody running quiet
    rw [Script.eval]
    generalize body.eval texts running = ran at inner ⊢
    rcases ran with ⟨after, value | failure | _⟩
    · exact ihRest _ inner
    · exact inner
    · exact inner

variable (texts context attempts caught)

theorem attemptsMade_buffer :
    EventPayload.luaExecuted ∉ (attemptsMade texts context attempts caught).2.1.block.buffer := by
  obtain ⟨number, caught', last⟩ :=
    @attemptsFrom_last texts context attempts (max 1 context.maxBlockAttempts - 1) 1 caught
  rw [attemptsMade, last]
  exact Script.eval_buffer _ _ List.not_mem_nil

theorem attemptsMade_earlier :
    ∀ earlier ∈ (attemptsMade texts context attempts caught).1, earlier.1.madeCall = false :=
  attemptsFrom_earlier _ 1 caught

theorem execute_eq_conclude (script : String) (log : List LogRecord) :
    ∃ overdue, execute texts context script attempts log caught =
      conclude texts context script log overdue (attemptsMade texts context attempts caught).2 :=
  executeFrom_eq_conclude _ 1 caught

end Attempts

/-! ### All or nothing -/

/-- The records a run adds to a log. -/
def gained (log after : List LogRecord) : List LogRecord := after.drop log.length

/-- The effects among some records. -/
def payloads (records : List LogRecord) : List EventPayload := records.filterMap LogRecord.payload?

/-- The ends of runs among some records. -/
def causes (records : List LogRecord) : List (Option TerminalCause) :=
  records.filterMap LogRecord.cause?

/-- What a run owes the log and its caller: one record of itself, the effects of its last
attempt or none, and an end that the abort, the skip or the error of that attempt
decides. -/
structure AllOrNothing (log : List LogRecord) (ran : List LogRecord × BlockOutcome)
    (earlier : List (Running × Ended)) (last : Running × Ended) : Prop where
  grows : log <+: ran.1
  recorded : (gained log ran.1).countP LogRecord.isRun = 1
  effects : payloads (gained log ran.1) = [] ∨
    payloads (gained log ran.1) = last.1.block.buffer
  aborted : ∀ reason, last.1.aborted = some reason →
    payloads (gained log ran.1) = [] ∧ causes (gained log ran.1) = [some (.aborted reason)]
  skipped : ∀ failure reason, last.2 = .failed failure → failure.stems = some reason →
    payloads (gained log ran.1) = last.1.block.buffer ∧ ran.2 = .skipped reason
  failed : ∀ failure, last.2 = .failed failure → failure.stems = none →
    payloads (gained log ran.1) = []
  overdue : last.2 = .timedOut → payloads (gained log ran.1) = []
  final : ∀ attempt ∈ earlier, attempt.1.madeCall = false

/-- An attempt whose marks and error agree: what aborted ended in an error that is no skip,
and a skip it ended in was wrapped once at most. -/
structure Clean (attempt : Running × Ended) : Prop where
  aborted : ∀ reason, attempt.1.aborted = some reason →
    ∃ failure, attempt.2 = .failed failure ∧ failure.stems = none
  skipped : ∀ failure reason, attempt.2 = .failed failure → failure.stems = some reason →
    failure.depth ≤ 1

section Records

variable {context : BlockContext} {script : String} {log : List LogRecord}
variable {effects : List EventPayload} {result : Option String}
variable {cause : Option TerminalCause}

/-- The records of a run: its effects, and the record of itself. -/
def records (context : BlockContext) (script : String) (effects : List EventPayload)
    (result : Option String) (cause : Option TerminalCause) : List LogRecord :=
  effects.map .effect ++ [luaExecuted context script result cause]

@[simp] theorem gained_append (more : List LogRecord) : gained log (log ++ more) = more :=
  List.drop_left

@[simp] theorem payloads_records : payloads (records context script effects result cause) = effects := by
  simp [payloads, records, luaExecuted, LogRecord.payload?, List.filterMap_map, Function.comp_def]

@[simp] theorem causes_records : causes (records context script effects result cause) = [cause] := by
  simp [causes, records, luaExecuted, LogRecord.cause?, List.filterMap_map, Function.comp_def]

theorem countP_records (quiet : EventPayload.luaExecuted ∉ effects) :
    (records context script effects result cause).countP LogRecord.isRun = 1 := by
  simp only [records, luaExecuted, List.countP_append, List.countP_map, Function.comp_def,
    List.countP_singleton, LogRecord.isRun, if_true, Nat.add_eq_right, List.countP_eq_zero,
    decide_eq_true_eq]
  exact fun payload member same => quiet (same ▸ member)

end Records

/-- How an attempt ends a run: what it commits, the end that is recorded, and the outcome. -/
inductive Concludes : Running × Ended → List EventPayload → Option TerminalCause →
    BlockOutcome → Prop where
  | committed {running : Running} (value result : String) :
    Concludes (running, .returned value) running.block.buffer none (.committed result)
  | skipped {running : Running} {failure : LuaFailure} (reason : Option String)
      (skip : failure.recognised = some reason) :
    Concludes (running, .failed failure) running.block.buffer (some (.skipped reason))
      (.skipped reason)
  | aborted {running : Running} {failure : LuaFailure} (reason : String)
      (other : failure.recognised = none) (marked : running.aborted = some reason) :
    Concludes (running, .failed failure) [] (some (.aborted reason))
      (.terminated (.aborted reason))
  | errored {running : Running} {failure : LuaFailure} (message : String)
      (other : failure.recognised = none) (unmarked : running.aborted = none) :
    Concludes (running, .failed failure) [] (some (.error message)) (.terminated (.error message))
  | overdue {running : Running} (message : String) :
    Concludes (running, .timedOut) [] (some (.error message)) (.terminated (.error message))

section Concluding

variable {texts : BlockTexts} {context : BlockContext} {script : String}
variable {attempts : Nat → Attempt} {log : List LogRecord} {caught : List LuaFailure}
variable {last : Running × Ended} {earlier : List (Running × Ended)}

theorem conclude_records (live : context.dryRun = false) (overdue : String) :
    ∃ effects result cause outcome, Concludes last effects cause outcome ∧
      conclude texts context script log overdue last =
        (log ++ records context script effects result cause, outcome) := by
  rcases last with ⟨running, value | failure | _⟩
  · let result := withCommitSummary (combineOutput running.printed value)
      (texts.summarizeCommitted running.block.buffer)
    refine ⟨_, some result, _, _, .committed value result, ?_⟩
    simp only [conclude, settle, live, finish, records]
    rfl
  · cases skip : failure.recognised with
    | some reason =>
      refine ⟨_, none, _, _, .skipped reason skip, ?_⟩
      simp only [conclude, settle, skip, live, finish, records]
      rfl
    | none =>
      cases marked : running.aborted with
      | some reason =>
        refine ⟨_, none, _, _, .aborted reason skip marked, ?_⟩
        simp only [conclude, settle, skip, marked, commitTerminal, live, finish, records]
        rfl
      | none =>
        refine ⟨_, none, _, _, .errored (texts.failureText failure) skip marked, ?_⟩
        simp only [conclude, settle, skip, marked, commitTerminal, live, finish, records]
        rfl
  · refine ⟨_, none, _, _, .overdue overdue, ?_⟩
    simp only [conclude, commitTerminal, live, finish, records]
    rfl

theorem Concludes.effects {effects : List EventPayload} {cause : Option TerminalCause}
    {outcome : BlockOutcome} (concludes : Concludes last effects cause outcome) :
    effects = [] ∨ effects = last.1.block.buffer := by
  cases concludes with
  | committed | skipped => exact .inr rfl
  | aborted | errored | overdue => exact .inl rfl

theorem Concludes.of_aborted {effects : List EventPayload} {cause : Option TerminalCause}
    {outcome : BlockOutcome} {reason : String} (clean : Clean last)
    (concludes : Concludes last effects cause outcome) (marked : last.1.aborted = some reason) :
    effects = [] ∧ cause = some (.aborted reason) := by
  obtain ⟨failure, ended, other⟩ := clean.aborted reason marked
  have unrecognised := LuaFailure.recognised_of_stems_none other
  cases concludes with
  | committed | overdue => cases ended
  | skipped reason skip =>
    cases ended
    rw [unrecognised] at skip
    cases skip
  | aborted reason' _ marked' =>
    cases marked.symm.trans marked'
    exact ⟨rfl, rfl⟩
  | errored _ _ unmarked => cases marked.symm.trans unmarked

theorem Concludes.of_skipped {effects : List EventPayload} {cause : Option TerminalCause}
    {outcome : BlockOutcome} {failure : LuaFailure} {reason : Option String}
    (concludes : Concludes last effects cause outcome) (ended : last.2 = .failed failure)
    (stems : failure.stems = some reason) (near : failure.depth ≤ 1) :
    effects = last.1.block.buffer ∧ outcome = .skipped reason := by
  have recognised := LuaFailure.recognised_eq_some.mpr ⟨stems, near⟩
  cases concludes with
  | committed | overdue => cases ended
  | skipped reason' skip =>
    cases ended
    cases recognised.symm.trans skip
    exact ⟨rfl, rfl⟩
  | aborted _ other | errored _ other =>
    cases ended
    cases recognised.symm.trans other

theorem Concludes.of_failed {effects : List EventPayload} {cause : Option TerminalCause}
    {outcome : BlockOutcome} {failure : LuaFailure}
    (concludes : Concludes last effects cause outcome) (ended : last.2 = .failed failure)
    (other : failure.stems = none) : effects = [] := by
  cases concludes with
  | committed => cases ended
  | skipped reason skip =>
    cases ended
    cases (LuaFailure.recognised_of_stems_none other).symm.trans skip
  | aborted | errored | overdue => rfl

theorem Concludes.of_timedOut {effects : List EventPayload} {cause : Option TerminalCause}
    {outcome : BlockOutcome} (concludes : Concludes last effects cause outcome)
    (ended : last.2 = .timedOut) : effects = [] := by
  cases concludes with
  | committed | skipped => cases ended
  | aborted | errored | overdue => rfl

theorem Concludes.clean {effects : List EventPayload} {cause : Option TerminalCause}
    {outcome : BlockOutcome} (concludes : Concludes last effects cause outcome)
    (aborted : ∀ reason, last.1.aborted = some reason → cause = some (.aborted reason))
    (skipped : ∀ failure reason, last.2 = .failed failure → failure.stems = some reason →
      outcome = .skipped reason) : Clean last := by
  have near : ∀ failure reason, last.2 = .failed failure → failure.stems = some reason →
      failure.depth ≤ 1 := by
    intro failure reason ended stems
    have outcome := skipped failure reason ended stems
    cases concludes with
    | committed | overdue => cases ended
    | skipped reason' skip =>
      cases ended
      exact (LuaFailure.recognised_eq_some.mp skip).2
    | aborted | errored => cases outcome
  refine ⟨fun reason marked => ?_, near⟩
  have recorded := aborted reason marked
  cases concludes with
  | committed | skipped | errored | overdue => cases recorded
  | @aborted running failure _ other =>
    refine ⟨failure, rfl, ?_⟩
    cases stems : failure.stems with
    | none => rfl
    | some reason' => cases skipped failure reason' rfl stems

end Concluding

/-- A run that is no dry one is all or nothing exactly when the marks and the error of its
last attempt agree. -/
theorem execute_allOrNothing_iff (texts : BlockTexts) (context : BlockContext) (script : String)
    (attempts : Nat → Attempt) (log : List LogRecord) (caught : List LuaFailure)
    (live : context.dryRun = false) :
    AllOrNothing log (execute texts context script attempts log caught)
        (attemptsMade texts context attempts caught).1
        (attemptsMade texts context attempts caught).2 ↔
      Clean (attemptsMade texts context attempts caught).2 := by
  have final := attemptsMade_earlier texts context attempts caught
  have quiet := attemptsMade_buffer texts context attempts caught
  obtain ⟨overdue, ran⟩ := execute_eq_conclude texts context attempts caught script log
  generalize attemptsMade texts context attempts caught = made at *
  obtain ⟨effects, result, cause, outcome, concludes, ended⟩ :=
    @conclude_records texts context script log made.2 live overdue
  rw [ran, ended]
  constructor
  · intro all
    refine concludes.clean (fun reason marked => ?_) fun failure reason ended stems =>
      (all.skipped failure reason ended stems).2
    have recorded := (all.aborted reason marked).2
    simpa using recorded
  · intro clean
    refine
      { grows := List.prefix_append _ _
        recorded := ?_
        effects := by simpa using concludes.effects
        aborted := fun reason marked => by
          simpa using concludes.of_aborted clean marked
        skipped := fun failure reason ended stems => by
          simpa using concludes.of_skipped ended stems (clean.skipped failure reason ended stems)
        failed := fun failure ended other => by simpa using concludes.of_failed ended other
        overdue := fun ended => by simpa using concludes.of_timedOut ended
        final := final }
    rw [gained_append]
    refine countP_records fun member => ?_
    rcases concludes.effects with none | buffered
    · rw [none] at member
      cases member
    · exact quiet (buffered ▸ member)

namespace Swallowed

def texts : BlockTexts where
  teachable _ := "refused"
  failureText _ := "failed"
  summarizeCommitted _ := none

def context : BlockContext where
  conversation := ⟨1⟩
  turnId := ⟨2⟩
  teller := .agent
  authority := .platform
  presentSet := []
  maxEntryChars := 100
  blockTimeout := 30
  maxBlockAttempts := 2
  dryRun := false

/-- Keeps a tag in the buffer. -/
def tagging (rest : Script) : Script :=
  .operate ⟨{}, ⟨0⟩⟩ (.createTag ⟨"draft"⟩ "unfinished notes") rest

/-- Catches its own abort, and goes on. -/
def catches (_ : Nat) : Attempt where
  graph := {}
  path := tagging (.pcall (.abort (some "wrong room")) (.returns "done"))

/-- Skips the turn inside a function the host calls back into. -/
def nests (_ : Nat) : Attempt where
  graph := {}
  path := tagging (.host (.skip none) (.returns "done"))

/-- Stalls at first, and then gives up in so many words. -/
def retries : Nat → Attempt
  | 1 => ⟨{}, tagging .stall⟩
  | _ => ⟨{}, tagging (.abort (some "wrong room"))⟩

end Swallowed

/-- The effects of a block that aborted are committed when its script catches the abort, and
those of one that skipped are dropped when the skip was wrapped twice. -/
theorem Swallowed.not_allOrNothing :
    ¬ AllOrNothing [] (execute texts context "" catches [] [])
        (attemptsMade texts context catches []).1 (attemptsMade texts context catches []).2 ∧
      ¬ AllOrNothing [] (execute texts context "" nests [] [])
        (attemptsMade texts context nests []).1 (attemptsMade texts context nests []).2 := by
  refine ⟨fun all => ?_, fun all => ?_⟩
  · have aborted := (all.aborted "wrong room" (by decide)).1
    have committed : payloads (gained [] (execute texts context "" catches [] []).1) =
        [.tagCreated ⟨"draft"⟩ "unfinished notes"] := by decide
    rw [committed] at aborted
    cases aborted
  · have skipped := (all.skipped (.callback (.callback (.turnSkip none))) none (by decide) rfl).1
    have dropped : payloads (gained [] (execute texts context "" nests [] []).1) = [] := by decide
    rw [dropped] at skipped
    exact absurd skipped (by decide)

theorem Swallowed.retries_allOrNothing :
    context.dryRun = false ∧
      (AllOrNothing [] (execute texts context "" retries [] [])
          (attemptsMade texts context retries []).1 (attemptsMade texts context retries []).2 ↔
        Clean (attemptsMade texts context retries []).2) ∧
      (execute texts context "" retries [] []).2 = .terminated (.aborted "wrong room") :=
  ⟨rfl, execute_allOrNothing_iff texts context "" retries [] [] rfl, by decide⟩

end Zuihitsu.Turn
