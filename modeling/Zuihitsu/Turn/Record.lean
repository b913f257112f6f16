/-
# What a turn records

The events of a conversation with the data its replay reads: the model calls, the
blocks they ran, and the turns with their texts. The other events of the log are
one payload here. A model call carries the delta of its request since the call
before it, and a digest of the request that was sent.
-/

import Zuihitsu.Core.Text

namespace Zuihitsu.Turn

open Zuihitsu.Core

/-! ### What the model is sent, and what it answers -/

/-- Who a message is from. -/
inductive Role where
  | system
  | user
  | assistant
  | tool
  deriving DecidableEq, Repr

/-- An image a message shows the model. The bytes are outside the record, and the address
of the blob names them. -/
structure ImagePart where
  blob : String
  mime : String
  deriving DecidableEq, Repr

/-- A tool call of the model. -/
structure ToolCall where
  id : String
  name : String
  arguments : String
  deriving DecidableEq, Repr

/-- A message handed to the model. -/
structure Message where
  role : Role
  content : String
  images : List ImagePart := []
  toolCalls : List ToolCall := []
  toolCallId : Option String := none
  deriving DecidableEq, Repr

namespace Message

def user (content : String) : Message := { role := .user, content }

def assistant (content : String) : Message := { role := .assistant, content }

def system (content : String) : Message := { role := .system, content }

/-- The step of the assistant that made these calls. -/
def assistantToolCalls (toolCalls : List ToolCall) : Message :=
  { role := .assistant, content := "", toolCalls }

/-- The result of one call. -/
def toolResult (toolCallId content : String) : Message :=
  { role := .tool, content, toolCallId := some toolCallId }

end Message

/-- A tool the model may call, with the schema of its arguments. -/
structure ToolSpec where
  name : String
  description : String
  parameters : String
  deriving DecidableEq, Repr

/-- How the model may use the tools. -/
inductive ToolChoice where
  | auto
  | required
  | none
  deriving DecidableEq, Repr

/-- A request to the model. -/
structure GenerateRequest where
  system : String
  messages : List Message
  tools : List ToolSpec
  toolChoice : ToolChoice
  responseFormat : Option String
  thinking : Option Bool
  deriving DecidableEq, Repr

/-- What the model answers one request with. -/
inductive Completion where
  | toolCalls (calls : List ToolCall)
  | reply (text : String)
  | silent
  deriving DecidableEq, Repr

/-! ### What the log keeps of it -/

/-- What a model call is for. -/
inductive ModelPhase where
  | step
  | synthesis
  deriving DecidableEq, Repr

/-- The request side of a recorded call: the whole request for the first call of a phase,
and what was appended since for the later ones. -/
inductive RequestRecord where
  | base (system : String) (messages : List Message) (tools : List ToolSpec)
      (toolChoice : ToolChoice) (thinking : Option Bool)
  | continuation (appendedMessages : List Message)
  deriving DecidableEq, Repr

/-- Who a turn is by. -/
inductive TurnRole where
  | participant
  | agent
  | system
  deriving DecidableEq, Repr

/-- Why a block ended without a result. -/
inductive TerminalCause where
  | error (message : String)
  | aborted (reason : String)
  | skipped (reason : Option String)
  deriving DecidableEq, Repr

/-- A file a message carried. -/
structure Attachment where
  name : String
  mime : String
  blob : String
  byteLen : Nat
  deriving DecidableEq, Repr

/-- Whether an inference was a flush. -/
def isFlush (producedBy : ProducedBy) : Bool := producedBy.templateName = .flush

/-- The payloads a replay of a conversation reads. -/
inductive TurnPayload where
  | modelCalled (conversation : ConversationId) (turnId : TurnId) (phase : ModelPhase)
      (requestDigest : String) (request : Option RequestRecord) (promptTokens : Option Nat)
  | luaExecuted (conversation : ConversationId) (turnId : TurnId) (script : String)
      (result : Option String) (terminalCause : Option TerminalCause)
  | conversationTurn (conversation : ConversationId) (turnId : TurnId) (role : TurnRole)
      (text : String) (participant : Option MemoryId) (producedBy : Option ProducedBy)
      (attachments : List Attachment)
  | turnSuperseded (conversation : ConversationId) (turnId : TurnId) (text : String)
  | ambientRecallSurfaced (conversation : ConversationId) (turnId : TurnId) (text : String)
  | other
  deriving DecidableEq

/-- A recorded event. -/
structure TurnEvent where
  seq : Nat
  recordedAt : Timestamp
  payload : TurnPayload
  deriving DecidableEq

/-! ### Failures the model is taught by -/

/-- A failure that goes back to the model as the result of its call. -/
inductive ToolError where
  | unknownTool (name : String)
  | invalidArguments (message : String)
  | blockError (message : String)
  | blockAborted (reason : String)
  deriving DecidableEq, Repr

/-- The text of an abort, by its reason. -/
def abortText (reason : String) : String :=
  "aborted: " ++ if (trimmed reason.toList).isEmpty then "(no reason given)" else reason

/-- The text of a failure, where `debug` quotes a name. -/
def ToolError.display (debug : String → String) : ToolError → String
  | unknownTool name => "error: no such tool " ++ debug name ++ "; the only available tool is run_lua"
  | invalidArguments message => "error: invalid run_lua arguments: " ++ message
  | blockError message => "error: " ++ message
  | blockAborted reason => abortText reason

/-- The failure a block's end is. -/
def TerminalCause.toolError : TerminalCause → ToolError
  | error message => .blockError message
  | aborted reason => .blockAborted reason
  | skipped reason => .blockAborted (reason.getD "")

/-- The text of a block's end. -/
def TerminalCause.display : TerminalCause → String
  | error message => "error: " ++ message
  | aborted reason => abortText reason
  | skipped reason => abortText (reason.getD "")

end Zuihitsu.Turn
