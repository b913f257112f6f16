/-
# The response of the model

A response arrives whole or in chunks. The assembler folds the chunks, keyed by index where
they belong to a tool call, and maps what it has through the mapper of the whole body; so
however a body is cut, what is streamed is what the whole would have been.
-/

import Mathlib.Data.List.Flatten
import Mathlib.Data.List.Sort
import Std.Data.TreeMap.Lemmas
import Zuihitsu.Core.Text

namespace Zuihitsu.Model

open Zuihitsu.Core

/-! ### The whole body -/

/-- The breakdown of the prompt's tokens some servers attach. -/
structure PromptTokensDetails where
  cachedTokens : Option Nat
  deriving DecidableEq, Repr

/-- The usage as the server reports it. -/
structure ChatUsage where
  promptTokens : Nat
  completionTokens : Option Nat
  totalTokens : Option Nat
  promptTokensDetails : Option PromptTokensDetails
  deriving DecidableEq, Repr

/-- The function a tool call names. -/
structure ChatFunctionCall where
  name : List Char
  arguments : List Char
  deriving DecidableEq, Repr

/-- A tool call of the body. -/
structure ChatToolCall where
  id : List Char
  function : ChatFunctionCall
  deriving DecidableEq, Repr

/-- The message of a choice. -/
structure ChatMessage where
  content : Option (List Char)
  reasoningContent : Option (List Char)
  toolCalls : List ChatToolCall
  deriving DecidableEq, Repr

/-- A choice of the body. -/
structure ChatChoice where
  message : ChatMessage
  finishReason : Option (List Char)
  deriving DecidableEq, Repr

/-- The body of a response. -/
structure ChatResponse where
  choices : List ChatChoice
  usage : Option ChatUsage
  deriving DecidableEq, Repr

/-- The usage a call records. -/
structure Usage where
  promptTokens : Option Nat
  completionTokens : Option Nat
  totalTokens : Option Nat
  cacheReadTokens : Option Nat
  cacheWriteTokens : Option Nat
  deriving DecidableEq, Repr

/-- A tool call the turn executes. -/
structure ToolCall where
  id : List Char
  name : List Char
  arguments : List Char
  deriving DecidableEq, Repr

/-- What the model answered with. -/
inductive Completion where
  | reply (text : List Char)
  | toolCalls (calls : List ToolCall)
  deriving DecidableEq, Repr

/-- A response, mapped. -/
structure GenerateResponse where
  completion : Completion
  usage : Usage
  reasoning : Option (List Char)
  finishReason : Option (List Char)
  deriving DecidableEq, Repr

/-- A failure of inference. -/
inductive ModelError where
  | backend (model message : String) (transient : Bool)
  | circuitOpen (model : String)
  | exhausted
  deriving DecidableEq, Repr

/-- Whether a retry against the same backend could succeed. -/
def ModelError.isTransient : ModelError → Bool
  | .backend _ _ transient => transient
  | .circuitOpen _ | .exhausted => false

/-- The failure in words. -/
def ModelError.display : ModelError → String
  | .backend model message _ =>
    if model.isEmpty then "model: " ++ message else "model: " ++ model ++ ": " ++ message
  | .circuitOpen model =>
    "model: " ++ model ++ ": the circuit is open after repeated backend failures; " ++
      "failing fast without calling the backend"
  | .exhausted => "model: the scripted model has no more programmed responses"

/-- Tool calls win over a reply, and a reply is trimmed. -/
def intoCompletion (message : ChatMessage) : Completion :=
  if message.toolCalls ≠ [] then
    .toolCalls (message.toolCalls.map fun call =>
      ⟨call.id, call.function.name, call.function.arguments⟩)
  else .reply (trimmed (message.content.getD []))

/-- Map a body. -/
def intoResponse (response : ChatResponse) : Except ModelError GenerateResponse :=
  let usage : Usage := {
    promptTokens := response.usage.map (·.promptTokens)
    completionTokens := response.usage.bind (·.completionTokens)
    totalTokens := response.usage.bind (·.totalTokens)
    cacheReadTokens := (response.usage.bind (·.promptTokensDetails)).bind (·.cachedTokens)
    cacheWriteTokens := none }
  match response.choices.head? with
  | none => .error (.backend "" "response contained no choices" false)
  | some choice =>
    .ok {
      completion := intoCompletion choice.message
      usage := usage
      reasoning := choice.message.reasoningContent.filter (!·.isEmpty)
      finishReason := choice.finishReason }

/-! ### The chunks -/

/-- The fragment of a function call. -/
structure ChunkFunction where
  name : Option (List Char)
  arguments : Option (List Char)
  deriving DecidableEq, Repr

/-- The fragment of a tool call, by the index of the call. -/
structure ChunkToolCall where
  index : Nat
  id : Option (List Char)
  function : Option ChunkFunction
  deriving DecidableEq, Repr

/-- What a chunk adds to a message. -/
structure ChunkDelta where
  content : Option (List Char)
  reasoningContent : Option (List Char)
  toolCalls : List ChunkToolCall
  deriving DecidableEq, Repr

/-- A choice of a chunk. -/
structure ChunkChoice where
  delta : ChunkDelta
  finishReason : Option (List Char)
  deriving DecidableEq, Repr

/-- One chunk of a stream. -/
structure ChatChunk where
  choices : List ChunkChoice
  usage : Option ChatUsage
  deriving DecidableEq, Repr

/-- A fragment of a generation: text for whoever watches, the mark that what was streamed before
it is void, or the terminal. -/
inductive GenerateDelta where
  | reasoning (fragment : List Char)
  | reply (fragment : List Char)
  | restarted (attempt : Nat) (cause : String)
  | finished (response : GenerateResponse)
  deriving DecidableEq, Repr

/-- A tool call as far as it has arrived. -/
structure PartialToolCall where
  id : List Char := []
  name : List Char := []
  arguments : List Char := []
  deriving DecidableEq, Repr, Inhabited

/-- What has arrived. -/
structure StreamAssembler where
  content : List Char := []
  reasoning : List Char := []
  toolCalls : Std.TreeMap Nat PartialToolCall := {}
  finishReason : Option (List Char) := none
  usage : Option ChatUsage := none
  sawChunk : Bool := false

/-- A fragment extends the call it belongs to. -/
def PartialToolCall.extend (call : PartialToolCall) (fragment : ChunkToolCall) : PartialToolCall :=
  let call := match fragment.id with
    | some id => { call with id := id }
    | none => call
  match fragment.function with
  | none => call
  | some function =>
    let call := match function.name with
      | some name => { call with name := name }
      | none => call
    match function.arguments with
    | some arguments => { call with arguments := call.arguments ++ arguments }
    | none => call

namespace StreamAssembler

/-- Absorb the fragment of a tool call. -/
def foldCall (calls : Std.TreeMap Nat PartialToolCall) (fragment : ChunkToolCall) :
    Std.TreeMap Nat PartialToolCall :=
  calls.insert fragment.index ((calls[fragment.index]?.getD {}).extend fragment)

/-- Absorb a choice, with the fragments so far. -/
def foldChoice (read : StreamAssembler × List GenerateDelta) (choice : ChunkChoice) :
    StreamAssembler × List GenerateDelta :=
  let (assembler, fragments) := read
  let assembler := match choice.finishReason with
    | some reason => { assembler with finishReason := some reason }
    | none => assembler
  let (assembler, fragments) := match choice.delta.reasoningContent with
    | some reasoning =>
      if reasoning.isEmpty then (assembler, fragments)
      else ({ assembler with reasoning := assembler.reasoning ++ reasoning },
        fragments ++ [GenerateDelta.reasoning reasoning])
    | none => (assembler, fragments)
  let (assembler, fragments) := match choice.delta.content with
    | some content =>
      if content.isEmpty then (assembler, fragments)
      else ({ assembler with content := assembler.content ++ content },
        fragments ++ [GenerateDelta.reply content])
    | none => (assembler, fragments)
  ({ assembler with toolCalls := choice.delta.toolCalls.foldl foldCall assembler.toolCalls },
    fragments)

/-- Absorb a chunk, and hand out the fragments a viewer should see. -/
def fold (assembler : StreamAssembler) (chunk : ChatChunk) : StreamAssembler × List GenerateDelta :=
  let assembler := { assembler with sawChunk := true }
  let assembler := match chunk.usage with
    | some usage => { assembler with usage := some usage }
    | none => assembler
  chunk.choices.foldl foldChoice (assembler, [])

/-- The response assembled, through the mapper of the whole body. -/
def finish (assembler : StreamAssembler) : Except ModelError GenerateResponse :=
  if !assembler.sawChunk then
    .error (.backend "" "the stream closed without a single chunk" true)
  else if assembler.usage.isNone then
    .error (.backend "" ("the stream finished without reporting prompt_tokens, though the " ++
      "request set stream_options.include_usage") true)
  else
    intoResponse {
      choices := [{
        message := {
          content := some assembler.content
          reasoningContent :=
            if assembler.reasoning.isEmpty then none else some assembler.reasoning
          toolCalls := assembler.toolCalls.toList.map fun entry =>
            ⟨entry.2.id, ⟨entry.2.name, entry.2.arguments⟩⟩ }
        finishReason := assembler.finishReason }]
      usage := assembler.usage }

/-- Fold a chunk after others, with all that was handed out. -/
def push (read : StreamAssembler × List GenerateDelta) (chunk : ChatChunk) :
    StreamAssembler × List GenerateDelta :=
  ((read.1.fold chunk).1, read.2 ++ (read.1.fold chunk).2)

/-- Fold the chunks of a stream. -/
def stream (chunks : List ChatChunk) : StreamAssembler × List GenerateDelta :=
  chunks.foldl push ({}, [])

end StreamAssembler

/-! ### What the chunks carry -/

/-- The reply a choice of a chunk carries. -/
def ChunkChoice.content (choice : ChunkChoice) : List Char := choice.delta.content.getD []

/-- The deliberation a choice of a chunk carries. -/
def ChunkChoice.reasoning (choice : ChunkChoice) : List Char :=
  choice.delta.reasoningContent.getD []

/-- The name a fragment carries. -/
def ChunkToolCall.name (fragment : ChunkToolCall) : Option (List Char) :=
  fragment.function.bind (·.name)

/-- The arguments a fragment carries. -/
def ChunkToolCall.arguments (fragment : ChunkToolCall) : List Char :=
  (fragment.function.bind (·.arguments)).getD []

/-- The reply that was handed out. -/
def replyOf (fragments : List GenerateDelta) : List Char :=
  fragments.flatMap fun
    | .reply fragment => fragment
    | .reasoning _ | .restarted .. | .finished _ => []

/-- The deliberation that was handed out. -/
def reasoningOf (fragments : List GenerateDelta) : List Char :=
  fragments.flatMap fun
    | .reasoning fragment => fragment
    | .reply _ | .restarted .. | .finished _ => []

/-- The choices of chunks. -/
def choicesOf (chunks : List ChatChunk) : List ChunkChoice := chunks.flatMap (·.choices)

/-- The fragments of tool calls in choices. -/
def callsOf (choices : List ChunkChoice) : List ChunkToolCall :=
  choices.flatMap (·.delta.toolCalls)

/-- Fragments cut a tool call: the first has its id and its name, no other has either, and their
arguments make up its arguments. -/
structure CutsCall (call : ChatToolCall) (fragments : List ChunkToolCall) : Prop where
  first : ∃ first rest, fragments = first :: rest ∧ first.id = some call.id ∧
    first.name = some call.function.name ∧ ∀ fragment ∈ rest, fragment.id = none ∧
      fragment.name = none
  arguments : fragments.flatMap (·.arguments) = call.function.arguments

/-- Chunks cut a body of one choice and its usage: the reply and the deliberation anywhere, each
tool call into the fragments of its own index, in the order of the calls, and the finish reason
and the usage on any of the chunks. -/
structure Cuts (choice : ChatChoice) (usage : ChatUsage) (chunks : List ChatChunk) : Prop where
  content : (choicesOf chunks).flatMap (·.content) = choice.message.content.getD []
  reasoning : (choicesOf chunks).flatMap (·.reasoning) = choice.message.reasoningContent.getD []
  calls : ∃ indices : List Nat, indices.Pairwise (· < ·) ∧
    List.Forall₂ (fun index call =>
      CutsCall call ((callsOf (choicesOf chunks)).filter (·.index = index)))
      indices choice.message.toolCalls ∧
    ∀ fragment ∈ callsOf (choicesOf chunks), fragment.index ∈ indices
  finishReason : ((choicesOf chunks).filterMap (·.finishReason)).getLast? = choice.finishReason
  usage : (chunks.filterMap (·.usage)).getLast? = some usage

namespace StreamAssembler

/-! ### Each field takes its own part -/

section Fields

variable {assembler : StreamAssembler} {fragments : List GenerateDelta}

theorem foldChoice_spec (choice : ChunkChoice) :
    let after := foldChoice (assembler, fragments) choice
    after.1.content = assembler.content ++ choice.content ∧
      after.1.reasoning = assembler.reasoning ++ choice.reasoning ∧
      after.1.toolCalls = choice.delta.toolCalls.foldl foldCall assembler.toolCalls ∧
      after.1.finishReason = choice.finishReason.or assembler.finishReason ∧
      after.1.usage = assembler.usage ∧ after.1.sawChunk = assembler.sawChunk ∧
      replyOf after.2 = replyOf fragments ++ choice.content ∧
      reasoningOf after.2 = reasoningOf fragments ++ choice.reasoning := by
  obtain ⟨⟨content, reasoning, calls⟩, reason⟩ := choice
  unfold foldChoice ChunkChoice.content ChunkChoice.reasoning replyOf reasoningOf
  cases reason <;> cases reasoning <;> cases content <;> simp only <;> repeat' split
  all_goals simp_all

theorem foldChoices_spec (choices : List ChunkChoice) :
    let after := choices.foldl foldChoice (assembler, fragments)
    after.1.content = assembler.content ++ choices.flatMap (·.content) ∧
      after.1.reasoning = assembler.reasoning ++ choices.flatMap (·.reasoning) ∧
      after.1.toolCalls = (callsOf choices).foldl foldCall assembler.toolCalls ∧
      after.1.finishReason =
        (choices.filterMap (·.finishReason)).getLast?.or assembler.finishReason ∧
      after.1.usage = assembler.usage ∧ after.1.sawChunk = assembler.sawChunk ∧
      replyOf after.2 = replyOf fragments ++ choices.flatMap (·.content) ∧
      reasoningOf after.2 = reasoningOf fragments ++ choices.flatMap (·.reasoning) := by
  induction choices generalizing assembler fragments with
  | nil => simp [callsOf]
  | cons choice rest ih =>
    obtain ⟨content, reasoning, calls, reason, usage, saw, reply, thought⟩ :=
      @foldChoice_spec assembler fragments choice
    obtain ⟨content', reasoning', calls', reason', usage', saw', reply', thought'⟩ :=
      @ih (foldChoice (assembler, fragments) choice).1 (foldChoice (assembler, fragments) choice).2
    simp only [List.foldl_cons, List.flatMap_cons, callsOf, List.foldl_append] at *
    refine ⟨?_, ?_, ?_, ?_, usage'.trans usage, saw'.trans saw, ?_, ?_⟩
    · rw [content', content, List.append_assoc]
    · rw [reasoning', reasoning, List.append_assoc]
    · rw [calls', calls]
    · rw [reason', reason, List.filterMap_cons]
      cases choice.finishReason with
      | none => simp
      | some =>
        rw [List.getLast?_cons]
        cases (rest.filterMap (·.finishReason)).getLast? <;> simp
    · rw [reply', reply, List.append_assoc]
    · rw [thought', thought, List.append_assoc]

/-- What folding a chunk does to each part. -/
theorem push_spec (read : StreamAssembler × List GenerateDelta) (chunk : ChatChunk) :
    (push read chunk).1.content = read.1.content ++ chunk.choices.flatMap (·.content) ∧
      (push read chunk).1.reasoning = read.1.reasoning ++ chunk.choices.flatMap (·.reasoning) ∧
      (push read chunk).1.toolCalls = (callsOf chunk.choices).foldl foldCall read.1.toolCalls ∧
      (push read chunk).1.finishReason =
        (chunk.choices.filterMap (·.finishReason)).getLast?.or read.1.finishReason ∧
      (push read chunk).1.usage = chunk.usage.or read.1.usage ∧
      (push read chunk).1.sawChunk = true ∧
      replyOf (push read chunk).2 = replyOf read.2 ++ chunk.choices.flatMap (·.content) ∧
      reasoningOf (push read chunk).2 =
        reasoningOf read.2 ++ chunk.choices.flatMap (·.reasoning) := by
  obtain ⟨⟨content, reasoning, calls, reason, usage, saw⟩, fragments⟩ := read
  have spec := fun start : StreamAssembler => @foldChoices_spec start [] chunk.choices
  unfold push fold
  cases chunk.usage <;> simpa [replyOf, reasoningOf] using spec _

theorem foldl_push_spec (chunks : List ChatChunk) (read : StreamAssembler × List GenerateDelta) :
    let after := chunks.foldl push read
    after.1.content = read.1.content ++ (choicesOf chunks).flatMap (·.content) ∧
      after.1.reasoning = read.1.reasoning ++ (choicesOf chunks).flatMap (·.reasoning) ∧
      after.1.toolCalls = (callsOf (choicesOf chunks)).foldl foldCall read.1.toolCalls ∧
      after.1.finishReason =
        ((choicesOf chunks).filterMap (·.finishReason)).getLast?.or read.1.finishReason ∧
      after.1.usage = (chunks.filterMap (·.usage)).getLast?.or read.1.usage ∧
      after.1.sawChunk = (!chunks.isEmpty || read.1.sawChunk) ∧
      replyOf after.2 = replyOf read.2 ++ (choicesOf chunks).flatMap (·.content) ∧
      reasoningOf after.2 = reasoningOf read.2 ++ (choicesOf chunks).flatMap (·.reasoning) := by
  induction chunks generalizing read with
  | nil => simp [choicesOf, callsOf]
  | cons chunk rest ih =>
    obtain ⟨content, reasoning, calls, reason, usage, saw, reply, thought⟩ := push_spec read chunk
    obtain ⟨content', reasoning', calls', reason', usage', saw', reply', thought'⟩ :=
      ih (push read chunk)
    simp only [List.foldl_cons, choicesOf, List.flatMap_cons, callsOf, List.flatMap_append,
      List.foldl_append, List.filterMap_append] at *
    refine ⟨?_, ?_, ?_, ?_, ?_, by simp [saw', saw], ?_, ?_⟩
    · rw [content', content, List.append_assoc]
    · rw [reasoning', reasoning, List.append_assoc]
    · rw [calls', calls]
    · rw [reason', reason, List.getLast?_append, Option.or_assoc]
    · rw [usage', usage, List.filterMap_cons]
      cases chunk.usage with
      | none => simp
      | some =>
        rw [List.getLast?_cons]
        cases (rest.filterMap (·.usage)).getLast? <;> simp
    · rw [reply', reply, List.append_assoc]
    · rw [thought', thought, List.append_assoc]

end Fields

/-! ### Tool calls by index -/

theorem getElem?_foldl_foldCall (fragments : List ChunkToolCall)
    (calls : Std.TreeMap Nat PartialToolCall) (index : Nat) :
    (fragments.foldl foldCall calls)[index]? =
      if (fragments.filter (·.index = index)).isEmpty then calls[index]?
      else some ((fragments.filter (·.index = index)).foldl PartialToolCall.extend
        (calls[index]?.getD {})) := by
  induction fragments generalizing calls with
  | nil => simp
  | cons fragment rest ih =>
    rw [List.foldl_cons, ih, foldCall, Std.TreeMap.getElem?_insert]
    by_cases here : fragment.index = index
    · subst here
      by_cases more : (rest.filter (·.index = fragment.index)).isEmpty = true
      · rw [List.isEmpty_iff] at more
        simp [more]
      · simp [more]
    · have apart : ¬ compare fragment.index index = .eq := by simpa using here
      simp [here, apart]

theorem extend_rest (call : PartialToolCall) {rest : List ChunkToolCall}
    (plain : ∀ fragment ∈ rest, fragment.id = none ∧ fragment.name = none) :
    rest.foldl PartialToolCall.extend call =
      { call with arguments := call.arguments ++ rest.flatMap (·.arguments) } := by
  induction rest generalizing call with
  | nil => simp
  | cons fragment others ih =>
    rw [List.forall_mem_cons] at plain
    have step : call.extend fragment =
        { call with arguments := call.arguments ++ fragment.arguments } := by
      obtain ⟨⟨noId, noName⟩, _⟩ := plain
      unfold PartialToolCall.extend ChunkToolCall.arguments
      unfold ChunkToolCall.name at noName
      rw [noId]
      cases held : fragment.function with
      | none => simp
      | some part =>
        rw [held] at noName
        have unnamed : part.name = none := noName
        simp only [unnamed, Option.bind_some]
        cases part.arguments <;> simp
    rw [List.foldl_cons, step, ih _ plain.2, List.flatMap_cons]
    simp [List.append_assoc]

theorem extend_cut {call : ChatToolCall} {fragments : List ChunkToolCall}
    (cuts : CutsCall call fragments) :
    fragments ≠ [] ∧ fragments.foldl PartialToolCall.extend {} =
      ⟨call.id, call.function.name, call.function.arguments⟩ := by
  obtain ⟨⟨first, rest, rfl, given, named, plain⟩, whole⟩ := cuts
  have start : PartialToolCall.extend {} first =
      ⟨call.id, call.function.name, first.arguments⟩ := by
    unfold PartialToolCall.extend ChunkToolCall.arguments
    unfold ChunkToolCall.name at named
    rw [given]
    cases held : first.function with
    | none =>
      rw [held] at named
      cases named
    | some part =>
      rw [held] at named
      have carried : part.name = some call.function.name := named
      simp only [carried, Option.bind_some]
      cases part.arguments <;> simp
  refine ⟨List.cons_ne_nil _ _, ?_⟩
  rw [List.foldl_cons, start, extend_rest _ plain, ← whole, List.flatMap_cons]

/-- A call that has arrived whole. -/
def wholeCall (call : ChatToolCall) : PartialToolCall :=
  ⟨call.id, call.function.name, call.function.arguments⟩

theorem toList_foldl_foldCall {fragments : List ChunkToolCall} {indices : List Nat}
    {calls : List ChatToolCall} (ordered : indices.Pairwise (· < ·))
    (cuts : List.Forall₂ (fun index call =>
      CutsCall call (fragments.filter (·.index = index))) indices calls)
    (only : ∀ fragment ∈ fragments, fragment.index ∈ indices) :
    (fragments.foldl foldCall {}).toList =
      (indices.zip calls).map fun entry => (entry.1, wholeCall entry.2) := by
  obtain ⟨paired, whole⟩ := List.forall₂_iff_zip.mp cuts
  have firsts : (indices.zip calls).map Prod.fst = indices :=
    List.map_fst_zip (le_of_eq paired)
  have irreflexive : Std.Irrefl fun a b : Nat × PartialToolCall => a.1 < b.1 :=
    ⟨fun a => lt_irrefl a.1⟩
  have antisymmetric : Std.Antisymm fun a b : Nat × PartialToolCall => a.1 < b.1 :=
    ⟨fun a b before after => absurd (before.trans after) (lt_irrefl a.1)⟩
  refine List.Pairwise.eq_of_mem_iff (r := fun a b : Nat × PartialToolCall => a.1 < b.1)
    ?_ ?_ fun entry => ?_
  · exact (Std.TreeMap.ordered_keys_toList).imp Nat.compare_eq_lt.mp
  · rw [List.pairwise_map]
    rw [← firsts, List.pairwise_map] at ordered
    exact ordered
  -- A call is kept exactly if it has fragments, and then it is what they cut.
  · obtain ⟨index, held⟩ := entry
    rw [Std.TreeMap.mem_toList_iff_getElem?_eq_some, getElem?_foldl_foldCall, List.mem_map]
    constructor
    · intro kept
      by_cases without : (fragments.filter (·.index = index)).isEmpty = true
      · simp [without] at kept
      · rw [if_neg without, Option.some_inj] at kept
        rw [List.isEmpty_iff] at without
        obtain ⟨fragment, member⟩ := List.exists_mem_of_ne_nil _ without
        rw [List.mem_filter, decide_eq_true_eq] at member
        have listed : index ∈ indices := member.2 ▸ only fragment member.1
        rw [← firsts, List.mem_map] at listed
        obtain ⟨⟨position, call⟩, zipped, rfl⟩ := listed
        refine ⟨(position, call), zipped, ?_⟩
        have made := (extend_cut (whole zipped)).2
        simp only [Std.TreeMap.getElem?_emptyc, Option.getD_none] at kept
        rw [← kept, made]
        rfl
    · rintro ⟨⟨position, call⟩, zipped, same⟩
      simp only [Prod.mk.injEq] at same
      obtain ⟨rfl, rfl⟩ := same
      obtain ⟨fragmented, made⟩ := extend_cut (whole zipped)
      rw [← List.isEmpty_eq_false_iff] at fragmented
      rw [if_neg (by simp [fragmented]), Std.TreeMap.getElem?_emptyc, Option.getD_none, made]
      rfl

theorem map_toList_foldl_foldCall {fragments : List ChunkToolCall} {indices : List Nat}
    {calls : List ChatToolCall} (ordered : indices.Pairwise (· < ·))
    (cuts : List.Forall₂ (fun index call =>
      CutsCall call (fragments.filter (·.index = index))) indices calls)
    (only : ∀ fragment ∈ fragments, fragment.index ∈ indices) :
    ((fragments.foldl foldCall {}).toList.map fun entry =>
      (⟨entry.2.id, ⟨entry.2.name, entry.2.arguments⟩⟩ : ChatToolCall)) = calls := by
  rw [toList_foldl_foldCall ordered cuts only, List.map_map]
  have seconds : (indices.zip calls).map Prod.snd = calls :=
    List.map_snd_zip (le_of_eq cuts.length_eq.symm)
  exact seconds

/-! ### The stream is the whole -/

theorem intoResponse_congr {choice choice' : ChatChoice} (usage : Option ChatUsage)
    (content : choice.message.content.getD [] = choice'.message.content.getD [])
    (reasoning : choice.message.reasoningContent.getD [] =
      choice'.message.reasoningContent.getD [])
    (calls : choice.message.toolCalls = choice'.message.toolCalls)
    (reason : choice.finishReason = choice'.finishReason) :
    intoResponse ⟨[choice], usage⟩ = intoResponse ⟨[choice'], usage⟩ := by
  have completion : intoCompletion choice.message = intoCompletion choice'.message := by
    unfold intoCompletion
    rw [content, calls]
  have deliberation : ∀ thought : Option (List Char),
      thought.filter (!·.isEmpty) = (some (thought.getD [])).filter (!·.isEmpty) := by
    intro thought
    cases thought <;> rfl
  simp only [intoResponse, List.head?_cons, completion, reason]
  rw [deliberation choice.message.reasoningContent, reasoning, ← deliberation]

/-- However a body is cut, what is streamed is what the whole would have been, and what was
handed out is its reply and its deliberation. -/
theorem finish_stream {choice : ChatChoice} {usage : ChatUsage} {chunks : List ChatChunk}
    (cuts : Cuts choice usage chunks) :
    (stream chunks).1.finish = intoResponse ⟨[choice], some usage⟩ ∧
      replyOf (stream chunks).2 = choice.message.content.getD [] ∧
      reasoningOf (stream chunks).2 = choice.message.reasoningContent.getD [] := by
  obtain ⟨content, reasoning, calls, reason, used, saw, reply, thought⟩ :=
    foldl_push_spec chunks ({}, [])
  rw [← stream] at *
  obtain ⟨indices, ordered, cutCalls, only⟩ := cuts.calls
  rw [cuts.content] at content reply
  rw [cuts.reasoning] at reasoning thought
  rw [cuts.finishReason] at reason
  rw [cuts.usage] at used
  refine ⟨?_, reply, thought⟩
  have arrived : chunks.isEmpty = false := by
    rw [List.isEmpty_eq_false_iff]
    rintro rfl
    cases cuts.usage
  have started : (stream chunks).1.sawChunk = true := by simp [saw, arrived]
  have reported : (stream chunks).1.usage = some usage := used
  unfold finish
  rw [started, reported]
  -- The body that is assembled has the parts of the body that was cut.
  refine intoResponse_congr (some usage) ?_ ?_ ?_ ?_
  · exact content
  · show (if (stream chunks).1.reasoning.isEmpty then none
      else some (stream chunks).1.reasoning).getD [] = _
    rw [reasoning]
    cases choice.message.reasoningContent.getD [] <;> rfl
  · show (stream chunks).1.toolCalls.toList.map _ = _
    rw [calls]
    exact map_toList_foldl_foldCall ordered cutCalls only
  · show (stream chunks).1.finishReason = _
    rw [reason, Option.or_none]

/-! Two calls whose fragments alternate, under indices that skip. -/

namespace Alternating

/-- The fragment of the call at an index. -/
def fragment (index : Nat) (named : Option Char) (arguments : List Char) : ChunkToolCall :=
  ⟨index, named.map ([·]), some ⟨named.map ([·]), some arguments⟩⟩

def body : ChatChoice :=
  ⟨⟨some ['a', ' ', 'b'], some ['h', 'm'],
    [⟨['x'], ⟨['x'], ['1', '2']⟩⟩, ⟨['y'], ⟨['y'], ['3', '4']⟩⟩]⟩, some ['s']⟩

def counted : ChatUsage := ⟨7, some 2, none, none⟩

def chunks : List ChatChunk :=
  [⟨[⟨⟨none, some ['h', 'm'], [fragment 4 (some 'y') ['3'], fragment 2 (some 'x') []]⟩, none⟩],
      none⟩,
    ⟨[⟨⟨some ['a', ' '], some [], [fragment 2 none ['1', '2']]⟩, some ['s']⟩], none⟩,
    ⟨[⟨⟨some ['b'], none, [fragment 4 none ['4']]⟩, none⟩], none⟩,
    ⟨[], some counted⟩]

theorem cuts : Cuts body counted chunks where
  content := by decide
  reasoning := by decide
  calls := by
    refine ⟨[2, 4], by decide, ?_, by decide⟩
    refine .cons ⟨⟨_, _, rfl, by decide⟩, by decide⟩ (.cons ⟨⟨_, _, rfl, by decide⟩, by decide⟩ .nil)
  finishReason := by decide
  usage := by decide

/-- The stream has the two calls in the order of the body. -/
theorem finish_stream_chunks :
    (stream chunks).1.finish = .ok {
      completion := .toolCalls [⟨['x'], ['x'], ['1', '2']⟩, ⟨['y'], ['y'], ['3', '4']⟩]
      usage := ⟨some 7, some 2, none, none, none⟩
      reasoning := some ['h', 'm']
      finishReason := some ['s'] } ∧
      replyOf (stream chunks).2 = ['a', ' ', 'b'] ∧ reasoningOf (stream chunks).2 = ['h', 'm'] :=
  finish_stream cuts

end Alternating

end StreamAssembler

end Zuihitsu.Model
