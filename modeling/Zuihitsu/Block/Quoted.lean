/-
# What a block's answers quote

The calls that turn an entry back into text: the listings, the handback of an entry by
its id, the notes and errors of an attestation and of a deduplicated append, and the
candidates of an ambiguous prefix. In each of them a committed entry stands with its own
words or with the stub, and an answer's quotes are the words that were not stubbed.

The text of a ULID is its library's: how an id prints, and which texts parse as one.
-/

import Zuihitsu.Block.Operations
import Zuihitsu.Block.Reads
import Zuihitsu.Search.Blend

namespace Zuihitsu

open Zuihitsu.Core Zuihitsu.Graph Zuihitsu.Library

namespace MemoryBlock

/-- The text form of an entry id. -/
structure UlidText where
  print : EntryId → String
  parse : String → Option EntryId

/-- How an argument names an entry: by a handle, or by what the agent typed. -/
inductive EntrySelector where
  | id (entry : EntryId)
  | ref (raw : String)
  deriving DecidableEq, Repr

/-- What stands for an entry's content in an answer. -/
inductive Wording where
  | own (text : String)
  | stub
  deriving DecidableEq, Repr

/-- The one-line snippet of a note: at most sixty characters of the text. -/
def attestationSnippet (text : String) : String :=
  let text := trimmed text.toList
  if text.length ≤ 60 then String.ofList text else String.ofList (text.take 60) ++ "…"

namespace Wording

/-- An entry's words, unless they are withheld. -/
def of (withheld : Bool) (text : String) : Wording := if withheld then stub else own text

/-- What the agent reads. -/
def text : Wording → String
  | own text => text
  | stub => withheldStub

/-- The entry's words that the agent reads, if any. -/
def words : Wording → Option String
  | own text => some text
  | stub => none

/-- As a note quotes it. -/
def clip : Wording → Wording
  | own text => own (attestationSnippet text)
  | stub => stub

@[simp] theorem words_own (text : String) : (own text).words = some text := rfl

@[simp] theorem words_stub : stub.words = none := rfl

end Wording

/-- A failure of a call that resolves a reference first. -/
inductive Refusal where
  | memory (failure : MemoryError)
  | unknownRef (raw : String)
  | ambiguousEntryPrefix (raw : String) (candidates : List (EntryId × Wording))
  deriving DecidableEq, Repr

/-- A step of a call whose failures are the block's own. -/
def checked {α : Type} : Except MemoryError α → Except Refusal α
  | .ok value => .ok value
  | .error failure => .error (.memory failure)

/-! ### Entry references -/

def minEntryPrefix : Nat := 4

/-- Whether a committed entry is withheld from the audience, for the reads of one entry. -/
def withheldFromPresent (graph : Graph) (block : MemoryBlock) (memory : MemoryView)
    (view : EntryView) : Except MemoryError Bool :=
  if block.presentSet.isEmpty then .ok false
  else (visible (blockClassOf graph) (probe view) memory block.presentSet).map fun shown => !shown

/-- A committed entry of a class as a candidate of a prefix. -/
def candidate (graph : Graph) (block : MemoryBlock) (anchor : Option MemoryView)
    (view : EntryView) : Except MemoryError (EntryId × Wording) := do
  let withheld ← match anchor with
    | some memory => withheldFromPresent graph block memory view
    | none => .ok false
  return (view.entryId, .of withheld view.text)

/-- A pending append to one of the members as a candidate. -/
def pendingCandidate (members : List MemoryId) : EventPayload → Option (EntryId × Wording)
  | .memoryContentAppended id entryId _ _ text .. =>
    if id ∈ members then some (entryId, .own text) else none
  | _ => none

/-- The entries of a class that a prefix is matched against. -/
def classEntryTexts (graph : Graph) (block : MemoryBlock) (id : MemoryId) :
    Except MemoryError (List (EntryId × Wording)) := do
  let committed ← (graph.classHistory id).mapM (candidate graph block (graph.memoryById id))
  return committed ++ block.buffer.filterMap (pendingCandidate (id :: graph.classMembers id))

/-- What a typed reference is matched as. -/
def needle (raw : String) : List Char := asciiUppercase (trimmed raw.toList)

/-- Whether a typed reference is a prefix of an id's text. -/
def matchesRef (ulids : UlidText) (raw : String) (entry : EntryId) : Bool :=
  (needle raw).isPrefixOf (ulids.print entry).toList

/-- Resolve an entry argument: a handle or a full id to itself, a prefix to the one entry of
the class that it matches. -/
def resolveEntryRef (ulids : UlidText) (graph : Graph) (block : MemoryBlock) (id : MemoryId) :
    EntrySelector → Except Refusal EntryId
  | .id entry => .ok entry
  | .ref raw =>
    let shown := String.ofList (trimmed raw.toList)
    match ulids.parse shown with
    | some entry => .ok entry
    | none =>
      -- a prefix too short is refused before the class is read
      if (String.ofList (needle raw)).utf8ByteSize < minEntryPrefix then .error (.unknownRef shown)
      else do
        let entries ← checked (classEntryTexts graph block id)
        match entries.filter fun entry => matchesRef ulids raw entry.1 with
        | [] => .error (.unknownRef shown)
        | [entry] => .ok entry.1
        | matching => .error (.ambiguousEntryPrefix shown matching)

/-! ### Handbacks and details -/

/-- A pending append of an entry as the agent is handed it. -/
def pendingHandle (graph : Graph) (block : MemoryBlock) (entry : EntryId) :
    EventPayload → Option EntryRef
  | .memoryContentAppended _ appended assertedAt occurredAt text toldBy _ visibility =>
    if appended = entry then
      some
        { entryId := appended, text, assertedAt, visibility, occurredAt
          teller := tellerLabel graph block toldBy }
    else none
  | _ => none

/-- The entry just appended in this block. -/
def entryRefById (graph : Graph) (block : MemoryBlock) (entry : EntryId) : Option EntryRef :=
  block.buffer.findSome? (pendingHandle graph block entry)

/-- An entry by its id, the block's own appends before the graph. -/
def entryRefByIdAny (graph : Graph) (block : MemoryBlock) (entry : EntryId) :
    Except MemoryError (Option EntryRef) :=
  match entryRefById graph block entry with
  | some ref => .ok (some ref)
  | none =>
    match graph.entryById entry with
    | none => .ok none
    | some (memory, view) => do
      let withheld ← withheldFromPresent graph block memory view
      -- a handback carries the founding teller alone
      return some (entryRef graph block [] ⟨view, withheld, false, []⟩)

/-- A memory's whole record. -/
structure MemoryDetails where
  name : String
  description : String
  formerNames : List MemoryName
  entries : List EntryRef
  links : List LinkRef
  tags : List TagName
  volatility : Volatility
  deriving DecidableEq

/-- A memory's whole record in one read. -/
def details (engine : Engine) (block : MemoryBlock) (id : MemoryId) :
    Except MemoryError MemoryDetails := do
  let view := engine.graph.memoryById id
  let entries ← block.entries engine id
  return {
    name := (((resolveName engine.graph block id).or (view.map (·.name))).map (·.text)).getD ""
    description := (view.map (·.description)).getD ""
    formerNames := Search.formerNames engine.graph id
    entries
    links := links engine.graph block id
    tags := (view.map (·.tags)).getD []
    volatility := (view.map (·.volatility)).getD .medium }

/-! ### Notes -/

/-- Which call a note is about. -/
inductive NoteStyle where
  | autoAppend
  | explicit
  deriving DecidableEq, Repr

/-- What a note tells the agent of an endorsement. -/
inductive CorroborationNote where
  | alreadyAttested (snippet : Wording) (label : String)
  | updated (snippet : Wording) (label : String)
  | corroborated (snippet : Wording) (attesters : Nat)
  | attested (snippet : Wording) (label : String)
  deriving DecidableEq, Repr

/-- An entry that was stood behind, and the note about it. -/
structure Corroboration where
  entry : EntryId
  note : CorroborationNote
  deriving DecidableEq, Repr

/-- The snippet a note quotes. -/
def CorroborationNote.snippet : CorroborationNote → Wording
  | alreadyAttested snippet _ | updated snippet _ | corroborated snippet _ | attested snippet _ =>
    snippet

/-- The text of a note. -/
def Corroboration.text (ulids : UlidText) (corroboration : Corroboration) : String :=
  let quoted := "entry " ++ ulids.print corroboration.entry ++ " — \"" ++
    corroboration.note.snippet.text ++ "\""
  match corroboration.note with
  | .alreadyAttested _ label =>
    quoted ++ " — is already attested at " ++ label ++ " visibility; nothing recorded."
  | .updated _ label =>
    "updated your attestation of " ++ quoted ++ " — to " ++ label ++ " visibility."
  | .corroborated _ attesters =>
    "recorded as corroboration of " ++ quoted ++ "; now attested by " ++ toString attesters ++
      " tellers. If what you were told is genuinely different, re-append with distinct_from = \"" ++
      ulids.print corroboration.entry ++ "\" and include the distinguishing detail."
  | .attested _ label => "attested " ++ quoted ++ " — at " ++ label ++ " visibility."

/-- The label of a posture in a note. -/
def postureLabel : Visibility → String
  | .public => "public"
  | .attributed => "attributed"
  | .privateToTeller | .exclude _ => "private"

/-- The note about an endorsement that was recorded, or stood already. -/
def corroboration (graph : Graph) (block : MemoryBlock) (write : AttestationWrite)
    (entryText : Wording) (style : NoteStyle) : Corroboration :=
  let existing := write.existing ++ pendingAttestations block write.entry
  let held := heldPosture graph existing write.teller
  let snippet := entryText.clip
  let label := postureLabel write.posture
  { entry := write.entry
    note :=
      if held = some write.posture then .alreadyAttested snippet label
      else if held.isSome then .updated snippet label
      else
        match style with
        | .autoAppend => .corroborated snippet (existing.length + 1)
        | .explicit => .attested snippet label }

@[simp] theorem corroboration_entry {graph : Graph} {block : MemoryBlock} {write : AttestationWrite}
    {entryText : Wording} {style : NoteStyle} :
    (corroboration graph block write entryText style).entry = write.entry := rfl

@[simp] theorem corroboration_snippet {graph : Graph} {block : MemoryBlock}
    {write : AttestationWrite} {entryText : Wording} {style : NoteStyle} :
    (corroboration graph block write entryText style).note.snippet = entryText.clip := by
  unfold corroboration
  dsimp only
  split
  · rfl
  · split
    · rfl
    · cases style <;> rfl

/-- Buffer an endorsement, with the note about it. -/
def recordNoted (engine : Engine) (block : MemoryBlock) (write : AttestationWrite)
    (entryText : Wording) (style : NoteStyle) : Except MemoryError (MemoryBlock × Corroboration) := do
  let after ← recordAttestation engine block write
  return (after, corroboration engine.graph block write entryText style)

/-! ### Attesting -/

/-- The text of a pending append of an entry. -/
def pendingText (entry : EntryId) : EventPayload → Option String
  | .memoryContentAppended _ appended _ _ text .. => if appended = entry then some text else none
  | _ => none

/-- The text an attestation's note quotes, the graph before the buffer. -/
def attestTargetText (graph : Graph) (block : MemoryBlock) (entry : EntryId) :
    Except MemoryError Wording :=
  match graph.entryById entry with
  | some (memory, view) => do
    let withheld ← withheldFromPresent graph block memory view
    return .of withheld view.text
  | none =>
    match block.buffer.findSome? (pendingText entry) with
    | some text => .ok (.own text)
    | none => .error (.unknownEntry entry)

/-- Attest an existing entry by a reference, with the note. -/
def attestSelected (ulids : UlidText) (engine : Engine) (block : MemoryBlock) (id : MemoryId)
    (selector : EntrySelector) (opts : AppendOptions) :
    Except Refusal (MemoryBlock × Corroboration) := do
  let id := classWriteTarget engine.graph block id
  checked (guardSelf block id)
  checked (guardOperator block id)
  let entry ← resolveEntryRef ulids engine.graph block id selector
  let target ← checked (liveEntry engine.graph block id entry)
  let found ← checked (attestTarget engine.graph block entry)
  let text ← checked (attestTargetText engine.graph block entry)
  let toldBy := entryTeller opts block.teller
  let forced ← checked (reconcileForcedVisibility opts.visibility opts.exclude)
  let posture ← checked
    (resolveVisibility block (resolveName engine.graph block found.memory) found.memory toldBy forced)
  checked
    (recordNoted engine block
      { memory := found.memory
        entry
        foundingPosture := target.visibility
        existing := found.attestations
        teller := toldBy
        posture
        phrasing := none }
      text .explicit)

/-! ### The deduplicated append -/

/-- The outcome of a dedup scan: the entry the write duplicates, and one of another
subject that it repeats. -/
structure DedupScan where
  capture : Option (MemoryView × EntryView)
  crossClass : Option (MemoryView × EntryView)
  deriving DecidableEq

/-- The scan of the ranked hits, with the cross-subject one found so far. -/
def dedupScan (graph : Graph) (targetClass : MemoryId) (distinctFrom : Option EntryId)
    (toldBy : Teller) : Option (MemoryView × EntryView) → List DedupHit → DedupScan
  | crossClass, [] => ⟨none, crossClass⟩
  | crossClass, hit :: rest =>
    if some hit.entry = distinctFrom then dedupScan graph targetClass distinctFrom toldBy crossClass rest
    else
      match graph.entryById hit.entry with
      | none => dedupScan graph targetClass distinctFrom toldBy crossClass rest
      | some (memory, entry) =>
        if entry.supersededBy.isSome then
          dedupScan graph targetClass distinctFrom toldBy crossClass rest
        else if graph.classOf memory.id ≠ targetClass then
          -- another subject's fact is never a capture, and the best open one is an advisory
          dedupScan graph targetClass distinctFrom toldBy
            (if crossClass.isNone && isAllAudience entry.visibility then some (memory, entry)
              else crossClass) rest
        else if visibleToWriter graph entry toldBy && hit.duplicates then
          ⟨some (memory, entry), crossClass⟩
        else dedupScan graph targetClass distinctFrom toldBy crossClass rest

/-- What an append is told of a near-identical fact on another subject. -/
structure Advisory where
  memory : MemoryName
  entry : EntryId
  snippet : Wording
  deriving DecidableEq, Repr

/-- The advisory about an entry. -/
def Advisory.of (found : MemoryView × EntryView) : Advisory :=
  ⟨found.1.name, found.2.entryId, (Wording.own found.2.text).clip⟩

/-- The text of an advisory. -/
def Advisory.text (ulids : UlidText) (advisory : Advisory) : String :=
  "note: a near-identical fact already lives on " ++ advisory.memory.text ++ " [" ++
    ulids.print advisory.entry ++ "]: \"" ++ advisory.snippet.text ++
    "\". If this is one fact about several subjects, record it once where it most belongs — the " ++
    "shared topic or event — and link the cast, rather than re-phrasing it per subject."

/-- What a deduplicated append yielded. -/
inductive AppendOutcome where
  | appended (entry : EntryId) (advisory : Option Advisory)
  | corroborated (corroboration : Corroboration)
  deriving DecidableEq, Repr

/-- As `corroborateAppend`, with the note. -/
def corroborateNoted (engine : Engine) (block : MemoryBlock) (memory : MemoryView)
    (entry : EntryView) (text : String) (opts : AppendOptions) :
    Except MemoryError (MemoryBlock × Corroboration) := do
  let toldBy := entryTeller opts block.teller
  refuseIf (sameTellerClass engine.graph entry.toldBy toldBy = true)
    (.duplicateEntry entry.entryId entry.text)
  let forced ← reconcileForcedVisibility opts.visibility opts.exclude
  let posture ← resolveVisibility block (some memory.name) memory.id toldBy forced
  recordNoted engine block
    { memory := memory.id
      entry := entry.entryId
      foundingPosture := entry.visibility
      existing := entry.attestations.map fun held => (held.teller, held.posture)
      teller := toldBy
      posture
      phrasing := if text = entry.text then none else some text }
    (.own entry.text) .autoAppend

/-- Append a content entry after the dedup scan, with what the append yielded. -/
def appendDedupSelected (ulids : UlidText) (engine : Engine) (fresh : EntryId) (block : MemoryBlock)
    (id : MemoryId) (text : String) (opts : AppendOptions) (distinctFrom : Option EntrySelector)
    (hits : List DedupHit) : Except Refusal (MemoryBlock × AppendOutcome) := do
  let distinct ← distinctFrom.mapM (resolveEntryRef ulids engine.graph block id)
  let scan := dedupScan engine.graph (engine.graph.classOf (classWriteTarget engine.graph block id))
    distinct (entryTeller opts block.teller) none hits
  match scan.capture with
  | some (memory, entry) =>
    let (after, corroborated) ← checked (corroborateNoted engine block memory entry text opts)
    return (after, .corroborated corroborated)
  | none =>
    let after ← checked (append engine fresh block id text opts)
    return (after, .appended fresh (scan.crossClass.map Advisory.of))

/-! ### The other writes that take a reference -/

/-- Supersede by references. The guards are passed before a reference is read. -/
def supersedeSelected (ulids : UlidText) (engine : Engine) (block : MemoryBlock) (id : MemoryId)
    (old new : EntrySelector) : Except Refusal MemoryBlock := do
  let target := classWriteTarget engine.graph block id
  checked (guardSelf block target)
  checked (guardOperator block target)
  let old ← resolveEntryRef ulids engine.graph block target old
  let new ← resolveEntryRef ulids engine.graph block target new
  checked (supersede engine block id old new)

/-- Retract by a reference. -/
def retractSelected (ulids : UlidText) (engine : Engine) (block : MemoryBlock) (id : MemoryId)
    (selector : EntrySelector) (reason : String) (producedBy : Option ProducedBy) :
    Except Refusal MemoryBlock := do
  let target := classWriteTarget engine.graph block id
  checked (guardSelf block target)
  checked (guardOperator block target)
  checked (refuseIf (trimmedReason reason = "") .retractionReasonRequired)
  let entry ← resolveEntryRef ulids engine.graph block target selector
  checked (retract engine block id entry reason producedBy)

/-- Withdraw one teller's account of an entry named by a reference. -/
def retractAttestationSelected (ulids : UlidText) (engine : Engine) (block : MemoryBlock)
    (id : MemoryId) (selector : EntrySelector) (teller : Teller) (reason : String)
    (producedBy : Option ProducedBy) : Except Refusal MemoryBlock := do
  let target := classWriteTarget engine.graph block id
  checked (guardSelf block target)
  checked (guardOperator block target)
  checked (refuseIf (trimmedReason reason = "") .retractionReasonRequired)
  let entry ← resolveEntryRef ulids engine.graph block target selector
  checked (retractAttestation engine block id entry teller reason producedBy)

/-! ### Requests and replies -/

/-- Whether an operation is the deduplicated append, whose answer quotes what it found. -/
def Operation.isDedup : Operation → Bool
  | appendDedup .. => true
  | _ => false

/-- What a script asks of a block, with the references it was given. -/
inductive Request where
  | entries (id : MemoryId)
  | history (id : MemoryId)
  | details (id : MemoryId)
  | handback (entry : EntryId)
  | attest (id : MemoryId) (selector : EntrySelector) (opts : AppendOptions)
  | appendDedup (fresh : EntryId) (id : MemoryId) (text : String) (opts : AppendOptions)
      (distinctFrom : Option EntrySelector) (hits : List DedupHit)
  | supersede (id : MemoryId) (old new : EntrySelector)
  | retract (id : MemoryId) (selector : EntrySelector) (reason : String)
      (producedBy : Option ProducedBy)
  | retractAttestation (id : MemoryId) (selector : EntrySelector) (teller : Teller)
      (reason : String) (producedBy : Option ProducedBy)
  | other (op : Operation) (plain : op.isDedup = false)

/-- What a block hands back. -/
inductive Reply where
  | listing (refs : List EntryRef)
  | details (details : MemoryDetails)
  | handback (ref : Option EntryRef)
  | corroboration (corroboration : Corroboration)
  | appended (outcome : AppendOutcome)
  | done
  | refused (refusal : Refusal)

/-- Run a request. -/
def Request.run (ulids : UlidText) (engine : Engine) (block : MemoryBlock) :
    Request → Except Refusal (MemoryBlock × Reply)
  | entries id => do return (block, .listing (← checked (block.entries engine id)))
  | history id => do return (block, .listing (← checked (block.history engine id)))
  | details id => do return (block, .details (← checked (block.details engine id)))
  | handback entry => do
    return (block, .handback (← checked (entryRefByIdAny engine.graph block entry)))
  | attest id selector opts => do
    let (after, corroboration) ← attestSelected ulids engine block id selector opts
    return (after, .corroboration corroboration)
  | appendDedup fresh id text opts distinctFrom hits => do
    let (after, outcome) ←
      appendDedupSelected ulids engine fresh block id text opts distinctFrom hits
    return (after, .appended outcome)
  | supersede id old new => do return (← supersedeSelected ulids engine block id old new, .done)
  | retract id selector reason producedBy => do
    return (← retractSelected ulids engine block id selector reason producedBy, .done)
  | retractAttestation id selector teller reason producedBy => do
    return (← retractAttestationSelected ulids engine block id selector teller reason producedBy,
      .done)
  | other op _ => do return (← checked (op.run engine block), .done)

/-- Serve a request: one that fails leaves the block as it was. -/
def serve (ulids : UlidText) (engine : Engine) (block : MemoryBlock) (request : Request) :
    MemoryBlock × Reply :=
  match request.run ulids engine block with
  | .ok served => served
  | .error refusal => (block, .refused refusal)

/-! ### What a reply quotes -/

/-- The words of an entry in a listing. -/
def EntryRef.quote (ref : EntryRef) : Option (EntryId × String) :=
  if ref.withheld then none else some (ref.entryId, ref.text)

/-- The words of an entry in a message. -/
def Wording.quote (entry : EntryId) (wording : Wording) : Option (EntryId × String) :=
  wording.words.map fun text => (entry, text)

/-- The words an error of the block quotes. -/
def failureQuotes : MemoryError → List (EntryId × String)
  | .duplicateEntry existing snippet => [(existing, snippet)]
  | _ => []

/-- The words a refusal quotes. -/
def Refusal.quotes : Refusal → List (EntryId × String)
  | .memory failure => failureQuotes failure
  | .unknownRef _ => []
  | .ambiguousEntryPrefix _ candidates => candidates.filterMap fun entry => entry.2.quote entry.1

/-- The entries' words in a reply, each under its entry's id. -/
def Reply.quotes : Reply → List (EntryId × String)
  | listing refs => refs.filterMap EntryRef.quote
  | details record => record.entries.filterMap EntryRef.quote
  | handback ref => (ref.bind EntryRef.quote).toList
  | corroboration ⟨entry, note⟩ => (note.snippet.quote entry).toList
  | appended (.appended _ advisory) =>
    (advisory.bind fun advisory => advisory.snippet.quote advisory.entry).toList
  | appended (.corroborated ⟨entry, note⟩) => (note.snippet.quote entry).toList
  | done => []
  | refused refusal => refusal.quotes

/-! ### The requests are the block's operations -/

section Operations

variable {ulids : UlidText} {engine : Engine} {graph : Graph} {block after : MemoryBlock}
variable {id : MemoryId} {text : String} {opts : AppendOptions} {selector : EntrySelector}

@[simp] theorem checked_ok {α : Type} {done : Except MemoryError α} {value : α} :
    checked done = .ok value ↔ done = .ok value := by
  cases done <;> simp [checked]

theorem recordNoted_ok {write : AttestationWrite} {entryText : Wording} {style : NoteStyle}
    {noted : MemoryBlock × Corroboration} :
    recordNoted engine block write entryText style = .ok noted ↔
      recordAttestation engine block write = .ok noted.1 ∧
        noted.2 = corroboration engine.graph block write entryText style := by
  simp only [recordNoted, bind_eq_ok, pure, Except.pure, Except.ok.injEq, Prod.ext_iff]
  constructor
  · rintro ⟨after, recorded, rfl, note⟩
    exact ⟨recorded, note.symm⟩
  · rintro ⟨recorded, note⟩
    exact ⟨noted.1, recorded, rfl, note.symm⟩

theorem dedupScan_capture {targetClass : MemoryId} {distinctFrom : Option EntryId} {toldBy : Teller}
    {crossClass : Option (MemoryView × EntryView)} {hits : List DedupHit} :
    (dedupScan graph targetClass distinctFrom toldBy crossClass hits).capture =
      hits.findSome? (captures graph targetClass distinctFrom toldBy) := by
  induction hits generalizing crossClass with
  | nil => rfl
  | cons hit rest ih =>
    rw [dedupScan, List.findSome?_cons, captures]
    split
    · exact ih
    · cases found : graph.entryById hit.entry with
      | none => exact ih
      | some pair =>
        obtain ⟨memory, entry⟩ := pair
        dsimp only
        rw [Option.filter_some]
        cases entry.supersededBy with
        | some =>
          simp only [Option.isSome_some, Option.isNone_some, if_true, Bool.false_and,
            Bool.false_eq_true, if_false]
          exact ih
        | none =>
          simp only [Option.isSome_none, Option.isNone_none, Bool.false_eq_true, if_false,
            Bool.true_and]
          split
          · rename_i elsewhere
            simp only [elsewhere, decide_false, Bool.false_and, Bool.false_eq_true, if_false]
            exact ih
          · rename_i here
            rw [not_not] at here
            simp only [here, decide_true, Bool.true_and]
            split
            · rfl
            · exact ih

theorem corroborateNoted_ok {memory : MemoryView} {entry : EntryView}
    {noted : MemoryBlock × Corroboration}
    (done : corroborateNoted engine block memory entry text opts = .ok noted) :
    corroborateAppend engine block memory entry text opts = .ok noted.1 := by
  simp only [corroborateNoted, bind_eq_ok, recordNoted_ok] at done
  obtain ⟨_, other, forced, reconciled, posture, resolved, recorded, _⟩ := done
  simp only [corroborateAppend, bind_eq_ok]
  exact ⟨_, other, forced, reconciled, posture, resolved, recorded⟩

theorem attestSelected_ok {noted : MemoryBlock × Corroboration}
    (done : attestSelected ulids engine block id selector opts = .ok noted) :
    ∃ entry, resolveEntryRef ulids engine.graph block (classWriteTarget engine.graph block id)
        selector = .ok entry ∧ attest engine block id entry opts = .ok noted.1 := by
  simp only [attestSelected, bind_eq_ok, checked_ok, exists_checked, recordNoted_ok] at done
  obtain ⟨ownGuard, anchorGuard, entry, named, target, live, found, located, _, _, forced,
    reconciled, posture, resolved, recorded, _⟩ := done
  refine ⟨entry, named, ?_⟩
  simp only [attest, bind_eq_ok, exists_checked]
  exact ⟨ownGuard, anchorGuard, target, live, found, located, forced, reconciled, posture,
    resolved, recorded⟩

theorem appendDedupSelected_ok {fresh : EntryId} {distinctFrom : Option EntrySelector}
    {hits : List DedupHit} {yielded : MemoryBlock × AppendOutcome}
    (done : appendDedupSelected ulids engine fresh block id text opts distinctFrom hits =
      .ok yielded) :
    ∃ distinct, distinctFrom.mapM (resolveEntryRef ulids engine.graph block id) = .ok distinct ∧
      appendDedup engine fresh block id text opts distinct hits = .ok yielded.1 := by
  simp only [appendDedupSelected, bind_eq_ok] at done
  obtain ⟨distinct, named, done⟩ := done
  refine ⟨distinct, named, ?_⟩
  rw [appendDedup, findDedupTarget, ← @dedupScan_capture _ _ _ _ none]
  cases captured : (dedupScan engine.graph (engine.graph.classOf (classWriteTarget engine.graph block id))
    distinct (entryTeller opts block.teller) none hits).capture with
  | some target =>
    simp only [captured] at done
    obtain ⟨noted, recorded, answered⟩ := bind_eq_ok.mp done
    cases answered
    exact corroborateNoted_ok (checked_ok.mp recorded)
  | none =>
    simp only [captured] at done
    obtain ⟨left, appended, answered⟩ := bind_eq_ok.mp done
    cases answered
    exact checked_ok.mp appended

theorem run_ok {request : Request} {reply : Reply}
    (done : request.run ulids engine block = .ok (after, reply)) :
    after = block ∨ ∃ op : Operation, op.run engine block = .ok after := by
  cases request with
  | entries id | history id | details id | handback entry =>
    obtain ⟨_, _, answered⟩ := bind_eq_ok.mp done
    cases answered
    exact .inl rfl
  | attest id selector opts =>
    obtain ⟨noted, attested, answered⟩ := bind_eq_ok.mp done
    cases answered
    obtain ⟨entry, _, attests⟩ := attestSelected_ok attested
    exact .inr ⟨.attest id entry opts, attests⟩
  | appendDedup fresh id text opts distinctFrom hits =>
    obtain ⟨yielded, appended, answered⟩ := bind_eq_ok.mp done
    cases answered
    obtain ⟨distinct, _, appends⟩ := appendDedupSelected_ok appended
    exact .inr ⟨.appendDedup fresh id text opts distinct hits, appends⟩
  | supersede id old new =>
    obtain ⟨left, superseded, answered⟩ := bind_eq_ok.mp done
    cases answered
    simp only [supersedeSelected, bind_eq_ok, checked_ok, exists_checked] at superseded
    obtain ⟨_, _, oldEntry, _, newEntry, _, supersedes⟩ := superseded
    exact .inr ⟨.supersede id oldEntry newEntry, supersedes⟩
  | retract id selector reason producedBy =>
    obtain ⟨left, retracted, answered⟩ := bind_eq_ok.mp done
    cases answered
    simp only [retractSelected, bind_eq_ok, checked_ok, exists_checked] at retracted
    obtain ⟨_, _, _, entry, _, retracts⟩ := retracted
    exact .inr ⟨.retract id entry reason producedBy, retracts⟩
  | retractAttestation id selector teller reason producedBy =>
    obtain ⟨left, withdrawn, answered⟩ := bind_eq_ok.mp done
    cases answered
    simp only [retractAttestationSelected, bind_eq_ok, checked_ok, exists_checked] at withdrawn
    obtain ⟨_, _, _, entry, _, withdraws⟩ := withdrawn
    exact .inr ⟨.retractAttestation id entry teller reason producedBy, withdraws⟩
  | other op plain =>
    obtain ⟨left, ran, answered⟩ := bind_eq_ok.mp done
    cases answered
    exact .inr ⟨op, checked_ok.mp ran⟩

theorem serve_block (ulids : UlidText) (engine : Engine) (block : MemoryBlock) (request : Request) :
    (serve ulids engine block request).1 = block ∨
      ∃ op : Operation, op.run engine block = .ok (serve ulids engine block request).1 := by
  unfold serve
  cases ran : request.run ulids engine block with
  | ok => exact run_ok ran
  | error => exact .inl rfl

end Operations

end MemoryBlock

end Zuihitsu
