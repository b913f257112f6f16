/-
# What a search taints

A search may surface a memory its query does not name, and for the rest of the block
a script is to write nothing to it. The guards ask for the name of the memory a
handle holds, before the write is redirected to the primary of its class and before
the entry it corrects is looked up in the class. The main result says that no write
reaches a surfaced memory in a run of calls where each one that would reach one goes
through a handle whose own memory goes by a surfaced name.
-/

import Zuihitsu.Block.Locking

namespace Zuihitsu

open Zuihitsu.Core Zuihitsu.Graph Zuihitsu.Library

namespace MemoryBlock

/-! ### Whether a query names a handle -/

/-- What the comparison asks of characters. -/
structure Unicode where
  isAlphanumeric : Char → Bool
  toLowercase : Char → List Char

def foldings : List (String × Char) :=
  [("àáâãäåāăąǎảạ", 'a'), ("çćĉċč", 'c'), ("ď", 'd'), ("èéêëēĕėęěẻẹ", 'e'), ("ĝğġģ", 'g'), ("ĥ", 'h'),
    ("ìíîïĩīĭįǐỉị", 'i'), ("ĵ", 'j'), ("ķ", 'k'), ("ĺļľ", 'l'), ("ñńņň", 'n'), ("òóôõöōŏőǒỏọ", 'o'),
    ("ŕŗř", 'r'), ("śŝşšș", 's'), ("ţťț", 't'), ("ùúûüũūŭůűųǔủụ", 'u'), ("ŵ", 'w'), ("ýÿŷỳỷỵ", 'y'),
    ("źżž", 'z')]

def foldDiacritic (char : Char) : Char :=
  ((foldings.find? fun folding => folding.1.toList.contains char).map (·.2)).getD char

def foldLower (unicode : Unicode) (text : List Char) : List Char :=
  (text.flatMap unicode.toLowercase).map foldDiacritic

/-- The alphanumeric runs of a text, folded. -/
def queryTokens (unicode : Unicode) (text : List Char) : List (List Char) :=
  ((text.splitOnP fun char => !unicode.isAlphanumeric char).filter (· ≠ [])).map
    (foldLower unicode)

/-- What follows the namespace of a handle, or all of one that has none. -/
def nameSegment (handleName : List Char) : List Char :=
  match handleName.dropWhile (· ≠ '/') with
  | [] => handleName
  | _ :: segment => segment

/-- The parts of a name segment, and the parts joined. -/
def nameTokens (unicode : Unicode) (segment : List Char) : List (List Char) :=
  let joined := foldLower unicode (segment.filter unicode.isAlphanumeric)
  queryTokens unicode segment ++ if joined = [] then [] else [joined]

/-- Some token of the query is a token of the handle's name. -/
def queryNamesHandle (unicode : Unicode) (query : String) (name : MemoryName) : Bool :=
  (queryTokens unicode query.toList).any fun token =>
    (nameTokens unicode (nameSegment name.text.toList)).contains token

/-! ### The guards -/

/-- A refused call of a script. -/
inductive ScriptError where
  | searchWrite (query : String) (name : MemoryName) (listArg createHandle : List Char)
  | taintedWrite (query : String) (name : MemoryName) (createHandle : List Char)
  | memory (error : MemoryError)

def commonPrefix : List Char → List Char → List Char
  | one :: first, other :: second => if one = other then one :: commonPrefix first second else []
  | _, _ => []

/-- The namespace of a handle, with its slash. -/
def nameSpace (handleName : List Char) : List Char :=
  handleName.take (handleName.length - (nameSegment handleName).length)

/-- Refuse a handle that is a hit of a search whose query does not name it. -/
def guardSearchWrite (unicode : Unicode) :
    Option (String × MemoryName) → Except ScriptError Unit
  | none => .ok ()
  | some (query, name) =>
    if queryNamesHandle unicode query name then .ok ()
    else
      let handleName := name.text.toList
      let queryToken := (queryTokens unicode query.toList).headD []
      let stem := commonPrefix queryToken (foldLower unicode (nameSegment handleName))
      .error (.searchWrite query name
        (if stem = [] then nameSpace handleName else nameSpace handleName ++ stem)
        (nameSpace handleName ++ queryToken))

/-- The names that searches of this block surfaced without naming them, each with the query of
the first. -/
abbrev SearchTaint := List (MemoryName × String)

/-- Refuse a memory that goes by a tainted name. -/
def guardSearchTaint (unicode : Unicode) (graph : Graph) (block : MemoryBlock)
    (taint : SearchTaint) (id : MemoryId) : Except ScriptError Unit :=
  if taint = [] then .ok ()
  else
    match resolveName graph block id with
    | none => .ok ()
    | some name =>
      match taint.lookup name with
      | none => .ok ()
      | some query =>
        .error (.taintedWrite query name
          (nameSpace name.text.toList ++ (queryTokens unicode query.toList).headD []))

/-- Ask a guard about each. -/
def guardEach {α : Type} (guard : α → Except ScriptError Unit) : List α → Except ScriptError Unit
  | [] => .ok ()
  | first :: rest =>
    match guard first with
    | .error error => .error error
    | .ok _ => guardEach guard rest

/-! ### The calls of a script -/

/-- A memory that a search hands back, under the name the graph has for it then. -/
abbrev SearchRow := MemoryId × MemoryName

/-- Taint a hit's name, unless the query names it or it is tainted already. -/
def taintRow (unicode : Unicode) (query : String) (taint : SearchTaint) (row : SearchRow) :
    SearchTaint :=
  if queryNamesHandle unicode query row.2 || (taint.lookup row.2).isSome then taint
  else taint ++ [(row.2, query)]

/-- A block a script runs in: what it has buffered, the taint, and the searches made. -/
structure Script where
  block : MemoryBlock
  searchTaint : SearchTaint := []
  searches : List (String × List SearchRow) := []

/-- A call of a script. A write carries, for each of its handles that is a search hit, the query
and the name it holds. -/
inductive ScriptCall where
  | search (query : String) (rows : List SearchRow)
  | write (hits : List (Option (String × MemoryName))) (call : LuaCall)
  | other (op : Operation)

/-- The calls that run the guards. -/
def LuaCall.guarded : LuaCall → Bool
  | .append .. | .attest .. | .supersede .. | .revise .. | .retract .. | .rename .. | .create .. =>
    true
  | .tag .. | .untag .. | .setVolatility .. | .remove .. => false

/-- The guards of a write, the hits before the names. -/
def guards (unicode : Unicode) (graph : Graph) (script : Script)
    (hits : List (Option (String × MemoryName))) (call : LuaCall) : Except ScriptError Unit :=
  if call.guarded then
    match guardEach (guardSearchWrite unicode) hits with
    | .error error => .error error
    | .ok _ =>
      guardEach (guardSearchTaint unicode graph script.block script.searchTaint) call.names
  else .ok ()

/-- Run an operation on the script's block. -/
def Script.operate (engine : Engine) (script : Script) (op : Operation) :
    Except ScriptError Script :=
  match op.run engine script.block with
  | .error error => .error (.memory error)
  | .ok block => .ok { script with block }

/-- Run a call. -/
def ScriptCall.run (unicode : Unicode) (engine : Engine) (script : Script) :
    ScriptCall → Except ScriptError Script
  | search query rows =>
    .ok { script with
      searchTaint := rows.foldl (taintRow unicode query) script.searchTaint
      searches := (query, rows) :: script.searches }
  | write hits call =>
    match guards unicode engine.graph script hits call with
    | .error error => .error error
    | .ok _ => script.operate engine call.operation
  | other op => script.operate engine op

/-- One call of a run, with the script before it. A refused call leaves the script as it was. -/
structure ScriptStep where
  engine : Engine
  script : Script
  call : ScriptCall

/-- What a step leaves. -/
def ScriptStep.after (unicode : Unicode) (step : ScriptStep) : Script :=
  ((step.call.run unicode step.engine step.script).toOption).getD step.script

/-- The steps of a run: each call runs over the graph of its time, on what the ones before left. -/
def scriptSteps (unicode : Unicode) : Script → List (Engine × ScriptCall) → List ScriptStep
  | _, [] => []
  | script, (engine, call) :: rest =>
    let step : ScriptStep := ⟨engine, script, call⟩
    step :: scriptSteps unicode (step.after unicode) rest

/-! ### What a write reaches -/

/-- The entry an event retires or endorses. -/
def correctedEntry : EventPayload → Option EntryId
  | .memorySuperseded _ old _ => some old
  | .entryRetracted _ entry .. | .attestationRetracted _ entry .. | .entryAttested _ entry .. =>
    some entry
  | _ => none

/-- The memory an entry is filed under, in the graph or by a pending append. -/
def filedUnder (graph : Graph) (block : MemoryBlock) (entry : EntryId) : Option MemoryId :=
  ((graph.entries.find entry).map (·.memoryId)).or
    (block.buffer.findSome? (pendingOwner entry))

/-- The memories whose content, name or links an event writes. -/
def touched (graph : Graph) (block : MemoryBlock) (payload : EventPayload) : List MemoryId :=
  writes payload ++ ((correctedEntry payload).bind (filedUnder graph block)).toList

/-- The memories a guarded call would write: the primary it is redirected to, what the dedup scan
captures, and the memory of the entry it corrects. -/
def LuaCall.reaches (graph : Graph) (block : MemoryBlock) : LuaCall → List MemoryId
  | append _ id _ opts distinctFrom hits =>
    match findDedupTarget graph block id distinctFrom (entryTeller opts block.teller) hits with
    | some (memory, entry) => memory.id :: (filedUnder graph block entry.entryId).toList
    | none => [classWriteTarget graph block id]
  | attest _ entry _ =>
    ((attestTarget graph block entry).toOption.map (·.memory)).toList ++
      (filedUnder graph block entry).toList
  | supersede id old _ | revise _ id old _ _ =>
    classWriteTarget graph block id :: (filedUnder graph block old).toList
  | retract id entry _ => classWriteTarget graph block id :: (filedUnder graph block entry).toList
  | create subject relation object _ =>
    if relation = .sameAs then [subject, object]
    else [classWriteTarget graph block subject, classWriteTarget graph block object]
  | call => call.names

/-! ### Surfaced memories -/

/-- A search surfaced a memory under a name its query does not name. -/
def SurfacedAs (unicode : Unicode) (searches : List (String × List SearchRow)) (memory : MemoryId)
    (name : MemoryName) : Prop :=
  ∃ search ∈ searches, (memory, name) ∈ search.2 ∧ queryNamesHandle unicode search.1 name = false

/-- A memory was surfaced so, and no search made names it. -/
def Surfaced (unicode : Unicode) (searches : List (String × List SearchRow)) (memory : MemoryId) :
    Prop :=
  ∃ name, SurfacedAs unicode searches memory name ∧
    ∀ search ∈ searches, queryNamesHandle unicode search.1 name = false

/-- A guarded write that would reach a surfaced memory names one that goes by a surfaced name. -/
def ScriptStep.Direct (unicode : Unicode) (step : ScriptStep) : Prop :=
  ∀ hits call, step.call = .write hits call → call.guarded = true →
    ∀ memory ∈ call.reaches step.engine.graph step.script.block,
      Surfaced unicode step.script.searches memory →
        ∃ id ∈ call.names, ∃ name other,
          resolveName step.engine.graph step.script.block id = some name ∧
            SurfacedAs unicode step.script.searches other name

/-- What a guarded write buffers writes no surfaced memory. -/
def ScriptStep.Clean (unicode : Unicode) (step : ScriptStep) : Prop :=
  ∀ hits call, step.call = .write hits call → call.guarded = true →
    ∀ payload ∈ (step.after unicode).block.buffer.drop step.script.block.buffer.length,
      ∀ memory ∈ touched step.engine.graph step.script.block payload,
        ¬Surfaced unicode step.script.searches memory

/-! ### The guards hold what a search taints -/

section Taint

variable {unicode : Unicode} {script after : Script} {engine : Engine} {graph : Graph}

theorem guardEach_ok {α : Type} {guard : α → Except ScriptError Unit} {asked : List α}
    (passed : guardEach guard asked = .ok ()) : ∀ one ∈ asked, guard one = .ok () := by
  induction asked with
  | nil => simp
  | cons first rest ih =>
    rw [guardEach] at passed
    cases here : guard first with
    | error =>
      rw [here] at passed
      cases passed
    | ok =>
      rw [here] at passed
      exact List.forall_mem_cons.mpr ⟨here, ih passed⟩

/-- Every name surfaced without being named is tainted. -/
def Script.Tainted (unicode : Unicode) (script : Script) : Prop :=
  ∀ memory name, SurfacedAs unicode script.searches memory name →
    (script.searchTaint.lookup name).isSome = true

theorem isSome_lookup_append {taint more : SearchTaint} {name : MemoryName}
    (held : (taint.lookup name).isSome = true) : ((taint ++ more).lookup name).isSome = true := by
  rw [List.lookup_append]
  cases found : taint.lookup name with
  | none => simp [found] at held
  | some => rfl

theorem isSome_taintRow {taint : SearchTaint} {query : String} {row : SearchRow}
    {name : MemoryName} (held : (taint.lookup name).isSome = true) :
    ((taintRow unicode query taint row).lookup name).isSome = true := by
  unfold taintRow
  split
  · exact held
  · exact isSome_lookup_append held

theorem isSome_foldl_taintRow {query : String} {rows : List SearchRow} {taint : SearchTaint}
    {name : MemoryName} (held : (taint.lookup name).isSome = true) :
    ((rows.foldl (taintRow unicode query) taint).lookup name).isSome = true := by
  induction rows generalizing taint with
  | nil => exact held
  | cons row rest ih => exact ih (isSome_taintRow held)

theorem isSome_of_surfaced {query : String} {rows : List SearchRow} {taint : SearchTaint}
    {memory : MemoryId} {name : MemoryName} (member : (memory, name) ∈ rows)
    (unnamed : queryNamesHandle unicode query name = false) :
    ((rows.foldl (taintRow unicode query) taint).lookup name).isSome = true := by
  induction rows generalizing taint with
  | nil => cases member
  | cons row rest ih =>
    rcases List.mem_cons.mp member with rfl | later
    · refine @isSome_foldl_taintRow _ query rest (taintRow unicode query taint (memory, name)) name ?_
      rw [taintRow]
      split
      · rename_i held
        simpa [unnamed] using held
      · rw [List.lookup_append]
        simp
    · exact ih later

theorem operate_ok {op : Operation} (done : script.operate engine op = .ok after) :
    ∃ block, op.run engine script.block = .ok block ∧ after = { script with block } := by
  unfold Script.operate at done
  split at done
  · cases done
  · rename_i block ran
    cases done
    exact ⟨block, ran, rfl⟩

theorem ScriptCall.tainted {call : ScriptCall} (tainted : script.Tainted unicode)
    (done : call.run unicode engine script = .ok after) : after.Tainted unicode := by
  cases call with
  | search =>
    cases done
    rintro memory name ⟨search, made, member, unnamed⟩
    rcases List.mem_cons.mp made with rfl | earlier
    · exact isSome_of_surfaced member unnamed
    · exact isSome_foldl_taintRow (tainted memory name ⟨search, earlier, member, unnamed⟩)
  | write =>
    rw [run] at done
    split at done
    · cases done
    · obtain ⟨block, _, rfl⟩ := operate_ok done
      exact tainted
  | other =>
    obtain ⟨block, _, rfl⟩ := operate_ok done
    exact tainted

theorem untainted_of_guards {hits : List (Option (String × MemoryName))} {call : LuaCall}
    (guarded : call.guarded = true) (passed : guards unicode graph script hits call = .ok ())
    {id : MemoryId} (named : id ∈ call.names) {name : MemoryName}
    (known : resolveName graph script.block id = some name) :
    (script.searchTaint.lookup name).isSome = false := by
  rw [guards, if_pos guarded] at passed
  split at passed
  · cases passed
  · have each := guardEach_ok passed id named
    rw [guardSearchTaint] at each
    split at each
    · rename_i bare
      rw [bare]
      rfl
    · rw [known] at each
      dsimp only at each
      split at each
      · rename_i free
        rw [free]
        rfl
      · cases each

end Taint

/-! ### What a guarded call buffers -/

section Reached

variable {graph : Graph} {block after : MemoryBlock} {now : Timestamp} {id : MemoryId}
variable {reached : List MemoryId}

/-- Events that touch only the given memories. -/
def Touches (graph : Graph) (block : MemoryBlock) (reached : List MemoryId)
    (events : List EventPayload) : Prop :=
  ∀ event ∈ events, ∀ memory ∈ touched graph block event, memory ∈ reached

theorem touches_of_writes {events : List EventPayload} (under : Under reached events)
    (corrects : ∀ event ∈ events, correctedEntry event = none) :
    Touches graph block reached events := by
  intro event member memory touches
  rw [touched, corrects event member] at touches
  exact under event member memory (by simpa using touches)

theorem touches_correction {payload : EventPayload} {target : MemoryId} {entry : EntryId}
    (writes' : writes payload = [target]) (corrects : correctedEntry payload = some entry) :
    ∀ memory ∈ touched graph block payload,
      memory ∈ target :: (filedUnder graph block entry).toList := by
  intro memory touches
  rw [touched, writes', corrects] at touches
  simpa using touches

theorem append_touches {fresh : EntryId} {text : String} {opts : AppendOptions}
    (asks : classWriteTarget graph block id ∈ reached)
    (done : append ⟨graph, now⟩ fresh block id text opts = .ok after) :
    ∃ events, Buffers block events after ∧ Touches graph block reached events := by
  obtain ⟨_, _, _, _, rfl⟩ := append_ok done
  refine ⟨_, buffers_pushAll, touches_of_writes (under_of_writes asks ?_) ?_⟩
  · exact List.forall_mem_cons.mpr ⟨rfl, forall_inlineVolatility fun _ => rfl⟩
  · exact List.forall_mem_cons.mpr ⟨rfl, forall_inlineVolatility fun _ => rfl⟩

theorem changeLink_touches {subject object : MemoryId} {relation : RelationName} {create : Bool}
    {forced : Option ForcedVisibility}
    (done : changeLink ⟨graph, now⟩ block subject object relation create forced = .ok after) :
    ∃ events, Buffers block events after ∧
      Touches graph block
        (if relation = .sameAs then [subject, object]
        else [classWriteTarget graph block subject, classWriteTarget graph block object]) events := by
  have proposes : ∀ rationale, proposeMerge block subject object rationale = .ok after →
      ∃ events, Buffers block events after ∧ Touches graph block [subject, object] events := by
    intro rationale done
    rw [proposeMerge_ok done]
    refine ⟨_, buffers_pushAll, touches_of_writes ?_ (List.forall_mem_singleton.mpr rfl)⟩
    exact List.forall_mem_singleton.mpr fun _ member => member
  have links : ∀ fromId toId,
      writeLink ⟨graph, now⟩ block fromId toId relation create forced = .ok after →
        ∃ events, Buffers block events after ∧ Touches graph block [fromId, toId] events := by
    intro fromId toId done
    rcases writeLink_ok done with rfl | ⟨_, rfl⟩ | rfl
    · exact ⟨[], buffers_self, List.forall_mem_nil _⟩
    · refine ⟨_, buffers_pushAll, touches_of_writes ?_ (List.forall_mem_singleton.mpr rfl)⟩
      exact List.forall_mem_singleton.mpr fun _ member => member
    · refine ⟨_, buffers_pushAll, touches_of_writes ?_ (List.forall_mem_singleton.mpr rfl)⟩
      exact List.forall_mem_singleton.mpr fun _ member => member
  simp only [changeLink, bind_eq_ok, exists_const, refuseIf_ok] at done
  obtain ⟨_, done⟩ := done
  by_cases identity : relation = .sameAs
  · simp only [if_pos identity, bind_eq_ok, exists_checked] at done ⊢
    obtain ⟨_, done⟩ := done
    split at done
    · split at done
      · exact proposes none done
      · cases done
    · split at done
      · exact proposes none done
      · exact links subject object done
    · exact links subject object done
  · simp only [if_neg identity] at done ⊢
    exact links _ _ done

theorem LuaCall.touches {call : LuaCall} (guarded : call.guarded = true)
    (calls : Calls graph block (now, call.operation) after) :
    ∃ events, Buffers block events after ∧
      Touches graph block (call.reaches graph block) events := by
  cases call with
  | append fresh id text opts distinctFrom hits =>
    simp only [Calls, operation, Operation.run, appendDedup] at calls
    split at calls
    · rename_i memory entry captured
      simp only [corroborateAppend, bind_eq_ok, exists_const, refuseIf_ok] at calls
      obtain ⟨_, _, _, _, _, recorded⟩ := calls
      rcases (recordAttestation_ok recorded).2 with rfl | rfl
      · exact ⟨[], buffers_self, List.forall_mem_nil _⟩
      · refine ⟨_, buffers_pushAll, List.forall_mem_singleton.mpr ?_⟩
        simp only [reaches, captured]
        exact touches_correction rfl rfl
    · rename_i uncaptured
      refine append_touches ?_ calls
      simp only [reaches, uncaptured]
      exact List.mem_singleton_self _
  | attest =>
    obtain ⟨target, listed, found, _, _, located, _, _, _, recorded⟩ := attest_ok calls
    rcases recorded with rfl | rfl
    · exact ⟨[], buffers_self, List.forall_mem_nil _⟩
    · refine ⟨_, buffers_pushAll, List.forall_mem_singleton.mpr ?_⟩
      dsimp only at located
      simp only [reaches, located]
      exact touches_correction rfl rfl
  | supersede =>
    obtain ⟨_, _, rfl⟩ := supersede_ok calls
    refine ⟨_, buffers_pushAll, List.forall_mem_singleton.mpr ?_⟩
    exact touches_correction rfl rfl
  | revise fresh id old text opts =>
    obtain ⟨_, middle, appends, supersedes⟩ := revise_ok calls
    obtain ⟨first, buffers, touches⟩ := @append_touches graph block middle now id
      ((revise fresh id old text opts).reaches graph block) _ _ _ List.mem_cons_self appends
    obtain ⟨_, _, rfl⟩ := supersede_ok supersedes
    refine ⟨_, buffers.trans buffers_pushAll, List.forall_mem_append.mpr ⟨touches, ?_⟩⟩
    -- the replacement is superseded with at the same target
    dsimp only
    rw [buffers.classWriteTarget]
    exact List.forall_mem_singleton.mpr (touches_correction rfl rfl)
  | retract =>
    simp only [Calls, operation, Operation.run, MemoryBlock.retract, bind_eq_ok, exists_checked,
      exists_const, refuseIf_ok] at calls
    obtain ⟨_, _, _, _, _, done⟩ := calls
    split at done
    · cases done
      refine ⟨_, buffers_pushAll, List.forall_mem_map.mpr fun account _ => ?_⟩
      exact touches_correction rfl rfl
    · simp only [bind_eq_ok, exists_checked] at done
      obtain ⟨_, done⟩ := done
      cases done
      exact ⟨_, buffers_push, List.forall_mem_singleton.mpr (touches_correction rfl rfl)⟩
  | rename =>
    rcases rename_ok calls with rfl | ⟨_, _, _, rfl⟩
    · exact ⟨[], buffers_self, List.forall_mem_nil _⟩
    · refine ⟨_, buffers_pushAll, touches_of_writes ?_ (List.forall_mem_singleton.mpr rfl)⟩
      exact List.forall_mem_singleton.mpr fun _ named => named
  | create =>
    obtain ⟨_, changed⟩ := link_ok calls
    exact changeLink_touches changed
  | tag | untag | setVolatility | remove => cases guarded

end Reached

/-! ### Runs of a script -/

section Runs

variable {unicode : Unicode} {script : Script} {step : ScriptStep}

theorem tainted_of_mem_steps {calls : List (Engine × ScriptCall)} (tainted : script.Tainted unicode)
    (member : step ∈ scriptSteps unicode script calls) : step.script.Tainted unicode := by
  induction calls generalizing script with
  | nil => cases member
  | cons made rest ih =>
    obtain ⟨engine, call⟩ := made
    rcases List.mem_cons.mp member with rfl | later
    · exact tainted
    · refine ih ?_ later
      rw [ScriptStep.after]
      cases ran : call.run unicode engine script with
      | error => exact tainted
      | ok => exact call.tainted tainted ran

theorem ScriptStep.clean_of_direct (tainted : step.script.Tainted unicode)
    (direct : step.Direct unicode) : step.Clean unicode := by
  obtain ⟨engine, script, call⟩ := step
  rintro hits call rfl guarded payload buffered memory touches surfaced
  rw [ScriptStep.after, ScriptCall.run] at buffered
  cases passed : guards unicode engine.graph script hits call with
  | error =>
    -- a refused call buffers nothing
    simp [passed, Except.toOption] at buffered
  | ok =>
    rw [passed] at buffered
    dsimp only at buffered
    cases ran : script.operate engine call.operation with
    | error => simp [ran, Except.toOption] at buffered
    | ok =>
      obtain ⟨block, called, rfl⟩ := operate_ok ran
      obtain ⟨events, buffers, reach⟩ := @LuaCall.touches engine.graph script.block block engine.now
        call guarded called
      rw [ran] at buffered
      have added : payload ∈ events := by
        simpa [buffers.buffer, Except.toOption] using buffered
      obtain ⟨id, named, name, other, known, taken⟩ :=
        direct hits call rfl guarded memory (reach payload added memory touches) surfaced
      have free := untainted_of_guards guarded passed named known
      rw [tainted other name taken] at free
      cases free

end Runs

/-- In every run of a script on a block, no guarded write touches a memory that a search of the
block surfaced and none names, if every one that would reach such a memory names one that goes
by a surfaced name. -/
theorem surfaced_never_written (unicode : Unicode) (block : MemoryBlock)
    (calls : List (Engine × ScriptCall))
    (direct : ∀ step ∈ scriptSteps unicode ⟨block, [], []⟩ calls, step.Direct unicode) :
    ∀ step ∈ scriptSteps unicode ⟨block, [], []⟩ calls, step.Clean unicode := by
  intro step member
  refine step.clean_of_direct (tainted_of_mem_steps ?_ member) (direct step member)
  rintro memory name ⟨search, made, _⟩
  cases made

/-! A profile surfaced for the project somebody leads, and its platform stub: a write to the stub
is redirected to the profile. -/

namespace Laundering

def profile : MemoryId := ⟨1⟩
def stub : MemoryId := ⟨2⟩

def met : List EventPayload :=
  [.linkTypeRegistered .sameAs .sameAs .many .many true false "one identity",
    .memoryCreated profile ⟨"person/dave"⟩, .memoryCreated stub ⟨"person/dave@slack"⟩,
    .linkCreated profile stub .sameAs .operator none none .public]

def graph : Graph := ((commit ⟨0⟩ .operator met Graph.fresh).toOption).getD Graph.fresh

def engine : Engine := ⟨graph, ⟨1⟩⟩

def opened : MemoryBlock := .open graph .agent .agent none none [] 4000

def plain : Unicode := ⟨Char.isAlphanum, fun char => [char.toLower]⟩

def question : String := "who leads the volcano project"

def search : ScriptCall := .search question [(profile, ⟨"person/dave"⟩)]

/-- A write through a handle that is no search hit. -/
def write (written : MemoryId) : ScriptCall :=
  .write [none]
    (.append ⟨10⟩ written "moved to Lisbon" { visibility := some .public } none [])

def calls (written : MemoryId) : List (Engine × ScriptCall) :=
  [(engine, search), (engine, write written)]

def searched : Script := (⟨engine, ⟨opened, [], []⟩, search⟩ : ScriptStep).after plain

theorem steps_calls (written : MemoryId) :
    scriptSteps plain ⟨opened, [], []⟩ (calls written) =
      [⟨engine, ⟨opened, [], []⟩, search⟩, ⟨engine, searched, write written⟩] := rfl

theorem unnamed : queryNamesHandle plain question ⟨"person/dave"⟩ = false := by decide +kernel

theorem surfacedAs : SurfacedAs plain searched.searches profile ⟨"person/dave"⟩ :=
  ⟨_, List.mem_singleton_self _, List.mem_singleton_self _, unnamed⟩

theorem stub_redirected :
    ((⟨engine, searched, write stub⟩ : ScriptStep).after plain).block.buffer.map writes =
      [[profile]] := by
  decide +kernel

/-- A script whose search surfaced a profile without naming it writes to the profile. -/
theorem profile_laundered :
    Reachable graph ∧
      ¬∀ step ∈ scriptSteps plain ⟨opened, [], []⟩ (calls stub), step.Clean plain := by
  refine ⟨Reachable.fresh.folded, fun clean => ?_⟩
  obtain ⟨payload, rest, buffered, lands, _⟩ := List.map_eq_cons_iff.mp stub_redirected
  have step := clean ⟨engine, searched, write stub⟩ (by rw [steps_calls]; simp)
  refine step _ _ rfl rfl payload ?_ profile ?_ ⟨_, surfacedAs, ?_⟩
  · rw [buffered]
    exact List.mem_cons_self
  · rw [touched, lands]
    exact List.mem_cons_self
  · exact List.forall_mem_singleton.mpr unnamed

/-- A write to the profile itself goes by the surfaced name, as the general result asks. -/
theorem surfaced_never_written_profile :
    Reachable graph ∧
      ∀ step ∈ scriptSteps plain ⟨opened, [], []⟩ (calls profile), step.Clean plain := by
  refine ⟨Reachable.fresh.folded, surfaced_never_written plain opened (calls profile) ?_⟩
  rw [steps_calls]
  refine List.forall_mem_cons.mpr ⟨?_, List.forall_mem_singleton.mpr ?_⟩
  · rintro hits call made
    cases made
  · rintro hits call made _ memory _ _
    cases made
    have known : resolveName graph opened profile = some ⟨"person/dave"⟩ := by decide +kernel
    exact ⟨profile, List.mem_cons_self, ⟨"person/dave"⟩, profile, known, surfacedAs⟩

end Laundering

end MemoryBlock

end Zuihitsu
