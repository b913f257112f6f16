/-
# Requests of a platform connector

What a connector may ask for on the participant surface beside delivering turns: to
project attributes onto a scoped memory, to write the context of a scope, and to link or
unlink two scoped memories. The wire names no platform, so every participant id and scope
path is read under the platform of the request's key. Each request leaves the store and
the graph as they are after it, whether it succeeds or stops on the way.
-/

import Zuihitsu.Block.Identities

namespace Zuihitsu.Platform

open Zuihitsu.Core Zuihitsu.Graph Zuihitsu.Library Zuihitsu.MemoryBlock

/-! ### Names under a platform -/

/-- A participant by platform identity. -/
structure PersonId where
  platform : String
  id : String
  deriving DecidableEq, Repr

/-- One endpoint of a link, or the target of a projection. -/
inductive LinkNode where
  | participant (person : PersonId)
  | context (locator : ConversationLocator)
  deriving DecidableEq, Repr

/-- A node on the wire: a bare participant id or a bare scope path. -/
inductive WireLinkNode where
  | participant (id : String)
  | context (scopePath : String)
  deriving DecidableEq, Repr

/-- Scope a wire node to the platform of the request's key. -/
def linkNode (platform : String) : WireLinkNode → LinkNode
  | .participant id => .participant ⟨platform, id⟩
  | .context scopePath => .context ⟨platform, scopePath⟩

/-- The provisional name of a scope's context memory. -/
def contextName (locator : ConversationLocator) : MemoryName :=
  (NamespacedMemoryName.mk .context (locator.platform ++ ":" ++ locator.scopePath)).toMemoryName

/-- The context memory of a scope, if it has one yet. -/
def resolveContext (graph : Graph) (locator : ConversationLocator) : Option MemoryId :=
  (graph.memoryByName (contextName locator)).map (·.id)

/-- The context memory of a scope, and the events a first contact appends. -/
def resolveOrMintContext (graph : Graph) (fresh : MemoryId) (locator : ConversationLocator) :
    MemoryId × List EventPayload :=
  match graph.memoryByName (contextName locator) with
  | some existing => (existing.id, [])
  | none => (fresh, [.memoryCreated fresh (contextName locator)])

/-- The memory a node resolves to, without minting one. -/
def resolveNode (graph : Graph) : LinkNode → Option MemoryId
  | .participant person => participantFor graph person.platform person.id
  | .context locator => resolveContext graph locator

/-- The memory a node resolves to, and the events that mint or bind it on first contact. -/
def contact (graph : Graph) (fresh : MemoryId) : LinkNode → MemoryId × List EventPayload
  | .participant person => resolveOrMintParticipant graph fresh person.platform person.id
  | .context locator => resolveOrMintContext graph fresh locator

/-! ### The host -/

/-- The store, the graph as far as it folds the store, and whether the fold is stuck at an
event the graph refuses. -/
structure Host where
  log : List Event := []
  graph : Graph := .fresh
  stuck : Bool := false
  deriving DecidableEq

/-- Append payloads to the store and fold what the graph takes of them. -/
def Host.append (host : Host) (recordedAt : Timestamp) (source : EventSource)
    (payloads : List EventPayload) : Host :=
  let log := host.log ++ stamp host.log.length recordedAt source payloads
  if host.stuck then { host with log }
  else
    let folded := foldUntil recordedAt source payloads host.graph
    { log, graph := folded.1, stuck := folded.2 }

/-- Why a request fails. -/
inductive RequestError where
  | sameAsForbidden
  | unknownRelation (relation : RelationName)
  | memory (error : MemoryError)
  | graph
  deriving DecidableEq

/-- Resolve a node or mint it, and fold the mint. A node that is found appends nothing and
folds nothing. -/
def resolveOrMintNode (host : Host) (now : Timestamp) (fresh : MemoryId) (node : LinkNode) :
    Host × Except RequestError MemoryId :=
  let met := contact host.graph fresh node
  if met.2 = [] then (host, .ok met.1)
  else
    let minted := host.append now .orchestration met.2
    (minted, if minted.stuck then .error .graph else .ok met.1)

/-! ### Writing onto a scoped memory -/

/-- A value to record, or none to clear it, with the entry a prior request returned for it. -/
structure ParticipantAttribute where
  text : Option String
  supersedes : Option EntryId
  deriving DecidableEq, Repr

/-- A context entry to record, with the entry a prior write returned for it. -/
structure ContextEntry where
  text : String
  supersedes : Option EntryId
  deriving DecidableEq, Repr

/-- The largest length a list may have, which is no limit on an entry's text. -/
def usizeMax : Nat := 2 ^ 64 - 1

/-- The reason a cleared attribute is retracted for. -/
def clearedReason : String := "no longer set on the platform."

/-- The posture of what a connector records. -/
def publicly : AppendOptions := { visibility := some .public }

/-- The block a connector's writes go through: the agent is their teller, and they stay on
the exact memory they are addressed to. -/
def connectorBlock (graph : Graph) : MemoryBlock :=
  (MemoryBlock.open graph .agent .platform none none [] usizeMax).authoredByConnector

/-- Treat an entry that is not live as nothing to do. -/
def ifLive (block : MemoryBlock) : Except MemoryError MemoryBlock → Except MemoryError MemoryBlock
  | .error (.unknownEntry _) => .ok block
  | result => result

/-- Supersede an entry of a memory, if it is live. -/
def supersedeIfLive (engine : Engine) (block : MemoryBlock) (memory : MemoryId)
    (old new : EntryId) : Except MemoryError MemoryBlock :=
  ifLive block (supersede engine block memory old new)

/-- Retract an entry of a memory, if it is live. -/
def retractIfLive (engine : Engine) (block : MemoryBlock) (memory : MemoryId) (old : EntryId) :
    Except MemoryError MemoryBlock :=
  ifLive block (retract engine block memory old clearedReason none)

/-- Record one value: append it, and supersede the entry it replaces. -/
def recordValue (engine : Engine) (memory : MemoryId) (block : MemoryBlock) (fresh : EntryId)
    (text : String) (supersedes : Option EntryId) : Except MemoryError MemoryBlock := do
  let appended ← MemoryBlock.append engine fresh block memory text publicly
  match supersedes with
  | some old => supersedeIfLive engine appended memory old fresh
  | none => return appended

/-- Record or clear one attribute. -/
def projectAttribute (engine : Engine) (memory : MemoryId) (block : MemoryBlock)
    (item : EntryId × ParticipantAttribute) : Except MemoryError MemoryBlock :=
  match item.2.text with
  | some text => recordValue engine memory block item.1 text item.2.supersedes
  | none =>
    match item.2.supersedes with
    | some old => retractIfLive engine block memory old
    | none => .ok block

/-- Record one context entry. -/
def writeEntry (engine : Engine) (memory : MemoryId) (block : MemoryBlock)
    (item : EntryId × ContextEntry) : Except MemoryError MemoryBlock :=
  recordValue engine memory block item.1 item.2.text item.2.supersedes

/-- What a request answers. -/
inductive Answer where
  | projected (memory : MemoryId) (entries : List (Option EntryId))
  | written (memory : MemoryId) (entries : List EntryId)
  | done
  deriving DecidableEq

/-- Commit what the calls of a block have buffered, and answer. -/
def commitCalls (host : Host) (now : Timestamp) (platform : String)
    (called : Except MemoryError MemoryBlock) (answer : Answer) :
    Host × Except RequestError Answer :=
  match called with
  | .error error => (host, .error (.memory error))
  | .ok block =>
    let after := host.append now (.platformConnector platform) block.buffer
    (after, if after.stuck then .error .graph else .ok answer)

/-- Project attributes onto a scoped memory. Each attribute comes with the id its append
generates. -/
def project (host : Host) (now : Timestamp) (platform : String) (target : LinkNode)
    (fresh : MemoryId) (attributes : List (EntryId × ParticipantAttribute)) :
    Host × Except RequestError Answer :=
  match resolveOrMintNode host now fresh target with
  | (host, .error error) => (host, .error error)
  | (host, .ok memory) =>
    if attributes = [] then (host, .ok (.projected memory []))
    else
      commitCalls host now platform
        (attributes.foldlM (projectAttribute ⟨host.graph, now⟩ memory) (connectorBlock host.graph))
        (.projected memory (attributes.map fun item => item.2.text.map fun _ => item.1))

/-- Write entries to the context memory of a scope. The store is folded even when the scope
has a memory already. -/
def writeContext (host : Host) (now : Timestamp) (platform : String)
    (locator : ConversationLocator) (fresh : MemoryId) (entries : List (EntryId × ContextEntry)) :
    Host × Except RequestError Answer :=
  let met := resolveOrMintContext host.graph fresh locator
  let host := host.append now .orchestration met.2
  if host.stuck then (host, .error .graph)
  else if entries = [] then (host, .ok (.written met.1 []))
  else
    commitCalls host now platform
      (entries.foldlM (writeEntry ⟨host.graph, now⟩ met.1) (connectorBlock host.graph))
      (.written met.1 (entries.map Prod.fst))

/-! ### Linking scoped memories -/

/-- Commit one link event, and answer. -/
def commitLink (host : Host) (now : Timestamp) (platform : String) (payload : EventPayload) :
    Host × Except RequestError Answer :=
  let after := host.append now (.platformConnector platform) [payload]
  (after, if after.stuck then .error .graph else .ok .done)

/-- Assert or retract a link between two scoped memories. An assertion mints the ends it
does not find, a retraction finds both or does nothing. -/
def link (host : Host) (now : Timestamp) (platform : String) (fromNode toNode : LinkNode)
    (freshFrom freshTo : MemoryId) (relation : RelationName) (remove : Bool) :
    Host × Except RequestError Answer :=
  if relation = .sameAs then (host, .error .sameAsForbidden)
  else if host.graph.relation relation = none then (host, .error (.unknownRelation relation))
  else if remove then
    match resolveNode host.graph fromNode, resolveNode host.graph toNode with
    | some fromId, some toId => commitLink host now platform (.linkRemoved fromId toId relation)
    | _, _ => (host, .ok .done)
  else
    match resolveOrMintNode host now freshFrom fromNode with
    | (host, .error error) => (host, .error error)
    | (host, .ok fromId) =>
      match resolveOrMintNode host now freshTo toNode with
      | (host, .error error) => (host, .error error)
      | (host, .ok toId) =>
        commitLink host now platform
          (.linkCreated fromId toId relation (.platformConnector platform) none none .public)

/-! ### Runs -/

/-- A request on the wire, with the ids it generates. -/
inductive Request where
  | project (target : WireLinkNode) (fresh : MemoryId)
    (attributes : List (EntryId × ParticipantAttribute))
  | writeContext (scopePath : String) (fresh : MemoryId) (entries : List (EntryId × ContextEntry))
  | link (fromNode toNode : WireLinkNode) (freshFrom freshTo : MemoryId) (relation : RelationName)
    (remove : Bool)

/-- Serve a request under the platform of its key. -/
def serve (host : Host) (now : Timestamp) (platform : String) :
    Request → Host × Except RequestError Answer
  | .project target fresh attributes =>
    project host now platform (linkNode platform target) fresh attributes
  | .writeContext scopePath fresh written =>
    writeContext host now platform ⟨platform, scopePath⟩ fresh written
  | .link fromNode toNode freshFrom freshTo relation remove =>
    link host now platform (linkNode platform fromNode) (linkNode platform toNode) freshFrom freshTo
      relation remove

/-- The memory ids a request generates. -/
def Request.freshMemories : Request → List MemoryId
  | .project _ fresh _ | .writeContext _ fresh _ => [fresh]
  | .link _ _ freshFrom freshTo _ _ => [freshFrom, freshTo]

/-- The entry ids a request generates. -/
def Request.freshEntries : Request → List EntryId
  | .project _ _ attributes => attributes.map Prod.fst
  | .writeContext _ _ written => written.map Prod.fst
  | .link .. => []

/-- The ids a request generates are new to the graph. -/
structure Request.Generates (request : Request) (graph : Graph) : Prop where
  memories : ∀ id ∈ request.freshMemories, graph.memories.contains id = false
  entries : ∀ id ∈ request.freshEntries, graph.entries.contains id = false

/-- What happens to a host: a connector's request, or a commit of anyone else, a
conversation's block, the console's or a pass's. -/
inductive Act where
  | request (now : Timestamp) (platform : String) (request : Request)
  | commit (recordedAt : Timestamp) (source : EventSource) (payloads : List EventPayload)

/-- One act. Only a connector's request is committed as a connector's. -/
inductive Step : Host → Act → Host → Prop
  | request {host : Host} {now : Timestamp} {platform : String} {request : Request}
      (generates : request.Generates host.graph) :
      Step host (.request now platform request) (serve host now platform request).1
  | commit {host : Host} {recordedAt : Timestamp} {source : EventSource}
      {payloads : List EventPayload} (other : ∀ platform, source ≠ .platformConnector platform) :
      Step host (.commit recordedAt source payloads) (host.append recordedAt source payloads)

end Zuihitsu.Platform
