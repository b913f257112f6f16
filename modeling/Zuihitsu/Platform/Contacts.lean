/-
# First contacts on a platform

A participant id or a scope path is found by its key or its name, or minted on first
contact. A contact changes nothing that is there: it leaves the links, the entries, the
classes and what every other name resolves to, and what it mints is in a class of its own.
The names of two platforms' scopes are apart unless one platform's name followed by a colon
begins the other's.
-/

import Zuihitsu.Block.Partition
import Zuihitsu.Graph.Lookup
import Zuihitsu.Platform.Requests

namespace Zuihitsu.Platform

open Zuihitsu.Core Zuihitsu.Graph Zuihitsu.Library Zuihitsu.MemoryBlock

/-! ### Names of scopes -/

/-- One platform's name followed by a colon begins the other's. -/
def Clashes (platform other : String) : Prop :=
  platform.toList ++ [':'] <+: other.toList ∨ other.toList ++ [':'] <+: platform.toList

section Names

variable {platform other scopePath path : String}

theorem contextName_eq_iff :
    contextName ⟨platform, scopePath⟩ = contextName ⟨other, path⟩ ↔
      platform.toList ++ ':' :: scopePath.toList = other.toList ++ ':' :: path.toList := by
  simp [contextName, NamespacedMemoryName.toMemoryName, ← String.toList_inj]

theorem contextName_collides_iff (different : platform ≠ other) :
    (∃ scopePath path, contextName ⟨platform, scopePath⟩ = contextName ⟨other, path⟩) ↔
      Clashes platform other := by
  simp only [contextName_eq_iff, Clashes]
  constructor
  · rintro ⟨scopePath, path, same⟩
    -- the shorter of the two names is continued by the other
    rcases List.append_eq_append_iff.mp same with ⟨between, longer, rest⟩ | ⟨between, longer, rest⟩
    · cases between with
      | nil => exact absurd (String.toList_inj.mp (by simpa using longer.symm)) different
      | cons char between =>
        obtain ⟨rfl, _⟩ := List.cons.inj rest
        exact .inl ⟨between, by simp [longer]⟩
    · cases between with
      | nil => exact absurd (String.toList_inj.mp (by simpa using longer)) different
      | cons char between =>
        obtain ⟨rfl, _⟩ := List.cons.inj rest
        exact .inr ⟨between, by simp [longer]⟩
  · rintro (⟨rest, continues⟩ | ⟨rest, continues⟩)
    · exact ⟨String.ofList (rest ++ [':']), "", by simp [← continues]⟩
    · exact ⟨"", String.ofList (rest ++ [':']), by simp [← continues]⟩

theorem name_of_resolveContext {graph : Graph} {locator : ConversationLocator} {memory : MemoryId}
    (resolves : resolveContext graph locator = some memory) :
    ∃ row ∈ graph.memories, row.id = memory ∧ row.name = contextName locator := by
  obtain ⟨view, found, rfl⟩ := Option.map_eq_some_iff.mp resolves
  obtain ⟨row, stored, name, owner⟩ := row_of_memoryByName found
  exact ⟨row, stored, owner, name⟩

theorem contexts_apart {graph : Graph} {memory : MemoryId} (different : platform ≠ other)
    (unclashing : ¬Clashes platform other)
    (resolves : resolveContext graph ⟨platform, scopePath⟩ = some memory) :
    resolveContext graph ⟨other, path⟩ ≠ some memory := by
  intro again
  obtain ⟨row, stored, owner, name⟩ := name_of_resolveContext resolves
  obtain ⟨twin, twinStored, twinOwner, twinName⟩ := name_of_resolveContext again
  have one : row = twin := Table.eq_of_key_eq stored twinStored (owner.trans twinOwner.symm)
  rw [one, twinName] at name
  exact unclashing ((contextName_collides_iff different).mp ⟨_, _, name.symm⟩)

end Names

/-! ### What a platform names -/

/-- A participant id or a scope path of a platform resolves to a memory. -/
def Named (platform : String) (graph : Graph) (memory : MemoryId) : Prop :=
  ∃ node, resolveNode graph (linkNode platform node) = some memory

/-- The memory a node resolves to, or a first contact would bind. -/
def bearer (graph : Graph) : LinkNode → Option MemoryId
  | .participant person =>
    (participantFor graph person.platform person.id).or
      ((graph.memoryByName (participantMint person.platform person.id)).map (·.id))
  | .context locator => resolveContext graph locator

/-- Whether an event leaves every name with the memory that bears it. -/
def keepsNames : EventPayload → Bool
  | .memoryRenamed .. | .memoryDeleted _ => false
  | _ => true

section Naming

variable {event : Event} {before after graph : Graph} {recordedAt : Timestamp}
variable {source : EventSource}
variable {payloads : List EventPayload} {name : MemoryName} {node : LinkNode} {memory : MemoryId}

theorem memoryChange_keepsNames (keeps : keepsNames event.payload = true) (row : MemoryRow) :
    (memoryChange event before row).name = row.name ∧
      (memoryChange event before row).deleted = row.deleted := by
  constructor
  · rcases memoryChange_name with kept | gives
    · exact kept
    · rw [memoryChange_eq]
      cases payload : event.payload with
      | memoryRenamed => simp [keepsNames, payload] at keeps
      | _ => simp only [memoryColumns, payload] <;> (try split) <;> rfl
  · rw [memoryChange_deleted]
    cases payload : event.payload with
    | memoryDeleted => simp [keepsNames, payload] at keeps
    | _ => simp

theorem memoryByName_apply (applied : apply event before = .ok after)
    (keeps : keepsNames event.payload = true) (name : MemoryName) :
    (after.memoryByName name).map (·.id) =
      ((before.memoryByName name).map (·.id)).or
        (((createdMemory event).filter fun row => row.name = name && !row.deleted).map (·.id)) := by
  have same : (fun row : MemoryRow => decide (row.name = name) && !row.deleted) ∘
      memoryChange event before = fun row => decide (row.name = name) && !row.deleted := by
    funext row
    obtain ⟨named, deleted⟩ := @memoryChange_keepsNames event before keeps row
    simp [named, deleted]
  simp only [memoryByName, apply_memories applied, List.find?_append, List.find?_map, same,
    Option.map_map, Option.map_or]
  congr 1
  · cases before.memories.rows.find? fun row => decide (row.name = name) && !row.deleted with
    | none => rfl
    | some => simp [assembleMemory]
  · cases createdMemory event with
    | none => rfl
    | some row =>
      by_cases named : (decide (row.name = name) && !row.deleted) = true
      · simp [named, assembleMemory, Option.filter]
      · simp [named, Option.filter]

theorem resolveNode_apply (applied : apply event before = .ok after)
    (keeps : keepsNames event.payload = true) (resolves : resolveNode before node = some memory) :
    resolveNode after node = some memory := by
  cases node with
  | participant => exact participantFor_apply applied resolves
  | context =>
    simp only [resolveNode, resolveContext] at resolves ⊢
    rw [memoryByName_apply applied keeps, resolves, Option.some_or]

theorem resolveNode_commit (committed : commit recordedAt source payloads before = .ok after)
    (keeps : ∀ payload ∈ payloads, keepsNames payload = true)
    (resolves : resolveNode before node = some memory) : resolveNode after node = some memory :=
  commit_induction (motive := fun graph => resolveNode graph node = some memory)
    (fun payload member _ _ applied held => resolveNode_apply applied (keeps payload member) held)
    committed resolves

end Naming

/-! ### What an append leaves -/

section Appending

variable {host : Host} {recordedAt : Timestamp} {source : EventSource}
variable {payloads : List EventPayload} {event : Event}

theorem mem_stamp {position : Nat} (member : event ∈ stamp position recordedAt source payloads) :
    event.source = source ∧ event.payload ∈ payloads := by
  induction payloads generalizing position with
  | nil => cases member
  | cons payload rest ih =>
    rcases List.mem_cons.mp member with rfl | later
    · exact ⟨rfl, List.mem_cons_self⟩
    · obtain ⟨same, there⟩ := ih later
      exact ⟨same, List.mem_cons_of_mem _ there⟩

theorem Host.append_log (host : Host) (recordedAt : Timestamp) (source : EventSource)
    (payloads : List EventPayload) :
    (host.append recordedAt source payloads).log =
      host.log ++ stamp host.log.length recordedAt source payloads := by
  unfold Host.append
  dsimp only
  split <;> rfl

theorem Host.append_spec (host : Host) (recordedAt : Timestamp) (source : EventSource)
    (payloads : List EventPayload) :
    ∃ folded refused, payloads = folded ++ refused ∧
      Graph.commit recordedAt source folded host.graph =
        .ok (host.append recordedAt source payloads).graph := by
  unfold Host.append
  dsimp only
  split
  · exact ⟨[], payloads, rfl, rfl⟩
  · exact foldUntil_spec

theorem Host.append_unstuck (unstuck : (host.append recordedAt source payloads).stuck = false) :
    Graph.commit recordedAt source payloads host.graph =
      .ok (host.append recordedAt source payloads).graph := by
  unfold Host.append at unstuck ⊢
  dsimp only at unstuck ⊢
  split at unstuck
  · rename_i stuck
    rw [stuck] at unstuck
    cases unstuck
  · rename_i going
    rw [if_neg going]
    exact commit_of_foldUntil unstuck

end Appending

/-! ### First contacts -/

/-- Whether an event mints a memory or binds a participant to one. -/
def isContact : EventPayload → Bool
  | .memoryCreated .. | .participantIdentified .. => true
  | _ => false

section Contacts

variable {event : Event} {before after graph : Graph} {recordedAt : Timestamp}
variable {source : EventSource}
variable {payloads : List EventPayload} {node other : LinkNode} {memory fresh : MemoryId}

theorem isContact_contact : ∀ payload ∈ (contact graph fresh node).2, isContact payload = true := by
  cases node with
  | participant =>
    simp only [contact, resolveOrMintParticipant]
    split
    · simp
    · split <;> simp [isContact]
  | context =>
    simp only [contact, resolveOrMintContext]
    split <;> simp [isContact]

theorem contact_fst : (contact graph fresh node).1 = (bearer graph node).getD fresh := by
  cases node with
  | participant person =>
    simp only [contact, bearer, resolveOrMintParticipant]
    cases participantFor graph person.platform person.id with
    | some => rfl
    | none =>
      dsimp only
      cases graph.memoryByName (participantMint person.platform person.id) <;> rfl
  | context locator =>
    simp only [contact, bearer, resolveOrMintContext, resolveContext]
    cases graph.memoryByName (contextName locator) <;> rfl

theorem bearer_of_ne (other : (contact graph fresh node).1 ≠ fresh) :
    bearer graph node = some (contact graph fresh node).1 := by
  rw [contact_fst] at other ⊢
  cases bears : bearer graph node with
  | some => rfl
  | none =>
    rw [bears] at other
    exact absurd rfl other

theorem bearer_of_resolveNode (resolves : resolveNode graph node = some memory) :
    bearer graph node = some memory := by
  cases node with
  | participant =>
    simp only [resolveNode] at resolves
    rw [bearer, resolves, Option.some_or]
  | context => exact resolves

theorem frame_of_contact (contacts : isContact event.payload = true)
    (applied : apply event before = .ok after) :
    after.links = before.links ∧ after.relations = before.relations ∧
      after.entries = before.entries := by
  have frame := apply_frame applied
  refine ⟨frame.links ?_, frame.relations ?_, frame.entries ?_⟩ <;>
    cases payload : event.payload <;> simp_all [isContact, footprint]

theorem frame_of_contacts (contacts : ∀ payload ∈ payloads, isContact payload = true)
    (committed : commit recordedAt source payloads before = .ok after) :
    after.links = before.links ∧ after.relations = before.relations ∧
      after.entries = before.entries :=
  commit_induction
    (motive := fun graph => graph.links = before.links ∧ graph.relations = before.relations ∧
      graph.entries = before.entries)
    (fun payload member _ _ applied ⟨links, relations, stored⟩ => by
      obtain ⟨sameLinks, sameRelations, sameStored⟩ :=
        frame_of_contact (contacts payload member) applied
      exact ⟨sameLinks.trans links, sameRelations.trans relations, sameStored.trans stored⟩)
    committed ⟨rfl, rfl, rfl⟩

theorem keepsNames_of_contact {payload : EventPayload} (contacts : isContact payload = true) :
    keepsNames payload = true := by
  cases payload <;> first | rfl | cases contacts

theorem sparesClasses_of_contact {payload : EventPayload} (contacts : isContact payload = true) :
    sparesClasses payload = true := by
  cases payload <;> first | rfl | cases contacts

theorem participantFor_bound {platform user : String} (applied : apply event before = .ok after)
    (identifies : event.payload = .participantIdentified memory platform user)
    (unbound : participantFor before platform user = none) :
    participantFor after platform user = some memory := by
  obtain ⟨projected, ran, rfl⟩ := apply_ok.mp applied
  simp only [Graph.project, identifies, Script.run_statement, insertParticipantIdentity_ok] at ran
  obtain ⟨_, rfl⟩ := ran
  let row : ParticipantIdentityRow := ⟨platform, user, memory⟩
  have absent := Table.find_eq_none_iff.mp (Option.map_eq_none_iff.mp unbound)
  have free : before.participantIdentities.contains row.key = false := by
    rw [Bool.eq_false_iff]
    intro taken
    obtain ⟨old, stored, same⟩ := Table.contains_iff.mp taken
    exact absent old stored same
  refine Option.map_eq_some_iff.mpr ⟨row, Table.find_eq_some_iff.mpr ⟨?_, rfl⟩, rfl⟩
  exact Table.mem_insertOrIgnore.mpr (.inr ⟨free, rfl⟩)

theorem resolveNode_contact
    (committed : commit recordedAt source (contact before fresh node).2 before = .ok after) :
    resolveNode after node = some (contact before fresh node).1 := by
  cases node with
  | participant person =>
    simp only [contact, resolveOrMintParticipant, resolveNode] at committed ⊢
    cases bound : participantFor before person.platform person.id with
    | some =>
      rw [bound] at committed
      cases committed
      exact bound
    | none =>
      simp only [bound] at committed ⊢
      cases held : before.memoryByName (participantMint person.platform person.id) with
      | some =>
        simp only [held] at committed ⊢
        obtain ⟨next, applied, done⟩ := commit_cons_ok.mp committed
        cases done
        exact participantFor_bound applied rfl bound
      | none =>
        simp only [held] at committed ⊢
        obtain ⟨next, created, remaining⟩ := commit_cons_ok.mp committed
        obtain ⟨last, applied, done⟩ := commit_cons_ok.mp remaining
        cases done
        -- the mint binds nobody, so the key is still free
        have unbound : participantFor next person.platform person.id = none := by
          rwa [participantFor, identities_apply created rfl]
        exact participantFor_bound applied rfl unbound
  | context locator =>
    simp only [contact, resolveOrMintContext, resolveNode, resolveContext] at committed ⊢
    cases held : before.memoryByName (contextName locator) with
    | some =>
      simp only [held] at committed ⊢
      cases committed
      rw [held]
      rfl
    | none =>
      simp only [held] at committed ⊢
      obtain ⟨next, applied, done⟩ := commit_cons_ok.mp committed
      cases done
      rw [memoryByName_apply applied rfl, held]
      simp [createdMemory, Option.filter]

theorem created_of_contact {payload : EventPayload} {id : MemoryId}
    (member : payload ∈ (contact graph fresh node).2) (creates : createdId payload = some id) :
    id = fresh := by
  cases node with
  | participant =>
    simp only [contact, resolveOrMintParticipant] at member
    split at member
    · cases member
    · split at member
      · cases List.mem_singleton.mp member
        cases creates
      · rcases List.mem_pair.mp member with rfl | rfl
        · exact (Option.some.inj creates).symm
        · cases creates
  | context =>
    simp only [contact, resolveOrMintContext] at member
    split at member
    · cases member
    · cases List.mem_singleton.mp member
      exact (Option.some.inj creates).symm

theorem identified_of_contact {platform user : String} {id : MemoryId}
    (member : .participantIdentified id platform user ∈ (contact graph fresh node).2) :
    node = .participant ⟨platform, user⟩ := by
  cases node with
  | participant =>
    simp only [contact, resolveOrMintParticipant] at member
    split at member
    · cases member
    · split at member <;> simp_all
  | context =>
    simp only [contact, resolveOrMintContext] at member
    split at member <;> simp_all

theorem find_insertOrIgnore_of_ne {ρ κ : Type} [DecidableEq κ] {key : ρ → κ} {table : Table key}
    {row : ρ} {wanted : κ} (apart : key row ≠ wanted) :
    (table.insertOrIgnore row).find wanted = table.find wanted := by
  ext other
  rw [Table.find_eq_some_iff, Table.find_eq_some_iff, Table.mem_insertOrIgnore]
  constructor
  · rintro ⟨old | ⟨_, rfl⟩, same⟩
    · exact ⟨old, same⟩
    · exact absurd same apart
  · rintro ⟨old, same⟩
    exact ⟨.inl old, same⟩

theorem bearer_apply (applied : apply event before = .ok after)
    (contacts : isContact event.payload = true)
    (elsewhere : ∀ id platform user, event.payload = .participantIdentified id platform user →
      other ≠ .participant ⟨platform, user⟩)
    (bears : bearer after other = some memory) :
    bearer before other = some memory ∨ createdId event.payload = some memory := by
  have named : ∀ name, (after.memoryByName name).map (·.id) = some memory →
      (before.memoryByName name).map (·.id) = some memory ∨
        (before.memoryByName name).map (·.id) = none ∧ createdId event.payload = some memory := by
    intro name found
    rw [memoryByName_apply applied (keepsNames_of_contact contacts), Option.or_eq_some_iff] at found
    refine found.imp_right fun ⟨absent, made⟩ => ⟨absent, ?_⟩
    obtain ⟨row, created, rfl⟩ := Option.map_eq_some_iff.mp made
    exact (createdMemory_some (Option.filter_eq_some_iff.mp created).1).1
  cases other with
  | participant person =>
    have same : participantFor after person.platform person.id =
        participantFor before person.platform person.id := by
      cases payload : event.payload with
      | participantIdentified id platform user =>
        obtain ⟨projected, ran, rfl⟩ := apply_ok.mp applied
        simp only [Graph.project, payload, Script.run_statement,
          insertParticipantIdentity_ok] at ran
        obtain ⟨_, rfl⟩ := ran
        have apart : ParticipantIdentityRow.key ⟨platform, user, id⟩ ≠
            (person.platform, person.id) := by
          intro same
          cases same
          exact elsewhere _ _ _ payload rfl
        exact congrArg (Option.map ParticipantIdentityRow.memory) (find_insertOrIgnore_of_ne apart)
      | _ =>
        rw [participantFor, participantFor, identities_apply applied (by rw [payload]; rfl)]
    simp only [bearer, same, Option.or_eq_some_iff] at bears ⊢
    rcases bears with bound | ⟨unbound, found⟩
    · exact .inl (.inl bound)
    · rcases named _ found with there | ⟨_, created⟩
      · exact .inl (.inr ⟨unbound, there⟩)
      · exact .inr created
  | context => exact (named _ bears).imp_right And.right

theorem bearer_contact
    (committed : commit recordedAt source (contact before fresh node).2 before = .ok after)
    (bears : bearer after other = some memory) :
    bearer before other = some memory ∨ memory = fresh := by
  by_cases met : other = node
  · -- the node met resolves to what it came to
    subst met
    have comes : bearer after other = some (contact before fresh other).1 :=
      bearer_of_resolveNode (resolveNode_contact committed)
    rw [comes, contact_fst] at bears
    cases borne : bearer before other with
    | none =>
      rw [borne] at bears
      exact .inr (Option.some.inj bears).symm
    | some =>
      rw [borne] at bears
      exact .inl bears
  · have kept := commit_induction
      (motive := fun graph => ∀ memory, bearer graph other = some memory →
        bearer before other = some memory ∨ memory = fresh)
      (fun payload member _ _ applied earlier memory bears => by
        have elsewhere : ∀ id platform user, payload = .participantIdentified id platform user →
            other ≠ .participant ⟨platform, user⟩ := by
          rintro id platform user rfl
          rw [← identified_of_contact member]
          exact met
        rcases bearer_apply applied (isContact_contact payload member) elsewhere bears with
          there | created
        · exact earlier memory there
        · exact .inr (created_of_contact member created))
      committed (fun memory bears => .inl bears)
    exact kept memory bears

theorem classId_contact {id primary : MemoryId}
    (committed : commit recordedAt source (contact before fresh node).2 before = .ok after)
    (classed : after.classId id = some primary) :
    before.classId id = some primary ∨ id = fresh ∧ primary = fresh := by
  have kept := commit_induction
    (motive := fun graph => ∀ id primary, graph.classId id = some primary →
      before.classId id = some primary ∨ id = fresh ∧ primary = fresh)
    (fun payload member one two applied earlier id primary classed => by
      obtain ⟨row, live, rfl⟩ := Option.map_eq_some_iff.mp classed
      rw [liveRow_apply applied, Option.or_eq_some_iff] at live
      rcases live with there | ⟨_, made⟩
      · obtain ⟨old, stood, rfl⟩ := Option.map_eq_some_iff.mp there
        have stands := (Option.filter_eq_some_iff.mp stood).1
        refine earlier id _ (Option.map_eq_some_iff.mpr ⟨old, stands, ?_⟩)
        rw [memoryChange, recomputes_of_sparesClasses
          (sparesClasses_of_contact (isContact_contact payload member))]
        exact (memoryColumns_classId _ old).symm
      · obtain ⟨created, same⟩ := Option.filter_eq_some_iff.mp made
        have own := created_of_contact member (createdMemory_some created).1
        have named : row.id = id := of_decide_eq_true same
        rw [← named, (createdMemory_alone created).2]
        exact .inr ⟨own, own⟩)
    committed (fun _ _ classed => .inl classed)
  exact kept id primary classed

theorem entries_known (reachable : Reachable graph) :
    ∀ row ∈ graph.entries, graph.memories.contains row.memoryId = true := by
  induction reachable with
  | fresh =>
    intro row member
    cases member
  | apply _ _ applied ih =>
    intro row member
    rcases (mem_entries_apply applied).mp member with ⟨old, oldMem, rfl⟩ | appended
    · rw [entryChange_memoryId]
      exact contains_memory_apply (ih old oldMem) applied
    · exact contains_memory_apply (appended_of_apply applied appended).1 applied

theorem known_of_classId {id primary : MemoryId} (classed : graph.classId id = some primary) :
    graph.memories.contains id = true := by
  obtain ⟨row, live, _⟩ := Option.map_eq_some_iff.mp classed
  exact known_of_liveRow live

theorem primary_known (reachable : Reachable graph) {id primary : MemoryId}
    (classed : graph.classId id = some primary) : graph.memories.contains primary = true := by
  obtain ⟨row, live, rfl⟩ := Option.map_eq_some_iff.mp classed
  obtain ⟨best, stored, named, _⟩ := reachable.classed.best (liveRow_eq_some.mp live).1
  exact Table.contains_iff.mpr ⟨best, stored, named⟩

theorem inClass_contact {owner : MemoryId} (reachable : Reachable before)
    (new : before.memories.contains fresh = false)
    (committed : commit recordedAt source (contact before fresh node).2 before = .ok after)
    (known : before.memories.contains owner = true)
    (within : after.inClass (contact before fresh node).1 owner = true) :
    bearer before node = some (contact before fresh node).1 ∧
      before.inClass (contact before fresh node).1 owner = true := by
  obtain ⟨primary, here, there⟩ := inClass_iff.mp within
  have ownerClass : before.classId owner = some primary := by
    rcases classId_contact committed there with old | ⟨rfl, _⟩
    · exact old
    · rw [new] at known
      cases known
  rcases classId_contact committed here with old | ⟨_, rfl⟩
  · refine ⟨bearer_of_ne fun minted => ?_, inClass_iff.mpr ⟨primary, old, ownerClass⟩⟩
    -- the new memory has no class yet
    rw [← minted, known_of_classId old] at new
    cases new
  · rw [primary_known reachable ownerClass] at new
    cases new

end Contacts

end Zuihitsu.Platform
