/-
# Platform identities

A participant is known by a key, a platform and a user id on it, and a first contact
binds the key to the memory that goes by the key's qualified name, or to a new one of
that name. A key keeps the memory it was bound to for good. Two keys do not come to
share one, as long as no rename under another authority than the platform's hands a
memory that is bound already the qualified name of another key: the platform's own
blocks cannot rename onto one.
-/

import Zuihitsu.Block.Interleaving
import Zuihitsu.Graph.Applicable

namespace Zuihitsu

open Zuihitsu.Core Zuihitsu.Graph Zuihitsu.Library Zuihitsu.MemoryBlock

/-! ### Resolving a participant -/

/-- The memory a platform identity is bound to. -/
def participantFor (graph : Graph) (platform platformUserId : String) : Option MemoryId :=
  (graph.participantIdentities.find (platform, platformUserId)).map (·.memory)

/-- The qualified name of a platform identity. -/
def participantMint (platform platformUserId : String) : MemoryName :=
  (NamespacedMemoryName.mk .person (platformUserId ++ "@" ++ platform)).toMemoryName

/-- The memory of a participant, and the events a first contact appends: the identity is
bound to the live memory of its qualified name, or to a new one. -/
def resolveOrMintParticipant (graph : Graph) (fresh : MemoryId)
    (platform platformUserId : String) : MemoryId × List EventPayload :=
  match participantFor graph platform platformUserId with
  | some id => (id, [])
  | none =>
    let name := participantMint platform platformUserId
    match graph.memoryByName name with
    | some existing => (existing.id, [.participantIdentified existing.id platform platformUserId])
    | none =>
      (fresh, [.memoryCreated fresh name, .participantIdentified fresh platform platformUserId])

/-! ### Names and keys -/

/-- A platform whose name has no at sign. -/
def PlainPlatform (platform : String) : Prop := '@' ∉ platform.toList

section Names

variable {platform other user another : String}

theorem participantMint_text (platform user : String) :
    (participantMint platform user).text.toList =
      "person/".toList ++ (user.toList ++ '@' :: platform.toList) := by
  simp [participantMint, NamespacedMemoryName.toMemoryName, Namespace.handlePrefix]

theorem split_at_last {first second front back : List Char} (plain : '@' ∉ second)
    (other : '@' ∉ back) (same : first ++ '@' :: second = front ++ '@' :: back) :
    first = front ∧ second = back := by
  induction first generalizing front with
  | nil =>
    cases front with
    | nil => exact ⟨rfl, (List.cons.inj same).2⟩
    | cons char front =>
      -- the at sign of the longer front would stand in the other's back
      have back' := (List.cons.inj same).2
      rw [back'] at plain
      exact absurd (by simp) plain
  | cons char first ih =>
    cases front with
    | nil =>
      have back' := (List.cons.inj same).2
      rw [← back'] at other
      exact absurd (by simp) other
    | cons =>
      obtain ⟨here, rest⟩ := List.cons.inj same
      obtain ⟨fronts, backs⟩ := ih rest
      exact ⟨by rw [here, fronts], backs⟩

theorem participantMint_injective (plain : PlainPlatform platform)
    (otherPlain : PlainPlatform other)
    (same : participantMint platform user = participantMint other another) :
    (platform, user) = (other, another) := by
  have texts := congrArg (fun name : MemoryName => name.text.toList) same
  simp only [participantMint_text, List.append_cancel_left_eq] at texts
  obtain ⟨users, platforms⟩ := split_at_last plain otherPlain texts
  rw [String.toList_inj.mp users, String.toList_inj.mp platforms]

theorem stripLeading_append (leading rest : String) :
    stripLeading leading (leading ++ rest) = some rest := by
  rw [stripLeading, String.toList_append, if_pos, List.drop_left, String.ofList_toList]
  rw [List.isPrefixOf_iff_prefix]
  exact List.prefix_append _ _

theorem namespaced_person (subject : String) :
    (NamespacedMemoryName.mk .person subject).toMemoryName.namespaced = some ⟨.person, subject⟩ := by
  have read : stripLeading (Namespace.handlePrefix .person)
      (NamespacedMemoryName.mk .person subject).toMemoryName.text = some subject :=
    stripLeading_append _ _
  rw [MemoryName.namespaced, Namespace.all, List.findSome?_cons, read]
  rfl

theorem platformQualified_participantMint (platform user : String) :
    platformQualified (participantMint platform user) = true := by
  rw [platformQualified, participantMint, namespaced_person]
  simp [NamespacedMemoryName.isPlatformQualified]

end Names

/-! ### Bindings that stay apart -/

/-- Every bound identity is of a memory that exists, no two are of one, and a bound memory
bears no identity's qualified name but its own. -/
structure Distinct (graph : Graph) : Prop where
  known : ∀ row ∈ graph.participantIdentities, graph.memories.contains row.memory = true
  plain : ∀ row ∈ graph.participantIdentities, PlainPlatform row.platform
  apart : ∀ first ∈ graph.participantIdentities, ∀ second ∈ graph.participantIdentities,
    first.memory = second.memory → first.key = second.key
  named : ∀ row ∈ graph.participantIdentities, ∀ memory ∈ graph.memories, memory.id = row.memory →
    ∀ platform user, PlainPlatform platform → memory.name = participantMint platform user →
      (platform, user) = row.key

/-- Whether an event binds an identity. -/
def binds : EventPayload → Bool
  | .participantIdentified .. => true
  | _ => false

/-- An event gives no bound memory the qualified name of another identity. -/
def Spares (graph : Graph) : EventPayload → Prop
  | .memoryRenamed id _ newName => ∀ row ∈ graph.participantIdentities, row.memory = id →
    ∀ platform user, PlainPlatform platform → newName = participantMint platform user →
      (platform, user) = row.key
  | _ => True

section Bindings

variable {event : Event} {before after : Graph} {recordedAt : Timestamp} {source : EventSource}
variable {payloads : List EventPayload} {id : MemoryId} {platform user : String}

theorem identities_apply (applied : apply event before = .ok after)
    (unbinding : binds event.payload = false) :
    after.participantIdentities = before.participantIdentities := by
  refine (apply_frame applied).participantIdentities ?_
  cases payload : event.payload <;> simp_all [footprint, binds]

theorem participantFor_insert {graph : Graph} {row : ParticipantIdentityRow}
    (bound : participantFor graph platform user = some id) {head : Nat} :
    participantFor { graph with
      participantIdentities := graph.participantIdentities.insertOrIgnore row
      head } platform user = some id := by
  obtain ⟨kept, found, rfl⟩ := Option.map_eq_some_iff.mp bound
  obtain ⟨member, key⟩ := Table.find_eq_some_iff.mp found
  refine Option.map_eq_some_iff.mpr ⟨kept, Table.find_eq_some_iff.mpr ⟨?_, key⟩, rfl⟩
  exact Table.mem_insertOrIgnore.mpr (.inl member)

theorem participantFor_apply (applied : apply event before = .ok after)
    (bound : participantFor before platform user = some id) :
    participantFor after platform user = some id := by
  cases kind : binds event.payload with
  | false => rwa [participantFor, identities_apply applied kind]
  | true =>
    obtain ⟨projected, ran, rfl⟩ := apply_ok.mp applied
    cases payload : event.payload with
    | participantIdentified =>
      simp only [project, payload, Script.run_statement, insertParticipantIdentity_ok] at ran
      obtain ⟨_, rfl⟩ := ran
      exact participantFor_insert bound
    | _ => simp [binds, payload] at kind

theorem Distinct.apply (distinct : Distinct before) (applied : apply event before = .ok after)
    (unbinding : binds event.payload = false) (spares : Spares before event.payload) :
    Distinct after := by
  have same := identities_apply applied unbinding
  constructor
  · intro row member
    rw [same] at member
    exact (contains_memory_apply_iff applied).mpr (.inl (distinct.known row member))
  · rw [same]
    exact distinct.plain
  · rw [same]
    exact distinct.apart
  · intro row member memory stored owner platform user plain name
    rw [same] at member
    rcases (mem_memories_apply applied).mp stored with ⟨old, oldMem, rfl⟩ | created
    · rw [memoryChange_id] at owner
      rcases memoryChange_name with kept | gives
      · exact distinct.named row member old oldMem owner platform user plain (kept.symm.trans name)
      · -- a name it is given is one the event spares
        rw [name] at gives
        cases payload : event.payload with
        | memoryCreated =>
          rw [payload] at gives
          cases gives
          -- the memory is there already, so nothing creates it
          have creates : createdId event.payload = some old.id := by rw [payload]; rfl
          obtain ⟨row, made, same⟩ := exists_createdMemory creates
          have fresh := (created_of_apply applied made).1
          rw [same, Table.contains_of_mem oldMem] at fresh
          cases fresh
        | memoryRenamed =>
          rw [payload] at gives spares
          cases gives
          exact spares row member owner.symm platform user plain rfl
        | _ =>
          rw [payload] at gives
          cases gives
    · -- the memory of a bound identity is there already
      have fresh := (created_of_apply applied created).1
      rw [owner, distinct.known row member] at fresh
      cases fresh

theorem Spares.congr {payload : EventPayload} (spares : Spares before payload)
    (same : after.participantIdentities = before.participantIdentities) : Spares after payload := by
  cases payload with
  | memoryRenamed =>
    unfold Spares at spares ⊢
    rw [same]
    exact spares
  | _ => trivial

theorem Distinct.commit (distinct : Distinct before)
    (committed : commit recordedAt source payloads before = .ok after)
    (quiet : ∀ payload ∈ payloads, binds payload = false ∧ Spares before payload) :
    Distinct after := by
  induction payloads generalizing before with
  | nil =>
    cases committed
    exact distinct
  | cons payload rest ih =>
    obtain ⟨middle, applied, remaining⟩ := commit_cons_ok.mp committed
    obtain ⟨⟨unbinding, spares⟩, later⟩ := List.forall_mem_cons.mp quiet
    refine ih (distinct.apply applied unbinding spares) remaining fun other member => ?_
    obtain ⟨silent, spared⟩ := later other member
    exact ⟨silent, spared.congr (identities_apply applied unbinding)⟩

theorem row_of_memoryByName {name : MemoryName} {view : MemoryView}
    (found : before.memoryByName name = some view) :
    ∃ memory ∈ before.memories, memory.name = name ∧ memory.id = view.id := by
  obtain ⟨row, read, rfl⟩ := Option.map_eq_some_iff.mp found
  have shown := List.find?_some read
  rw [Bool.and_eq_true, decide_eq_true_eq] at shown
  exact ⟨row, List.mem_of_find?_eq_some read, shown.1, rfl⟩

theorem Distinct.unbound_of_named (distinct : Distinct before) (plain : PlainPlatform platform)
    (unbound : participantFor before platform user = none) {memory : MemoryRow}
    (stored : memory ∈ before.memories) (name : memory.name = participantMint platform user) :
    ∀ row ∈ before.participantIdentities, row.memory ≠ memory.id := by
  intro row member same
  have key := distinct.named row member memory stored same.symm platform user plain name
  have absent := Option.map_eq_none_iff.mp unbound
  exact Table.find_eq_none_iff.mp absent row member key.symm

theorem Distinct.bind (distinct : Distinct before)
    (applied : Graph.apply event before = .ok after)
    (payload : event.payload = .participantIdentified id platform user)
    (plain : PlainPlatform platform) {memory : MemoryRow} (stored : memory ∈ before.memories)
    (owner : memory.id = id) (name : memory.name = participantMint platform user)
    (free : ∀ row ∈ before.participantIdentities, row.memory ≠ id) : Distinct after := by
  obtain ⟨projected, ran, rfl⟩ := apply_ok.mp applied
  simp only [project, payload, Script.run_statement, insertParticipantIdentity_ok] at ran
  obtain ⟨_, rfl⟩ := ran
  have members : ∀ row ∈ before.participantIdentities.insertOrIgnore ⟨platform, user, id⟩,
      row ∈ before.participantIdentities ∨ row = ⟨platform, user, id⟩ := by
    intro row member
    rcases Table.mem_insertOrIgnore.mp member with old | ⟨_, new⟩
    · exact .inl old
    · exact .inr new
  constructor
  · intro row member
    rcases members row member with old | rfl
    · exact distinct.known row old
    · rw [← owner]
      exact Table.contains_of_mem stored
  · intro row member
    rcases members row member with old | rfl
    · exact distinct.plain row old
    · exact plain
  · intro first firstMem second secondMem same
    rcases members first firstMem with old | rfl
    · rcases members second secondMem with older | rfl
      · exact distinct.apart first old second older same
      · exact absurd same (free first old)
    · rcases members second secondMem with old | rfl
      · exact absurd same.symm (free second old)
      · rfl
  · intro row member other otherMem same other' user' plain' name'
    rcases members row member with old | rfl
    · exact distinct.named row old other otherMem same other' user' plain' name'
    · have one : other = memory := Table.eq_of_key_eq otherMem stored (same.trans owner.symm)
      rw [one, name] at name'
      exact (participantMint_injective plain plain' name').symm

/-- The first contact of an identity appends these events. -/
def FirstContact (graph : Graph) (payloads : List EventPayload) : Prop :=
  ∃ fresh platform user, PlainPlatform platform ∧ participantFor graph platform user = none ∧
    payloads = (resolveOrMintParticipant graph fresh platform user).2

theorem Distinct.contact {refused : List EventPayload} (distinct : Distinct before)
    (contact : FirstContact before (payloads ++ refused))
    (committed : Graph.commit recordedAt source payloads before = .ok after) : Distinct after := by
  obtain ⟨fresh, platform, user, plain, unbound, appends⟩ := contact
  rw [resolveOrMintParticipant, unbound] at appends
  dsimp only at appends
  cases payloads with
  | nil =>
    cases committed
    exact distinct
  | cons first rest =>
    obtain ⟨middle, applied, remaining⟩ := commit_cons_ok.mp committed
    cases held : before.memoryByName (participantMint platform user) with
    | some =>
      rw [held] at appends
      obtain ⟨rfl, none'⟩ := List.cons.inj appends
      obtain ⟨rfl, rfl⟩ := List.append_eq_nil_iff.mp none'
      cases remaining
      obtain ⟨memory, stored, name, owner⟩ := row_of_memoryByName held
      exact distinct.bind applied rfl plain stored owner name
        (owner ▸ distinct.unbound_of_named plain unbound stored name)
    | none =>
      rw [held] at appends
      obtain ⟨rfl, more⟩ := List.cons.inj appends
      have created := distinct.apply applied rfl trivial
      cases rest with
      | nil =>
        cases remaining
        exact created
      | cons =>
        obtain ⟨rfl, none'⟩ := List.cons.inj more
        obtain ⟨rfl, rfl⟩ := List.append_eq_nil_iff.mp none'
        obtain ⟨last, bound, nothing⟩ := commit_cons_ok.mp remaining
        cases nothing
        obtain ⟨row, made, owner⟩ : ∃ row, createdMemory
            ⟨before.head + 1, recordedAt, source, .memoryCreated fresh
              (participantMint platform user)⟩ = some row ∧ row.id = fresh :=
          exists_createdMemory rfl
        have stored := (mem_memories_apply applied).mpr (.inr made)
        have name : row.name = participantMint platform user := name_of_given applied stored
          (by rw [owner]; rfl)
        -- the memory is new, so no identity is bound to it yet
        refine created.bind bound rfl plain stored owner name fun other member same => ?_
        rw [identities_apply applied rfl] at member
        have new := (created_of_apply applied made).1
        rw [owner, ← same, distinct.known other member] at new
        cases new

end Bindings

/-! ### Runs -/

/-- Other writers delete memories and make first contacts. -/
def Admits (system : System) : System.Move → Prop
  | .append _ _ payloads => (∃ id, payloads = [.memoryDeleted id]) ∨ FirstContact system.graph payloads
  | _ => True

/-- A commit under another authority than the platform's gives no memory that is bound the
qualified name of another identity. -/
def SparesNames (system : System) : System.Move → Prop
  | .commit slot _ _ => ∀ block, system.blocks slot = some block → block.authority ≠ .platform →
    ∀ payload ∈ block.buffer, Spares system.graph payload
  | _ => True

/-- A buffer binds nothing, and under the platform's authority renames nothing onto a
qualified name. -/
structure Unqualified (block : MemoryBlock) : Prop where
  unbinding : ∀ payload ∈ block.buffer, binds payload = false
  names : block.authority = .platform → ∀ id oldName newName,
    .memoryRenamed id oldName newName ∈ block.buffer → platformQualified newName = false

section Runs

variable {graph : Graph} {block after : MemoryBlock} {now : Timestamp} {op : Operation}

theorem rename_unqualified {engine : Engine} {id : MemoryId} {newName : MemoryName}
    (platform : block.authority = .platform)
    (done : MemoryBlock.rename engine block id newName = .ok after) :
    after = block ∨ platformQualified newName = false := by
  simp only [MemoryBlock.rename, bind_eq_ok, exists_checked] at done
  obtain ⟨_, done⟩ := done
  split at done
  · cases done
    exact .inl rfl
  · simp only [bind_eq_ok, exists_const, refuseIf_ok] at done
    refine .inr ?_
    simpa [platform] using done.1

theorem Unqualified.call (unqualified : Unqualified block)
    (calls : Calls graph block (now, op) after) : Unqualified after := by
  obtain ⟨events, buffers, kinds⟩ := call_mayBuffer calls
  have authority : after.authority = block.authority := by
    obtain ⟨seeds, rfl⟩ := buffers
    rfl
  constructor
  · rw [buffers.buffer]
    refine List.forall_mem_append.mpr ⟨unqualified.unbinding, fun payload member => ?_⟩
    have kind := kinds payload member
    cases payload <;> first | rfl | (cases op <;> cases kind)
  · intro platform id oldName newName member
    rw [authority] at platform
    rw [buffers.buffer, List.mem_append] at member
    rcases member with earlier | added
    · exact unqualified.names platform id oldName newName earlier
    · have kind := kinds _ added
      cases op with
      | rename renamed given =>
        rcases rename_unqualified platform calls with same | unnamed
        · -- nothing was renamed
          have grown := buffers.buffer
          rw [same] at grown
          rw [List.self_eq_append_right.mp grown] at added
          cases added
        · rcases rename_ok calls with rfl | ⟨_, _, _, rfl⟩
          · have grown := buffers.buffer
            rw [List.self_eq_append_right.mp grown] at added
            cases added
          · have grown := buffers.buffer
            rw [pushAll_buffer, List.append_cancel_left_eq] at grown
            rw [← grown] at added
            cases List.mem_singleton.mp added
            exact unnamed
      | _ => cases kind

theorem keeps_distinct :
    Keeps (fun system move => Admits system move ∧ SparesNames system move) Distinct
      (fun _ _ block => Unqualified block) where
  opens := by
    intro slot graph block _ empty
    constructor <;> simp [empty]
  calls := by
    intro system slot now op block after _ _ _ unqualified calls
    exact unqualified.call calls
  moves := by
    intro slot event before after block _ unqualified
    exact unqualified
  folds := by
    intro system slot recordedAt source block folded refused after permitted held split committed
      distinct unqualified
    have part : ∀ payload ∈ folded, payload ∈ block.buffer := by
      intro payload member
      rw [split]
      exact List.mem_append_left _ member
    refine distinct.commit committed fun payload member =>
      ⟨unqualified.unbinding payload (part payload member), ?_⟩
    by_cases platform : block.authority = .platform
    · -- a name the platform may give is no identity's
      cases payload with
      | memoryRenamed id oldName newName =>
        have name := unqualified.names platform id oldName newName (part _ member)
        intro row _ _ other user _ same
        rw [same, platformQualified_participantMint] at name
        cases name
      | _ => trivial
    · exact permitted.2 block held platform payload (part payload member)
  appends := by
    intro system recordedAt source payloads folded refused after permitted split committed distinct
    rcases permitted.1 with ⟨id, deletes⟩ | contact
    · refine distinct.commit committed fun payload member => ?_
      have deletion : payload ∈ [EventPayload.memoryDeleted id] := by
        rw [← deletes, split]
        exact List.mem_append_left _ member
      cases List.mem_singleton.mp deletion
      exact ⟨rfl, trivial⟩
    · rw [split] at contact
      exact distinct.contact contact committed

theorem participantFor_step {before after : System} {move : System.Move}
    {platform user : String} {id : MemoryId} (step : System.Step before move after)
    (bound : participantFor before.graph platform user = some id) :
    participantFor after.graph platform user = some id := by
  have appended : ∀ recordedAt source payloads,
      participantFor (before.append recordedAt source payloads).graph platform user = some id := by
    intro recordedAt source payloads
    obtain ⟨folded, refused, _, committed⟩ := before.append_spec recordedAt source payloads
    exact commit_induction (motive := fun graph => participantFor graph platform user = some id)
      (fun _ _ _ _ applied earlier => participantFor_apply applied earlier) committed bound
  cases step with
  | «open» free empty | call | drop => exact bound
  | commit | append => exact appended _ _ _

theorem resolve_cases (graph : Graph) (fresh : MemoryId) (platform user : String) :
    (∃ row ∈ graph.participantIdentities, row.key = (platform, user) ∧
        row.memory = (resolveOrMintParticipant graph fresh platform user).1) ∨
      (∃ memory ∈ graph.memories, memory.name = participantMint platform user ∧
        memory.id = (resolveOrMintParticipant graph fresh platform user).1) ∨
      (resolveOrMintParticipant graph fresh platform user).1 = fresh := by
  rw [resolveOrMintParticipant]
  cases bound : participantFor graph platform user with
  | some =>
    obtain ⟨row, found, rfl⟩ := Option.map_eq_some_iff.mp bound
    obtain ⟨member, key⟩ := Table.find_eq_some_iff.mp found
    exact .inl ⟨row, member, key, rfl⟩
  | none =>
    dsimp only
    cases held : graph.memoryByName (participantMint platform user) with
    | some =>
      obtain ⟨memory, stored, name, owner⟩ := row_of_memoryByName held
      exact .inr (.inl ⟨memory, stored, name, owner⟩)
    | none => exact .inr (.inr rfl)

theorem Distinct.resolves_apart {platform user other another : String} {fresh new : MemoryId}
    (distinct : Distinct graph) (plain : PlainPlatform platform) (otherPlain : PlainPlatform other)
    (different : (platform, user) ≠ (other, another)) (apart : fresh ≠ new)
    (unknown : graph.memories.contains fresh = false)
    (newUnknown : graph.memories.contains new = false) :
    (resolveOrMintParticipant graph fresh platform user).1 ≠
      (resolveOrMintParticipant graph new other another).1 := by
  intro same
  -- neither comes out at the other's new memory, which is nowhere yet
  have nowhere : ∀ id platform user, graph.memories.contains id = false →
      (∃ row ∈ graph.participantIdentities, row.key = (platform, user) ∧ row.memory = id) ∨
        (∃ memory ∈ graph.memories, memory.name = participantMint platform user ∧
          memory.id = id) → False := by
    rintro id platform user absent (⟨row, member, _, rfl⟩ | ⟨memory, stored, _, rfl⟩)
    · rw [distinct.known row member] at absent
      cases absent
    · rw [Table.contains_of_mem stored] at absent
      cases absent
  have first := resolve_cases graph fresh platform user
  have second := resolve_cases graph new other another
  rw [← same] at second
  rw [← or_assoc] at first second
  rcases first with here | minted
  · rcases second with there | minted
    · rcases here with ⟨row, member, key, memory⟩ | ⟨memory, stored, name, owner⟩
      · rcases there with ⟨twin, twinMem, twinKey, twinMemory⟩ | ⟨held, heldMem, heldName, owner⟩
        · have keys := distinct.apart row member twin twinMem (memory.trans twinMemory.symm)
          exact different (key.symm.trans (keys.trans twinKey))
        · have own := distinct.named row member held heldMem (owner.trans memory.symm) other another
            otherPlain heldName
          exact different (key.symm.trans own.symm)
      · rcases there with ⟨twin, twinMem, twinKey, twinMemory⟩ | ⟨held, heldMem, heldName, heldOwner⟩
        · have own := distinct.named twin twinMem memory stored (owner.trans twinMemory.symm) platform
            user plain name
          exact different (own.trans twinKey)
        · have one : memory = held := Table.eq_of_key_eq stored heldMem (owner.trans heldOwner.symm)
          rw [one, heldName] at name
          exact different (participantMint_injective otherPlain plain name).symm
    · rw [minted] at here
      exact nowhere new platform user newUnknown here
  · rcases second with there | other'
    · rw [minted] at there
      exact nowhere fresh other another unknown there
    · exact apart (minted.symm.trans other')

end Runs

/-- Where a run starts with no identity bound, a bound identity keeps resolving to the memory
it was bound to, and if no rename under another authority than the platform's gives a bound
memory the qualified name of another identity, no two identities resolve to one memory. -/
theorem identities_stay_apart {graph : Graph} {moves : List System.Move} {system : System}
    (unbound : graph.participantIdentities.rows = [])
    (run : Trace (fun one move other => System.Step one move other ∧ Admits one move) { graph } moves
      system) :
    (∀ one, Trace.Visits (fun one move other => System.Step one move other ∧ Admits one move)
        { graph } moves system one →
      ∀ platform user id fresh, participantFor one.graph platform user = some id →
        (resolveOrMintParticipant system.graph fresh platform user).1 = id) ∧
    ((∀ one move other, Trace.Takes (fun one move other => System.Step one move other ∧
        Admits one move) { graph } moves system one move other → SparesNames one move) →
      ∀ platform user other another fresh new, PlainPlatform platform → PlainPlatform other →
        (platform, user) ≠ (other, another) → fresh ≠ new →
        system.graph.memories.contains fresh = false →
        system.graph.memories.contains new = false →
          (resolveOrMintParticipant system.graph fresh platform user).1 ≠
            (resolveOrMintParticipant system.graph new other another).1) := by
  constructor
  · rintro one ⟨earlier, later, rfl, _, following⟩ platform user id fresh bound
    have kept : participantFor system.graph platform user = some id :=
      following.invariant (fun system => participantFor system.graph platform user = some id)
        (fun _ _ _ step held => participantFor_step step.1 held) bound
    rw [resolveOrMintParticipant, kept]
  · intro spares platform user other another fresh new plain otherPlain different apart unknown
      newUnknown
    have start : ({ graph } : System).Sound Distinct fun _ _ block => Unqualified block := by
      constructor
      · constructor <;> simp [Table.mem_def, unbound]
      · intro slot block found
        cases found
    have sound := Trace.visited_of_taken start
      (fun one move two step held meets => keeps_distinct.step step.1 ⟨step.2, meets⟩ held) spares
      ⟨moves, [], by simp, run, .nil system⟩
    exact sound.graph.resolves_apart plain otherPlain different apart unknown newUnknown

/-! An operator gives the account of a participant another name, and the next participant is
first met. -/

namespace Handles

def account : MemoryId := ⟨1⟩
def second : MemoryId := ⟨2⟩

def unmet : System := { graph := {} }

/-- What the first contact with a participant appends. -/
def contacting (system : System) (fresh : MemoryId) (user : String) : List EventPayload :=
  (resolveOrMintParticipant system.graph fresh "discord" user).2

def met : System := unmet.append ⟨1⟩ .orchestration (contacting unmet account "dave")

def console : MemoryBlock := .open met.graph .agent .operator none none [] 4000
def opened : System := met.put 0 (some console)

/-- The block with the account given another name, and the system with that. -/
def retitled (name : MemoryName) : MemoryBlock :=
  (((Operation.rename account name).run ⟨met.graph, ⟨2⟩⟩ console).toOption).getD console
def pending (name : MemoryName) : System := opened.put 0 (some (retitled name))

/-- The system once that is committed. -/
def renamed (name : MemoryName) : System :=
  ((pending name).append ⟨3⟩ .operator (retitled name).buffer).put 0 none

/-- Rowan is met after it. -/
def metBoth (name : MemoryName) : System :=
  (renamed name).append ⟨4⟩ .orchestration (contacting (renamed name) second "rowan")

/-- The moves that lead there. -/
def moves (name : MemoryName) : List System.Move :=
  [.append ⟨1⟩ .orchestration (contacting unmet account "dave"), .open 0 console,
    .call 0 ⟨2⟩ (.rename account name), .commit 0 ⟨3⟩ .operator,
    .append ⟨4⟩ .orchestration (contacting (renamed name) second "rowan")]

def bare : MemoryName := ⟨"person/rowan"⟩
def qualified : MemoryName := ⟨"person/rowan@discord"⟩

/-- The steps of these runs. -/
def Moves (one : System) (move : System.Move) (other : System) : Prop :=
  System.Step one move other ∧ Admits one move

theorem meets {system : System} {fresh : MemoryId} {user : String}
    (unbound : participantFor system.graph "discord" user = none) (recordedAt : Timestamp) :
    Moves system (.append recordedAt .orchestration (contacting system fresh user))
      (system.append recordedAt .orchestration (contacting system fresh user)) :=
  ⟨.append, .inr ⟨fresh, "discord", user, by unfold PlainPlatform; decide, unbound, rfl⟩⟩

theorem opens : Moves met (.open 0 console) opened := ⟨.open rfl rfl, trivial⟩

theorem retitles {name : MemoryName}
    (calls : Calls met.graph console (⟨2⟩, .rename account name) (retitled name)) :
    Moves opened (.call 0 ⟨2⟩ (.rename account name)) (pending name) :=
  ⟨.call rfl calls, trivial⟩

theorem commits (name : MemoryName) : Moves (pending name) (.commit 0 ⟨3⟩ .operator) (renamed name) :=
  ⟨.commit rfl, trivial⟩

theorem meetsBoth {name : MemoryName}
    (calls : Calls met.graph console (⟨2⟩, .rename account name) (retitled name))
    (unbound : participantFor (renamed name).graph "discord" "rowan" = none) :
    Trace Moves unmet (moves name) (metBoth name) :=
  .cons (meets rfl ⟨1⟩) (.cons opens (.cons (retitles calls) (.cons (commits name)
    (.single (meets unbound ⟨4⟩)))))

/-- With the account renamed onto Rowan's qualified name, both are one memory. -/
theorem handles_collapse :
    unmet.graph.participantIdentities.rows = [] ∧
      Trace Moves unmet (moves qualified) (metBoth qualified) ∧
      (resolveOrMintParticipant (metBoth qualified).graph ⟨8⟩ "discord" "dave").1 =
        (resolveOrMintParticipant (metBoth qualified).graph ⟨9⟩ "discord" "rowan").1 :=
  ⟨rfl, meetsBoth rfl rfl, rfl⟩

theorem spares_bare (graph : Graph) (id : MemoryId) (oldName : MemoryName) :
    Spares graph (.memoryRenamed id oldName bare) := by
  intro row _ _ platform user _ same
  have texts := congrArg (fun name : MemoryName => '@' ∈ name.text.toList) same
  rw [participantMint_text] at texts
  simp [bare] at texts

theorem Moves.leads {one other : System} {move : System.Move} (step : Moves one move other) :
    ∀ state, Moves one move state → state = other := by
  intro state again
  exact step.1.determined again.1

theorem spares_names {one other : System} {move : System.Move}
    (takes : Trace.Takes Moves unmet (moves bare) (metBoth bare) one move other) :
    SparesNames one move := by
  obtain ⟨rfl, rfl⟩ | takes := takes.of_cons (meets rfl ⟨1⟩).leads
  · trivial
  obtain ⟨rfl, rfl⟩ | takes := takes.of_cons opens.leads
  · trivial
  obtain ⟨rfl, rfl⟩ | takes := takes.of_cons (@retitles bare rfl).leads
  · trivial
  obtain ⟨rfl, rfl⟩ | takes := takes.of_cons (commits bare).leads
  · intro block held _ payload member
    cases held
    cases List.mem_singleton.mp member
    exact spares_bare _ _ _
  obtain ⟨rfl, rfl⟩ | takes := takes.of_cons (meets rfl ⟨4⟩).leads
  · trivial
  obtain ⟨earlier, later, none', _⟩ := takes
  cases earlier <;> cases none'

/-- With the account renamed to a name without an at sign, Dave keeps it and Rowan gets another. -/
theorem handles_apart :
    (resolveOrMintParticipant (metBoth bare).graph ⟨8⟩ "discord" "dave").1 = account ∧
      (resolveOrMintParticipant (metBoth bare).graph ⟨8⟩ "discord" "dave").1 ≠
        (resolveOrMintParticipant (metBoth bare).graph ⟨9⟩ "discord" "rowan").1 := by
  have run : Trace Moves unmet (moves bare) (metBoth bare) := meetsBoth rfl rfl
  obtain ⟨kept, apart⟩ := identities_stay_apart rfl run
  constructor
  · have met : Trace.Visits Moves unmet (moves bare) (metBoth bare) (metBoth bare) :=
      ⟨moves bare, [], by simp, run, .nil _⟩
    exact kept _ met "discord" "dave" account ⟨8⟩ rfl
  · exact apart (fun _ _ _ => spares_names) "discord" "dave" "discord" "rowan" ⟨8⟩ ⟨9⟩
      (by unfold PlainPlatform; decide) (by unfold PlainPlatform; decide) (by decide) (by decide)
      rfl rfl

end Handles

end Zuihitsu
