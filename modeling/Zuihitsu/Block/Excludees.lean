/-
# Named excludees through a run

Whom an entry told with named excludees is withheld from, over every sequence of
committed blocks. The write path ranks every list of excludees alike, so a later
endorsement may name other parties than the entry does; the main result says that
this is the only way an excluded party comes to see the entry, or the text a
consolidation makes of it. An absorption makes no text: the narrower entry is
retired into one that was there already.
-/

import Zuihitsu.Block.Operations
import Zuihitsu.Block.Pending
import Zuihitsu.Library.Trace
import Zuihitsu.Visibility.Presence

namespace Zuihitsu

open Zuihitsu.Core Zuihitsu.Graph Zuihitsu.Library Zuihitsu.MemoryBlock

/-! ### What a list of excludees withholds -/

/-- A list of excludees names somebody of the identity class of every party. -/
def Covers (graph : Graph) (excluded ids : IdSet) : Prop :=
  ∀ party ∈ excluded, ∃ named ∈ ids, graph.classOf named = graph.classOf party

instance (graph : Graph) (excluded ids : IdSet) : Decidable (Covers graph excluded ids) :=
  inferInstanceAs (Decidable (∀ party ∈ excluded.members, ∃ named ∈ ids.members,
    graph.classOf named = graph.classOf party))

/-- A posture that withholds from every party of a list. -/
def Withholds (graph : Graph) (excluded : IdSet) : Visibility → Prop
  | .exclude ids => Covers graph excluded ids
  | _ => False

section Withholding

variable {graph other : Graph} {excluded : IdSet}

theorem Covers.refl (graph : Graph) (excluded : IdSet) : Covers graph excluded excluded :=
  fun party member => ⟨party, member, rfl⟩

theorem covers_congr (same : graph.classOf = other.classOf) {ids : IdSet} :
    Covers graph excluded ids ↔ Covers other excluded ids := by
  unfold Covers
  rw [same]

theorem withholds_congr (same : graph.classOf = other.classOf) {posture : Visibility} :
    Withholds graph excluded posture ↔ Withholds other excluded posture := by
  cases posture with
  | exclude => exact covers_congr same
  | _ => exact Iff.rfl

theorem not_reaches_of_withholds {memory : MemoryView} {presentSet : List MemoryId}
    {teller : Teller} {posture : Visibility} {party present : MemoryId}
    (withholds : Withholds graph excluded posture) (named : party ∈ excluded)
    (attends : present ∈ presentSet) (same : graph.classOf present = graph.classOf party) :
    ¬Reaches graph memory presentSet teller posture := by
  cases posture with
  | exclude ids =>
    obtain ⟨cover, covers, alike⟩ := withholds party named
    -- the posture names somebody of the party's class, who is present
    have blocked : noExcludeePresent (blockClassOf graph) ids presentSet = .ok false := by
      rw [noExcludeePresent_eq]
      refine congrArg Except.ok (decide_eq_false fun absent => ?_)
      exact absent cover covers present attends (same.trans alike.symm)
    rintro ⟨verdict, explained, visible⟩
    simp only [explainAttestation, AttestationView.founding, bind_eq_ok, blocked] at explained
    obtain ⟨heard, _, explained⟩ := explained
    -- the teller is absent, or else the excluded party is present
    cases heard <;> cases explained <;> cases visible
  | _ => exact withholds.elim

end Withholding

/-! ### Entries that stay withheld -/

/-- Every one of some entries was told with these excludees, and whatever stands on
it withholds from them. -/
structure Guarded (graph : Graph) (excluded : IdSet) (held : List EntryId) : Prop where
  recorded : ∀ entry ∈ held, ∃ toldBy, Recorded graph entry toldBy (.exclude excluded)
  withheld : ∀ entry ∈ held, ∀ teller posture, graph.standing entry teller = some posture →
    Withholds graph excluded posture

section Guarding

variable {event : Event} {before after : Graph} {excluded : IdSet} {held : List EntryId}

theorem Guarded.cons {entry : EntryId} (one : Guarded before excluded [entry])
    (rest : Guarded before excluded held) : Guarded before excluded (entry :: held) where
  recorded := List.forall_mem_cons.mpr ⟨one.recorded entry (by simp), rest.recorded⟩
  withheld := List.forall_mem_cons.mpr ⟨one.withheld entry (by simp), rest.withheld⟩

theorem Guarded.apply (guarded : Guarded before excluded held)
    (applied : apply event before = .ok after) (keeps : keepsClasses event.payload = true)
    (narrow : ∀ entry posture, endorsement event.payload = some (entry, posture) → entry ∈ held →
      Withholds before excluded posture) : Guarded after excluded held where
  recorded := by
    intro entry member
    obtain ⟨toldBy, recorded⟩ := guarded.recorded entry member
    exact ⟨toldBy, recorded.apply applied⟩
  withheld := by
    intro entry member teller posture stands
    have classes : after.classOf = before.classOf := by
      funext id
      rw [classOf, classOf, classId_apply applied keeps id]
    rw [withholds_congr classes]
    rcases standing_after applied stands with stood | endorses | ⟨row, appended, rfl, _⟩
    · exact guarded.withheld entry member teller posture stood
    · exact narrow entry posture endorses member
    · -- a guarded entry is there already, so no event records it again
      obtain ⟨toldBy, recorded⟩ := guarded.recorded row.entryId member
      have fresh := (appended_of_apply applied appended).2.1
      rw [recorded.contains] at fresh
      cases fresh

theorem Guarded.commit {recordedAt : Timestamp} {source : EventSource}
    {payloads : List EventPayload}
    (guarded : Guarded before excluded held)
    (committed : commit recordedAt source payloads before = .ok after)
    (keeps : ∀ payload ∈ payloads, keepsClasses payload = true)
    (narrow : ∀ payload ∈ payloads, ∀ entry posture, endorsement payload = some (entry, posture) →
      entry ∈ held → Withholds before excluded posture) : Guarded after excluded held := by
  have through : Guarded after excluded held ∧ after.classOf = before.classOf :=
    commit_induction
      (motive := fun graph => Guarded graph excluded held ∧ graph.classOf = before.classOf)
      (fun payload member first last applied ⟨earlier, classes⟩ => by
        -- the classes are carried along, since what withholds depends on them
        refine ⟨earlier.apply applied (keeps payload member) fun entry posture endorses inHeld => ?_,
          ?_⟩
        · rw [withholds_congr classes]
          exact narrow payload member entry posture endorses inHeld
        · funext id
          rw [← classes, classOf, classOf, classId_apply applied (keeps payload member) id])
      committed ⟨guarded, rfl⟩
  exact through.1

theorem guarded_of_append (reachable : Reachable before) (applied : apply event before = .ok after)
    {row : EntryRow} (appended : appendedRow event before = some row)
    (level : row.visibility = .exclude excluded) : Guarded after excluded [row.entryId] := by
  have fresh := (appended_of_apply applied appended).2.1
  have stored := (mem_entries_apply applied).mpr (.inr appended)
  refine ⟨fun entry member => ?_, fun entry member teller posture stands => ?_⟩
  · obtain rfl := List.mem_singleton.mp member
    exact ⟨row.toldBy, row, stored, rfl, rfl, level⟩
  · obtain rfl := List.mem_singleton.mp member
    -- the only endorsement is the append's own, at its level
    rw [standing_apply applied, reachable.standing_unknown fresh teller] at stands
    unfold appendedRow at appended
    split at appended
    · rename_i payload
      cases appended
      simp only [payload, heldAfter] at stands
      split at stands
      · cases stands
        have same : posture = .exclude excluded := level
        exact same ▸ Covers.refl after excluded
      · cases stands
    · cases appended

end Guarding

/-! ### Runs of committed blocks -/

/-- A graph with the block open on it, and the entries that hold one confidence: the
one it was told in, and those its text was merged into. -/
structure Watch where
  graph : Graph
  block : MemoryBlock
  held : List EntryId

/-- The graphs the open block's buffer may leave. -/
def Watch.Leaves (watch : Watch) (left : Graph) : Prop :=
  ∃ recordedAt source, commit recordedAt source watch.block.buffer watch.graph = .ok left

/-- The operations that write, endorse or withdraw entries of a memory that is there. -/
def isEntryWrite : Operation → Bool
  | .append .. | .appendDedup .. | .supersede .. | .attest .. | .retract .. | .retractAttestation ..
  | .consolidate .. | .consolidateInto .. => true
  | _ => false

/-- The entries that hold the text after an operation: a synthesis of one of them
does too. -/
def heldAfterCall (held : List EntryId) : Operation → List EntryId
  | .consolidate fresh _ sources _ _ => if sources.any (· ∈ held) then fresh :: held else held
  | _ => held

/-- What happens to a watch: a call on the open block, or its commit and the next
block. -/
inductive Move where
  | call (now : Timestamp) (op : Operation)
  | commit (recordedAt : Timestamp) (source : EventSource) (next : MemoryBlock)

/-- One move. -/
inductive Watch.Step : Watch → Move → Watch → Prop
  | call {watch : Watch} {now : Timestamp} {op : Operation} {after : MemoryBlock}
      (writes : isEntryWrite op = true) (ran : Calls watch.graph watch.block (now, op) after) :
      Step watch (.call now op) ⟨watch.graph, after, heldAfterCall watch.held op⟩
  | commit {watch : Watch} {recordedAt : Timestamp} {source : EventSource} {next : MemoryBlock}
      {committed : Graph} (opened : next.buffer = [])
      (done : Graph.commit recordedAt source watch.block.buffer watch.graph = .ok committed) :
      Step watch (.commit recordedAt source next) ⟨committed, next, watch.held⟩

/-- The open block has recorded an entry with named excludees, and buffered no
endorsement since. -/
structure Watch.Founded (excluded : IdSet) (entry : EntryId) (watch : Watch) : Prop where
  reachable : Reachable watch.graph
  held : watch.held = [entry]
  recorded : ∃ earlier later id assertedAt occurredAt text toldBy toldIn,
    watch.block.buffer = earlier ++ .memoryContentAppended id entry assertedAt occurredAt text toldBy
      toldIn (.exclude excluded) :: later ∧
    ∀ payload ∈ later, keepsClasses payload = true ∧ endorsement payload = none

/-- A move that names the excluded parties wherever it names any: an attest of an
entry that holds the text lists somebody of each one's class, and whatever is
absorbed into such an entry withholds from them too. -/
def Watch.Harmless (excluded : IdSet) (watch : Watch) : Move → Prop
  | .call _ (.attest _ entry opts) =>
    entry ∈ watch.held → ∀ ids ∈ opts.exclude, ∀ left, watch.Leaves left → Covers left excluded ids
  | .call _ (.consolidateInto id sources replacement _) =>
    replacement ∈ watch.held → ∀ source ∈ sources, ∀ live,
      liveEntry watch.graph watch.block (classWriteTarget watch.graph watch.block id) source =
          .ok live →
        ∀ left, watch.Leaves left → Withholds left excluded live.visibility
  | _ => True

section Runs

variable {excluded : IdSet} {watch : Watch} {now : Timestamp} {after : MemoryBlock}

/-- The invariant of a run: what the open block may leave is guarded. -/
structure Watch.Safe (excluded : IdSet) (watch : Watch) : Prop where
  reachable : Reachable watch.graph
  guarded : ∀ left, watch.Leaves left → Guarded left excluded watch.held

theorem Watch.Founded.safe {entry : EntryId} (founded : watch.Founded excluded entry) :
    watch.Safe excluded where
  reachable := founded.reachable
  guarded := by
    rintro left ⟨recordedAt, source, done⟩
    obtain ⟨earlier, later, id, assertedAt, occurredAt, text, toldBy, toldIn, buffered, quiet⟩ :=
      founded.recorded
    -- the buffer folds up to the append, through it, and then nothing endorses
    rw [buffered] at done
    obtain ⟨before, first, rest⟩ := commit_append_ok.mp done
    obtain ⟨middle, applied, last⟩ := commit_cons_ok.mp rest
    rw [founded.held]
    have told := guarded_of_append (founded.reachable.commit first) applied rfl rfl
    refine told.commit last (fun payload member => (quiet payload member).1) ?_
    intro payload member entry posture endorses
    rw [(quiet payload member).2] at endorses
    cases endorses

theorem Watch.Safe.buffers (safe : watch.Safe excluded) {events : List EventPayload}
    (buffered : after.buffer = watch.block.buffer ++ events)
    (keeps : ∀ payload ∈ events, keepsClasses payload = true)
    (narrow : ∀ payload ∈ events, ∀ entry posture, endorsement payload = some (entry, posture) →
      entry ∈ watch.held → ∀ left, watch.Leaves left → Withholds left excluded posture) :
    Watch.Safe excluded ⟨watch.graph, after, watch.held⟩ where
  reachable := safe.reachable
  guarded := by
    rintro left ⟨recordedAt, source, done⟩
    rw [show after.buffer = _ from buffered] at done
    obtain ⟨middle, first, rest⟩ := commit_append_ok.mp done
    have leaves : watch.Leaves middle := ⟨recordedAt, source, first⟩
    exact (safe.guarded middle leaves).commit rest keeps fun payload member entry posture endorses
      inHeld => narrow payload member entry posture endorses inHeld middle leaves

theorem Watch.Safe.quiet (safe : watch.Safe excluded) {events : List EventPayload}
    (buffered : after.buffer = watch.block.buffer ++ events)
    (quiet : ∀ payload ∈ events, keepsClasses payload = true ∧ endorsement payload = none) :
    Watch.Safe excluded ⟨watch.graph, after, watch.held⟩ := by
  refine safe.buffers buffered (fun payload member => (quiet payload member).1) ?_
  intro payload member entry posture endorses
  rw [(quiet payload member).2] at endorses
  cases endorses

theorem inlineVolatility_quiet {id : MemoryId} {opts : AppendOptions} :
    ∀ payload ∈ inlineVolatility id opts, keepsClasses payload = true ∧ endorsement payload = none :=
  forall_inlineVolatility fun _ => ⟨rfl, rfl⟩

theorem retraction_quiet {payload : EventPayload} (retraction : isRetraction payload = true) :
    keepsClasses payload = true ∧ endorsement payload = none := by
  cases payload <;> first | exact ⟨rfl, rfl⟩ | cases retraction

theorem Watch.Safe.append (safe : watch.Safe excluded) {fresh : EntryId} {id : MemoryId}
    {text : String} {opts : AppendOptions}
    (done : append ⟨watch.graph, now⟩ fresh watch.block id text opts = .ok after) :
    Watch.Safe excluded ⟨watch.graph, after, watch.held⟩ := by
  obtain ⟨_, visibility, _, _, rfl⟩ := append_ok done
  refine safe.quiet (pushAll_buffer ..) ?_
  exact List.forall_mem_cons.mpr ⟨⟨rfl, rfl⟩, inlineVolatility_quiet⟩

theorem Watch.Safe.appendDedup (safe : watch.Safe excluded) {fresh : EntryId} {id : MemoryId}
    {text : String} {opts : AppendOptions} {distinctFrom : Option EntryId} {hits : List DedupHit}
    (done : appendDedup ⟨watch.graph, now⟩ fresh watch.block id text opts distinctFrom hits =
      .ok after) :
    Watch.Safe excluded ⟨watch.graph, after, watch.held⟩ := by
  rcases appendDedup_ok done with appended | rfl | captured
  · exact safe.append appended
  · exact safe
  · obtain ⟨memory, entry, posture, phrasing, source, found, open', rfl⟩ := captured
    refine safe.buffers (pushAll_buffer ..) (by simp [keepsClasses]) ?_
    intro payload member other level endorses inHeld left leaves
    obtain rfl := List.mem_singleton.mp member
    cases endorses
    obtain ⟨toldBy, guarded⟩ := (safe.guarded left leaves).recorded entry.entryId inHeld
    obtain ⟨row, stored, view⟩ := Option.bind_eq_some_iff.mp found
    obtain ⟨_, _, read⟩ := Option.map_eq_some_iff.mp view
    obtain ⟨_, rfl⟩ := Prod.mk.inj read
    have inEntries := (Table.find_eq_some_iff.mp stored).1
    obtain ⟨recordedAt, source, done⟩ := leaves
    -- the entry was told in the graph, so both records of it are one row
    have recorded : Recorded watch.graph row.entryId row.toldBy row.visibility :=
      ⟨row, inEntries, rfl, rfl, rfl⟩
    obtain ⟨_, same⟩ := (recorded.commit done).unique guarded
    have closed : row.visibility = .exclude excluded := same
    simp [entryFromRow, closed, isAllAudience] at open'

theorem exclude_of_postureWidth {posture : Visibility}
    (level : postureWidth posture ≤ postureWidth (.exclude excluded)) :
    ∃ ids, posture = .exclude ids := by
  cases posture with
  | exclude ids => exact ⟨ids, rfl⟩
  | _ => simp [postureWidth] at level

theorem excluded_of_resolved {block : MemoryBlock} {opts : AppendOptions} {toldBy : Teller}
    {forced : Option ForcedVisibility} {name : Option MemoryName} {id : MemoryId} {ids : IdSet}
    (reconciled : reconcileForcedVisibility opts.visibility opts.exclude = .ok forced)
    (resolved : resolveVisibility block name id toldBy forced = .ok (.exclude ids)) :
    opts.exclude = some ids := by
  cases forced with
  | none =>
    -- no default names excludees
    simp only [resolveVisibility, defaultVisibilityNamed] at resolved
    split at resolved
    · cases resolved
    · split at resolved
      · cases resolved
      · split at resolved
        · split at resolved
          · split at resolved <;> cases resolved
          · cases resolved
        · cases resolved
  | some forced =>
    have chosen : forced = .exclude ids := by
      cases forced with
      | exclude =>
        cases resolved
        rfl
      | choice choice => cases choice <;> cases resolved
    subst chosen
    -- a visibility choice alone never becomes a list of excludees
    cases listed : opts.exclude with
    | none => cases visibility : opts.visibility <;>
        simp [reconcileForcedVisibility, listed, visibility] at reconciled
    | some named =>
      rw [listed] at reconciled
      unfold reconcileForcedVisibility at reconciled
      split at reconciled
      · rename_i ids' same
        cases same
        split at reconciled
        · cases reconciled
        · split at reconciled
          · cases reconciled
            rfl
          · cases reconciled
            rfl
          · cases reconciled
      · rename_i same
        cases same
      · rename_i same
        cases same

theorem Watch.Safe.attest (safe : watch.Safe excluded) {id : MemoryId} {entry : EntryId}
    {opts : AppendOptions} (done : attest ⟨watch.graph, now⟩ watch.block id entry opts = .ok after)
    (harmless : watch.Harmless excluded (.call now (.attest id entry opts))) :
    Watch.Safe excluded ⟨watch.graph, after, watch.held⟩ := by
  obtain ⟨target, live, found, forced, posture, _, reconciled, resolved, level, outcome⟩ :=
    attest_ok done
  rcases outcome with rfl | rfl
  · exact safe
  · refine safe.buffers (pushAll_buffer ..) (by simp [keepsClasses]) ?_
    intro payload member other stated endorses inHeld left leaves
    obtain rfl := List.mem_singleton.mp member
    cases endorses
    obtain ⟨listed, rfl⟩ := mem_of_liveEntry live
    obtain ⟨toldBy, guarded⟩ := (safe.guarded left leaves).recorded _ inHeld
    obtain ⟨recordedAt, source, first⟩ := leaves
    obtain ⟨_, founding⟩ := (recorded_of_live first listed).unique guarded
    -- narrower than a level with excludees is only another one
    rw [founding] at level
    obtain ⟨ids, rfl⟩ := exclude_of_postureWidth level
    exact harmless inHeld ids (excluded_of_resolved reconciled resolved) left
      ⟨recordedAt, source, first⟩

theorem Watch.Safe.consolidateInto (safe : watch.Safe excluded) {id : MemoryId}
    {sources : List EntryId} {replacement : EntryId} {producedBy : Option ProducedBy}
    (done : consolidateInto ⟨watch.graph, now⟩ watch.block id sources replacement producedBy =
      .ok after)
    (harmless : watch.Harmless excluded
      (.call now (.consolidateInto id sources replacement producedBy))) :
    Watch.Safe excluded ⟨watch.graph, after, watch.held⟩ := by
  obtain ⟨target, carried, _, _, _, inSources, _, rfl⟩ := consolidateInto_ok done
  refine safe.buffers (pushAll_buffer ..) ?_ ?_
  · intro payload member
    rcases List.mem_append.mp member with endorsing | last
    · obtain ⟨entry, _, rfl⟩ := List.mem_map.mp endorsing
      rfl
    · obtain rfl := List.mem_singleton.mp last
      rfl
  · intro payload member other stated endorses inHeld left leaves
    rcases List.mem_append.mp member with endorsing | last
    · obtain ⟨entry, entryMem, rfl⟩ := List.mem_map.mp endorsing
      cases endorses
      obtain ⟨source, sourceMem, live⟩ := mem_sourceEntries.mp (inSources entryMem)
      exact harmless inHeld source sourceMem entry live left leaves
    · obtain rfl := List.mem_singleton.mp last
      cases endorses

theorem Watch.Safe.consolidate (safe : watch.Safe excluded) {fresh : EntryId} {id : MemoryId}
    {sources : List EntryId} {text : String} {producedBy : Option ProducedBy}
    (done : consolidate ⟨watch.graph, now⟩ fresh watch.block id sources text producedBy = .ok after) :
    Watch.Safe excluded
      ⟨watch.graph, after, heldAfterCall watch.held (.consolidate fresh id sources text producedBy)⟩ := by
  obtain ⟨toldBy, visibility, level, _, _, _, rfl⟩ := consolidate_ok done
  refine ⟨safe.reachable, ?_⟩
  rintro left ⟨recordedAt, source, whole⟩
  obtain ⟨before, first, rest⟩ := commit_append_ok.mp whole
  obtain ⟨middle, applied, last⟩ := commit_cons_ok.mp rest
  have guarded := safe.guarded before ⟨recordedAt, source, first⟩
  have kept : Guarded middle excluded watch.held :=
    guarded.apply applied rfl fun _ _ endorses => nomatch endorses
  -- the endorsements of the synthesis, at the level of the sources
  have carries : ∀ held, Guarded middle excluded held → (fresh ∈ held → visibility = .exclude excluded) →
      Guarded left excluded held := by
    intro held kept level
    refine kept.commit last ?_ ?_
    · intro payload member
      rcases List.mem_append.mp member with endorsing | last
      · obtain ⟨group, _, rfl⟩ := List.mem_map.mp endorsing
        rfl
      · obtain rfl := List.mem_singleton.mp last
        rfl
    · intro payload member entry posture endorses inHeld
      rcases List.mem_append.mp member with endorsing | last
      · obtain ⟨group, _, rfl⟩ := List.mem_map.mp endorsing
        cases endorses
        rw [level inHeld]
        exact .refl middle excluded
      · obtain rfl := List.mem_singleton.mp last
        cases endorses
  show Guarded left excluded (if sources.any (· ∈ watch.held) then fresh :: watch.held else watch.held)
  split
  · rename_i meets
    obtain ⟨shared, inSources, inHeld⟩ := List.any_eq_true.mp meets
    have inHeld : shared ∈ watch.held := of_decide_eq_true inHeld
    -- the sources are at one level, so at the guarded one
    obtain ⟨entry, live, sameLevel⟩ := level shared inSources
    obtain ⟨listed, rfl⟩ := mem_of_liveEntry live
    obtain ⟨_, told⟩ := guarded.recorded _ inHeld
    obtain ⟨_, founding⟩ := (recorded_of_live first listed).unique told
    have closed : visibility = .exclude excluded := sameLevel.symm.trans founding
    have synthesized : Guarded middle excluded [fresh] :=
      guarded_of_append (safe.reachable.commit first) applied rfl closed
    exact carries _ (synthesized.cons kept) fun _ => closed
  · refine carries _ kept fun inHeld => ?_
    -- no guarded entry is recorded a second time
    obtain ⟨_, told⟩ := guarded.recorded fresh inHeld
    have absent : before.entries.contains fresh = false := (appended_of_apply applied rfl).2.1
    rw [told.contains] at absent
    cases absent

theorem Watch.Safe.step (safe : watch.Safe excluded) {move : Move} {next : Watch}
    (step : Watch.Step watch move next) (harmless : watch.Harmless excluded move) :
    next.Safe excluded := by
  cases step with
  | call writes ran =>
    rename_i now op after
    cases op with
    | append => exact safe.append ran
    | appendDedup => exact safe.appendDedup ran
    | supersede =>
      obtain ⟨_, _, rfl⟩ := supersede_ok ran
      exact safe.quiet (pushAll_buffer ..) (by simp [keepsClasses, endorsement])
    | attest => exact safe.attest ran harmless
    | retract =>
      obtain ⟨events, rfl, retractions⟩ := retract_ok ran
      exact safe.quiet (pushAll_buffer ..) fun payload member => retraction_quiet (retractions payload member)
    | retractAttestation =>
      obtain ⟨events, rfl, retractions⟩ := retractAttestation_ok ran
      exact safe.quiet (pushAll_buffer ..) fun payload member => retraction_quiet (retractions payload member)
    | consolidate => exact safe.consolidate ran
    | consolidateInto => exact safe.consolidateInto ran harmless
    | _ => cases writes
  | commit opened done =>
    refine ⟨safe.reachable.commit done, ?_⟩
    rintro left ⟨recordedAt, source, nothing⟩
    -- the next block has buffered nothing, so what it leaves is what was committed
    rw [opened] at nothing
    cases nothing
    exact safe.guarded _ ⟨_, _, done⟩

theorem Watch.Safe.run (safe : watch.Safe excluded) {moves : List Move} {last : Watch}
    (run : Trace (fun one move other => Watch.Step one move other ∧ one.Harmless excluded move) watch
      moves last) : last.Safe excluded :=
  run.invariant (Watch.Safe excluded)
    (fun _ _ _ ⟨step, harmless⟩ earlier => earlier.step step harmless) safe

/-- An entry is withheld from the excluded parties in a graph: no audience with
somebody of their classes in it is shown the entry, through whichever memory it is
read. -/
def WithheldFrom (graph : Graph) (excluded : IdSet) (entry : EntryId) : Prop :=
  ∀ party ∈ excluded, ∀ memory presentSet, ∀ present ∈ presentSet,
    graph.classOf present = graph.classOf party → ¬Shown graph memory presentSet entry

/-- However blocks go on to endorse, withdraw and consolidate an entry told with
named excludees, neither it nor what its text is merged into is ever shown to an
audience with an excluded party in it, as long as every move is harmless. -/
theorem excludees_never_shown {entry : EntryId} {last : Watch} {moves : List Move}
    (founded : watch.Founded excluded entry)
    (run : Trace (fun one move other => Watch.Step one move other ∧ one.Harmless excluded move) watch
      moves last) :
    ∀ left, last.Leaves left → ∀ kept ∈ last.held, WithheldFrom left excluded kept := by
  intro left leaves kept holds party named memory presentSet present attends same shown
  have safe := founded.safe.run run
  obtain ⟨recordedAt, source, done⟩ := leaves
  obtain ⟨_, teller, posture, stands, reaches⟩ :=
    (shown_iff (safe.reachable.commit done).endorsed).mp shown
  have withholds := (safe.guarded left ⟨recordedAt, source, done⟩).withheld kept holds teller posture
    stands
  exact not_reaches_of_withholds withholds named attends same reaches

end Runs

/-! Ines tells the agent about a surprise, to be kept from Kemi. Jonas then stands
behind what she said, and asks for it to be kept from Lena. -/

namespace Surprise

def party : MemoryId := ⟨1⟩
def ines : MemoryId := ⟨2⟩
def jonas : MemoryId := ⟨3⟩
def kemi : MemoryId := ⟨4⟩
def lena : MemoryId := ⟨5⟩

def knownGraph : Graph :=
  ((commit ⟨0⟩ .agent
    [.memoryCreated party ⟨"topic/party"⟩, .memoryCreated ines ⟨"person/ines"⟩,
      .memoryCreated jonas ⟨"person/jonas"⟩, .memoryCreated kemi ⟨"person/kemi"⟩,
      .memoryCreated lena ⟨"person/lena"⟩] Graph.fresh).toOption).getD Graph.fresh

theorem knownGraph_reachable : Reachable knownGraph := by
  have committed : commit ⟨0⟩ .agent
      [.memoryCreated party ⟨"topic/party"⟩, .memoryCreated ines ⟨"person/ines"⟩,
        .memoryCreated jonas ⟨"person/jonas"⟩, .memoryCreated kemi ⟨"person/kemi"⟩,
        .memoryCreated lena ⟨"person/lena"⟩] Graph.fresh = .ok knownGraph := rfl
  exact Reachable.fresh.commit committed

/-- A turn of a speaker. -/
def turn (speaker : MemoryId) : MemoryBlock :=
  .open knownGraph (.participant speaker) .platform none none [speaker] 4000

def toldBlock : MemoryBlock :=
  ((append ⟨knownGraph, ⟨1⟩⟩ ⟨11⟩ (turn ines) party "Kemi gets a boat"
    { exclude := some (.singleton kemi) }).toOption).getD (turn ines)

def toldGraph : Graph := ((commit ⟨1⟩ .agent toldBlock.buffer knownGraph).toOption).getD knownGraph

def told : Watch := ⟨knownGraph, toldBlock, [⟨11⟩]⟩

theorem told_founded : told.Founded (.singleton kemi) ⟨11⟩ :=
  ⟨knownGraph_reachable, rfl, [], [], party, ⟨1⟩, none, "Kemi gets a boat", .participant ines, none,
    rfl, by simp⟩

/-- The block in which Jonas stands behind it, to be kept from somebody. -/
def endorsedBlock (from' : MemoryId) : MemoryBlock :=
  ((attest ⟨toldGraph, ⟨2⟩⟩ (turn jonas) party ⟨11⟩
    { exclude := some (.singleton from') }).toOption).getD (turn jonas)

def listening : Watch := ⟨toldGraph, turn jonas, [⟨11⟩]⟩

/-- What happens in both cases: the first turn commits, and Jonas attests. -/
def moves (from' : MemoryId) : List Move :=
  [.commit ⟨1⟩ .agent (turn jonas),
    .call ⟨2⟩ (.attest party ⟨11⟩ { exclude := some (.singleton from') })]

/-- The turn of Jonas, before it commits. -/
def endorsed (from' : MemoryId) : Watch := ⟨toldGraph, endorsedBlock from', [⟨11⟩]⟩

/-- The graph both turns leave. -/
def endorsedGraph (from' : MemoryId) : Graph :=
  ((commit ⟨2⟩ .agent (endorsedBlock from').buffer toldGraph).toOption).getD toldGraph

theorem told_commits : Watch.Step told (.commit ⟨1⟩ .agent (turn jonas)) listening :=
  .commit rfl rfl

/-- With another name on its list, the endorsement shows the surprise to Kemi. -/
theorem excludee_shown :
    told.Founded (.singleton kemi) ⟨11⟩ ∧ Trace Watch.Step told (moves lena) (endorsed lena) ∧
      (endorsed lena).Leaves (endorsedGraph lena) ∧ ⟨11⟩ ∈ (endorsed lena).held ∧
      ¬WithheldFrom (endorsedGraph lena) (.singleton kemi) ⟨11⟩ := by
  refine ⟨told_founded, ?_, ⟨⟨2⟩, .agent, rfl⟩, by simp [endorsed], fun withheld => ?_⟩
  · have attests : Watch.Step listening
        (.call ⟨2⟩ (.attest party ⟨11⟩ { exclude := some (.singleton lena) })) (endorsed lena) :=
      .call rfl rfl
    exact .cons told_commits (.single attests)
  · refine withheld kemi (by simp) ⟨party, ⟨"topic/party"⟩, "", .medium, ⟨0⟩, []⟩ [jonas, kemi] kemi
      (by simp) rfl ?_
    decide

/-- With Kemi's name on it too, the general result keeps the surprise from her. -/
theorem excludees_never_shown_surprise :
    WithheldFrom (endorsedGraph kemi) (.singleton kemi) ⟨11⟩ := by
  have attests : Watch.Step listening
      (.call ⟨2⟩ (.attest party ⟨11⟩ { exclude := some (.singleton kemi) })) (endorsed kemi) :=
    .call rfl rfl
  have harmless : listening.Harmless (.singleton kemi)
      (.call ⟨2⟩ (.attest party ⟨11⟩ { exclude := some (.singleton kemi) })) := by
    intro _ ids listed left _
    cases listed
    exact .refl left _
  have leaves : (endorsed kemi).Leaves (endorsedGraph kemi) := ⟨⟨2⟩, .agent, rfl⟩
  exact excludees_never_shown told_founded
    (.cons ⟨told_commits, trivial⟩ (.single ⟨attests, harmless⟩)) _ leaves ⟨11⟩ (by simp [endorsed])

end Surprise

end Zuihitsu
