/-
# Resuming a recorded run

A recorded run is resumed at a step from its log alone: the events up to the step's watermark are
appended to a fresh store under their recorded times and sources, the clock is set to the last of
them, and the agent boots around it. That is the log, and the graph it materializes, that the run
had there, where the build has no default to register. The pauses since the last event are lost,
and the blobs of the attachments are not restored.
-/

import Mathlib.Data.List.TakeWhile
import Zuihitsu.Genesis.Prompts
import Zuihitsu.Graph.Resume

namespace Zuihitsu.Replay

open Zuihitsu.Core Zuihitsu.Graph Zuihitsu.Library Zuihitsu.Genesis

/-! ### A run's agent -/

/-- The hash of a blob. -/
structure BlobHash where
  value : Nat
  deriving DecidableEq, Repr

/-- A payload: what the graph folds of it, the template it registers, and the attachments it
names. -/
structure Payload where
  event : EventPayload
  registers : Option TemplateDef := none
  blobs : List BlobHash := []
  deriving DecidableEq

/-- An event of the log. -/
structure Recorded where
  seq : Nat
  recordedAt : Timestamp
  source : EventSource
  payload : Payload

/-- The event as the graph folds it. -/
def Recorded.event (recorded : Recorded) : Event :=
  ⟨recorded.seq, recorded.recordedAt, recorded.source, recorded.payload.event⟩

/-- The events of one append. -/
def batch (head : Nat) (recordedAt : Timestamp) (source : EventSource) :
    List Payload → List Recorded
  | [] => []
  | payload :: rest =>
    ⟨head + 1, recordedAt, source, payload⟩ :: batch (head + 1) recordedAt source rest

/-- Append payloads to a store. -/
def append (store : List Recorded) (recordedAt : Timestamp) (source : EventSource)
    (payloads : List Payload) : List Recorded :=
  store ++ batch store.length recordedAt source payloads

/-- A run's agent: its store, its graph, its clock and its blob store. -/
structure RunContext where
  log : List Recorded := []
  graph : Graph := Graph.fresh
  clock : Timestamp
  blobs : List BlobHash := []

/-- What a step does to the agent. The server appends before it materializes. -/
inductive Effect where
  | advance (millis : Int)
  | putBlob (blob : BlobHash)
  | append (source : EventSource) (payloads : List Payload)
  | materialize

/-- One effect. -/
def RunContext.does (context : RunContext) : Effect → Except Violation RunContext
  | .advance millis => .ok { context with clock := ⟨context.clock.millis + millis⟩ }
  | .putBlob blob => .ok { context with blobs := context.blobs ++ [blob] }
  | .append source payloads =>
    .ok { context with log := append context.log context.clock source payloads }
  | .materialize => do
    let graph ← materializeFrom (context.log.map Recorded.event) context.graph
    .ok { context with graph }

/-- Some effects, one after the other. -/
def RunContext.run (context : RunContext) (effects : List Effect) : Except Violation RunContext :=
  effects.foldlM RunContext.does context

/-! ### Scripts and journals -/

/-- A step of a scenario; `details` is what else it says. -/
inductive EvalStep (δ : Type) where
  | turn (attachments : List BlobHash) (details : δ)
  | interruptedTurn (details : δ)
  | imprint (details : δ)
  | settle
  | advance (millis : Int)
  | advancePastIdleGap
  | describeCatchUp
  | linkInferenceCatchUp
  | maintenanceCatchUp
  | checkpointSweep
  | seedEvents (events : List Payload)
  | tuneSupersession (details : δ)
  | tightenCompaction (details : δ)
  | forceCompaction (details : δ)
  | tuneCheckpoint (details : δ)
  | confirmProposedMerge (details : δ)
  deriving DecidableEq

/-- What the server does by itself: it appends and materializes. -/
def Effect.Serves : Effect → Prop
  | .append .. | .materialize => True
  | _ => False

/-- What a step may do. The clock waits for the human, and past the idle gap of the settings;
what the server appends is its own affair. -/
inductive Performs {δ : Type} : EvalStep δ → List Effect → Prop
  | turn {attachments : List BlobHash} {details : δ} {effects : List Effect}
    (served : ∀ effect ∈ effects, effect.Serves) :
    Performs (.turn attachments details)
      (attachments.map .putBlob ++ .advance 10000 :: effects)
  | interruptedTurn {details : δ} {first second : List Effect}
    (served : ∀ effect ∈ first ++ second, effect.Serves) :
    Performs (.interruptedTurn details) (.advance 10000 :: first ++ .advance 3000 :: second)
  | imprint {details : δ} {effects : List Effect} (served : ∀ effect ∈ effects, effect.Serves) :
    Performs (.imprint details) (.advance 10000 :: effects)
  | advance (millis : Int) : Performs (.advance millis) [.advance millis]
  | advancePastIdleGap (seconds : Int) :
    Performs .advancePastIdleGap [.advance (seconds * 1000 + 1000)]
  | seedEvents (events : List Payload) :
    Performs (.seedEvents events) [.append .agent events, .materialize]
  | serves {step : EvalStep δ} {effects : List Effect} (served : ∀ effect ∈ effects, effect.Serves)
    (plain : match step with
      | .turn .. | .interruptedTurn _ | .imprint _ | .advance _ | .advancePastIdleGap
      | .seedEvents _ => False
      | _ => True) : Performs step effects

/-- A journaled step, and the head of the log after it. -/
structure StepRecord (δ : Type) where
  step : EvalStep δ
  seqAfter : Nat

/-- A recorded run. -/
structure RunRecord (δ : Type) where
  events : List Recorded
  journal : List (StepRecord δ)

/-- The head of a log. -/
def headSeq (log : List Recorded) : Nat := (log.getLast?.map (·.seq)).getD 0

/-- The watermark behind a step that has read what was appended past the one before. -/
def watermarkAfter (log : List Recorded) (watermark : Nat) : Nat :=
  ((log.filter fun event => watermark < event.seq).getLast?.map (·.seq)).getD watermark

/-- A script is driven, and journals the head of the log after each step. -/
inductive Executes {δ : Type} : RunContext → Nat → List (EvalStep δ) → List Effect →
    List (StepRecord δ) → RunContext → Nat → Prop
  | nil (context : RunContext) (watermark : Nat) :
    Executes context watermark [] [] [] context watermark
  | cons {context middle final : RunContext} {watermark last : Nat} {step : EvalStep δ}
    {steps : List (EvalStep δ)} {effects more : List Effect} {journal : List (StepRecord δ)}
    (performs : Performs step effects) (ran : context.run effects = .ok middle)
    (rest : Executes middle (watermarkAfter middle.log watermark) steps more journal final last) :
    Executes context watermark (step :: steps) (effects ++ more)
      (⟨step, watermarkAfter middle.log watermark⟩ :: journal) final last

/-! ### Resuming -/

/-- Why a recording cannot be resumed at a step. -/
inductive ReplayError (δ : Type) where
  | unjournaled
  | pastJournal (step steps : Nat)
  | tooFewSteps (step steps : Nat)
  | drifted (index : Nat) (recorded current : EvalStep δ)
  | nothingLeft (step : Nat)

/-- The first step at which a journal differs from a script. -/
def driftAt {δ : Type} [DecidableEq δ] : Nat → List (StepRecord δ) → List (EvalStep δ) →
    Option (ReplayError δ)
  | index, recorded :: journal, current :: steps =>
    if recorded.step ≠ current then some (.drifted index recorded.step current)
    else driftAt (index + 1) journal steps
  | _, _, _ => none

/-- How many steps of a recording are kept, if it can be resumed behind this one. -/
def validate {δ : Type} [DecidableEq δ] (record : RunRecord δ) (currentSteps : List (EvalStep δ))
    (step : Nat) : Except (ReplayError δ) Nat :=
  if record.journal.isEmpty then .error .unjournaled
  else if record.journal.length ≤ step then .error (.pastJournal step record.journal.length)
  else if currentSteps.length < step + 1 then .error (.tooFewSteps step currentSteps.length)
  else match driftAt 0 (record.journal.take (step + 1)) (currentSteps.take (step + 1)) with
    | some drift => .error drift
    | none => if currentSteps.length ≤ step + 1 then .error (.nothingLeft step) else .ok (step + 1)

/-- The events up to the watermark of the last step that is kept. -/
def restoreEvents {δ : Type} (record : RunRecord δ) (kept : Nat) : List Recorded :=
  let watermark := (record.journal[kept - 1]?.map (·.seqAfter)).getD 0
  record.events.filter fun event => event.seq ≤ watermark

/-- Two events that one append may have made. -/
def Recorded.Alike (one other : Recorded) : Bool :=
  other.recordedAt = one.recordedAt && other.source = one.source

/-- Append events to a store under their recorded times and sources, as few batches. -/
def restoreVerbatim (store : List Recorded) : List Recorded → List Recorded
  | [] => store
  | first :: rest =>
    restoreVerbatim
      (append store first.recordedAt first.source
        ((first :: rest.takeWhile first.Alike).map (·.payload)))
      (rest.dropWhile first.Alike)
  termination_by events => events.length
  decreasing_by exact Nat.lt_succ_of_le (List.dropWhile_suffix _).length_le

/-- The clock a run starts at. -/
def runStart : Timestamp := ⟨1780876800000⟩

/-- The time of the last event, or of the start. -/
def lastAt (log : List Recorded) : Timestamp := (log.getLast?.map (·.recordedAt)).getD runStart

/-- The template registrations of a log. -/
def registrations (log : List Recorded) : List Registration :=
  log.filterMap fun event => event.payload.registers.map (·.registration event.source)

/-- What a boot appends: the defaults of the build that reconcile, once genesis is complete. -/
def bootRegistrations (defaults : Defaults) (log : List Recorded) : List Payload :=
  if log.any fun event => event.payload.event = .genesisCompleted then
    (reconcileTemplates defaults (registrations log)).map fun registered =>
      { event := .promptTemplateRegistered
        registers := some ⟨registered.name, registered.version, registered.body⟩ }
  else []

/-- Boot an agent around a restored log; `none` where its head is not the last event's. -/
def RunContext.restored (defaults : Defaults) (events : List Recorded) :
    Option (Except Violation RunContext) :=
  let store := restoreVerbatim [] events
  if headSeq store = headSeq events then
    some (({ log := store, clock := lastAt events } : RunContext).run
      [.append .bootstrap (bootRegistrations defaults store), .materialize])
  else none

/-- The graph that an agent's log materializes to. -/
def RunContext.materialized (context : RunContext) : Except Violation Graph :=
  materializeFrom (context.log.map Recorded.event) context.graph

/-- One agent stands where another stood, and can read what its log names. -/
structure Resumes (restored original : RunContext) : Prop where
  log : restored.log = original.log
  graph : restored.materialized = original.materialized
  clock : restored.clock = original.clock
  blobs : ∀ event ∈ original.log, ∀ blob ∈ event.payload.blobs, blob ∈ restored.blobs

/-- How long the clock has been moved since the last event. -/
def idle : Int → List Effect → Int
  | since, [] => since
  | since, .advance millis :: rest => idle (since + millis) rest
  | since, .append _ payloads :: rest => idle (if payloads = [] then since else 0) rest
  | since, _ :: rest => idle since rest

/-! ### What every effect keeps -/

section Effects

variable {context after : RunContext} {effects : List Effect} {log more : List Recorded}

/-- A log is numbered, and the graph has folded a part of it. -/
structure Sound (context : RunContext) : Prop where
  numbered : Numbered 0 (context.log.map Recorded.event)
  folded : ∃ behind pending, context.log.map Recorded.event = behind ++ pending ∧
    foldLog apply behind Graph.fresh = .ok context.graph

theorem batch_event (head : Nat) (now : Timestamp) (source : EventSource)
    (payloads : List Payload) : (batch head now source payloads).map Recorded.event =
      stamp head now source (payloads.map (·.event)) := by
  induction payloads generalizing head with
  | nil => rfl
  | cons payload rest ih => exact congrArg _ (ih (head + 1))

/-- Events under one time and one source are a batch of their payloads. -/
theorem batch_eq {now : Timestamp} {source : EventSource} {head : Nat}
    (numbered : Numbered head (log.map Recorded.event))
    (alike : ∀ event ∈ log, event.recordedAt = now ∧ event.source = source) :
    batch head now source (log.map (·.payload)) = log := by
  induction log generalizing head with
  | nil => rfl
  | cons first rest ih =>
    obtain ⟨here, later⟩ := numbered
    obtain ⟨same, remaining⟩ := List.forall_mem_cons.mp alike
    obtain ⟨seq, recordedAt, source, payload⟩ := first
    obtain ⟨rfl, rfl⟩ := same
    change seq = head + 1 at here
    subst here
    exact congrArg _ (ih later remaining)

/-- The materialized graph is the fold of the whole log. -/
theorem Sound.materialized (sound : Sound context) :
    context.materialized = foldLog apply (context.log.map Recorded.event) Graph.fresh := by
  obtain ⟨behind, pending, split, folded⟩ := sound.folded
  have numbered := sound.numbered
  rw [split] at numbered
  rw [RunContext.materialized, split, materializeFrom_of_folded numbered folded]

theorem Sound.does (sound : Sound context) {effect : Effect}
    (ran : context.does effect = .ok after) :
    Sound after ∧ ∃ added, after.log = context.log ++ added := by
  cases effect with
  | advance millis =>
    cases ran
    exact ⟨{ sound with }, [], (List.append_nil _).symm⟩
  | putBlob blob =>
    cases ran
    exact ⟨{ sound with }, [], (List.append_nil _).symm⟩
  | append source payloads =>
    cases ran
    refine ⟨⟨?_, ?_⟩, _, rfl⟩
    · have numbered := numbered_log_stamp sound.numbered context.clock source
        (payloads.map (·.event))
      rwa [List.length_map, ← batch_event, ← List.map_append] at numbered
    · obtain ⟨behind, pending, split, folded⟩ := sound.folded
      refine ⟨behind, pending ++ stamp context.log.length context.clock source
        (payloads.map (·.event)), ?_, folded⟩
      rw [← List.append_assoc, ← split, ← batch_event]
      exact List.map_append
  | materialize =>
    have materialized := sound.materialized
    rw [RunContext.materialized] at materialized
    simp only [RunContext.does, materialized] at ran
    obtain ⟨graph, folded, made⟩ := bind_eq_ok.mp ran
    cases made
    exact ⟨⟨sound.numbered, _, [], (List.append_nil _).symm, folded⟩, [], (List.append_nil _).symm⟩

theorem Sound.run (sound : Sound context) (ran : context.run effects = .ok after) :
    Sound after ∧ ∃ added, after.log = context.log ++ added := by
  induction effects generalizing context with
  | nil =>
    cases ran
    exact ⟨sound, [], (List.append_nil _).symm⟩
  | cons effect rest ih =>
    obtain ⟨middle, first, remaining⟩ := bind_eq_ok.mp ran
    obtain ⟨kept, added, grown⟩ := sound.does first
    obtain ⟨last, others, grew⟩ := ih kept remaining
    exact ⟨last, added ++ others, by rw [grew, grown, List.append_assoc]⟩

/-- The head of a numbered log is its length. -/
theorem headSeq_eq (numbered : Numbered 0 (log.map Recorded.event)) : headSeq log = log.length := by
  cases log using List.reverseRecOn with
  | nil => rfl
  | append_singleton earlier last =>
    rw [List.map_append, numbered_append] at numbered
    have here : last.seq = 0 + (earlier.map Recorded.event).length + 1 := numbered.2.1
    rw [headSeq, List.getLast?_concat, List.length_append]
    simpa using here

/-- What is past a position of a numbered log, and what is up to it. -/
theorem past_position (numbered : Numbered 0 ((log ++ more).map Recorded.event)) :
    (∀ event ∈ log, event.seq ≤ log.length) ∧ ∀ event ∈ more, log.length < event.seq := by
  rw [List.map_append, numbered_append] at numbered
  obtain ⟨earlier, later⟩ := numbered
  constructor
  · intro event member
    have bound := (numbered_bounds earlier _ (List.mem_map_of_mem member)).2
    rwa [Nat.zero_add, List.length_map] at bound
  · intro event member
    have bound := (numbered_bounds later _ (List.mem_map_of_mem member)).1
    rwa [Nat.zero_add, List.length_map] at bound

/-- The watermark behind a step is the head of the log. -/
theorem watermarkAfter_eq (numbered : Numbered 0 ((log ++ more).map Recorded.event)) :
    watermarkAfter (log ++ more) log.length = (log ++ more).length := by
  obtain ⟨upTo, past⟩ := past_position numbered
  have skipped : log.filter (fun event => decide (log.length < event.seq)) = [] :=
    List.filter_eq_nil_iff.mpr fun event member => by simpa using upTo event member
  have kept : more.filter (fun event => decide (log.length < event.seq)) = more :=
    List.filter_eq_self.mpr fun event member => by simpa using past event member
  have head := headSeq_eq numbered
  rw [watermarkAfter, List.filter_append, skipped, kept, List.nil_append]
  cases more using List.reverseRecOn with
  | nil => simp
  | append_singleton earlier last =>
    rw [headSeq, ← List.append_assoc, List.getLast?_concat] at head
    rw [List.getLast?_concat, ← List.append_assoc]
    exact head

/-- An append moves the last event to its time. -/
theorem lastAt_append {now : Timestamp} {source : EventSource} {payloads : List Payload}
    (some : payloads ≠ []) : lastAt (append log now source payloads) = now := by
  have times : ∀ head payloads, ∀ event ∈ batch head now source payloads,
      event.recordedAt = now := by
    intro head payloads
    induction payloads generalizing head with
    | nil => exact fun event member => absurd member List.not_mem_nil
    | cons payload rest ih => exact List.forall_mem_cons.mpr ⟨rfl, ih _⟩
  obtain ⟨payload, rest, rfl⟩ := List.exists_cons_of_ne_nil some
  rw [lastAt, append, List.getLast?_append, batch, List.getLast?_eq_some_getLast (by simp)]
  exact times _ (payload :: rest) _ (List.getLast_mem _)

/-- The clock is ahead of the last event by what it was moved since. -/
theorem clock_run {since : Int} (ran : context.run effects = .ok after)
    (ahead : context.clock.millis = (lastAt context.log).millis + since) :
    after.clock.millis = (lastAt after.log).millis + idle since effects := by
  induction effects generalizing context since with
  | nil =>
    cases ran
    exact ahead
  | cons effect rest ih =>
    obtain ⟨middle, first, remaining⟩ := bind_eq_ok.mp ran
    cases effect with
    | advance millis =>
      cases first
      exact ih remaining (by simp only [ahead, Int.add_assoc])
    | putBlob blob =>
      cases first
      exact ih remaining ahead
    | append source payloads =>
      cases first
      refine ih remaining ?_
      by_cases none : payloads = []
      · simpa [none, append, batch] using ahead
      · simp [lastAt_append none, none]
    | materialize =>
      obtain ⟨graph, _, made⟩ := bind_eq_ok.mp first
      cases made
      exact ih remaining ahead

/-- Restoring a numbered log appends it as it is. -/
theorem restoreVerbatim_eq (store events : List Recorded)
    (numbered : Numbered store.length (events.map Recorded.event)) :
    restoreVerbatim store events = store ++ events := by
  induction store, events using restoreVerbatim.induct with
  | case1 store => rw [restoreVerbatim, List.append_nil]
  | case2 store first rest ih =>
    have split : first :: rest =
        (first :: rest.takeWhile first.Alike) ++ rest.dropWhile first.Alike := by
      rw [List.cons_append, List.takeWhile_append_dropWhile]
    rw [split, List.map_append, numbered_append] at numbered
    have made : append store first.recordedAt first.source
        ((first :: rest.takeWhile first.Alike).map (·.payload)) =
          store ++ (first :: rest.takeWhile first.Alike) := by
      rw [append, batch_eq numbered.1]
      refine List.forall_mem_cons.mpr ⟨⟨rfl, rfl⟩, fun event member => ?_⟩
      simpa [Recorded.Alike] using List.mem_takeWhile_imp member
    rw [restoreVerbatim, ih, made, List.append_assoc, ← split]
    rw [made, List.length_append]
    simpa using numbered.2

/-- The journal's last watermark is the head of the log it leaves. -/
theorem Executes.sound {δ : Type} {watermark last : Nat} {steps : List (EvalStep δ)}
    {journal : List (StepRecord δ)}
    (executes : Executes context watermark steps effects journal after last)
    (sound : Sound context) (level : watermark = context.log.length) :
    Sound after ∧ last = after.log.length ∧ context.run effects = .ok after ∧
      (journal.getLast?.map (·.seqAfter)).getD watermark = last ∧
      ∃ added, after.log = context.log ++ added := by
  induction executes with
  | nil context watermark => exact ⟨sound, level, rfl, rfl, [], (List.append_nil _).symm⟩
  | @cons context middle final watermark last step steps effects more journal performs ran rest
      ih =>
    obtain ⟨kept, added, grown⟩ := sound.run ran
    have there : watermarkAfter middle.log watermark = middle.log.length := by
      have numbered := kept.numbered
      rw [grown] at numbered ⊢
      rw [level, watermarkAfter_eq numbered]
    obtain ⟨done, ends, remaining, marked, others, grew⟩ := ih kept there
    refine ⟨done, ends, ?_, ?_, added ++ others, by rw [grew, grown, List.append_assoc]⟩
    · rw [RunContext.run, List.foldlM_append]
      exact bind_eq_ok.mpr ⟨middle, ran, remaining⟩
    · rw [← marked]
      cases journal using List.reverseRecOn with
      | nil => rfl
      | append_singleton earlier final =>
        rw [List.getLast?_concat, ← List.cons_append, List.getLast?_concat]
        rfl

/-- A recording that is accepted is kept up to the step. -/
theorem validate_ok {δ : Type} [DecidableEq δ] {record : RunRecord δ}
    {currentSteps : List (EvalStep δ)} {step kept : Nat}
    (valid : validate record currentSteps step = .ok kept) : kept = step + 1 := by
  unfold validate at valid
  split at valid <;> try cases valid
  split at valid <;> try cases valid
  split at valid <;> try cases valid
  split at valid <;> try cases valid
  split at valid
  · cases valid
  · exact (Except.ok.inj valid).symm

end Effects

section Resuming

variable {δ : Type} [DecidableEq δ] {defaults : Defaults} {birth effects more : List Effect}
variable {born middle final : RunContext} {watermark last step : Nat}
variable {earlier later currentSteps : List (EvalStep δ)} {records rest : List (StepRecord δ)}

theorem Sound.start (clock : Timestamp) : Sound { clock } := ⟨trivial, [], [], rfl, rfl⟩

/-- What is restored is the log behind the step. -/
theorem restoreEvents_eq (bornRun : ({ clock := runStart } : RunContext).run birth = .ok born)
    (upTo : Executes born (headSeq born.log) earlier effects records middle watermark)
    (onward : Executes middle watermark later more rest final last)
    (valid : validate ⟨final.log, records ++ rest⟩ currentSteps step = .ok records.length) :
    Sound middle ∧ middle.clock.millis = (lastAt middle.log).millis + idle 0 (birth ++ effects) ∧
      restoreEvents ⟨final.log, records ++ rest⟩ records.length = middle.log := by
  obtain ⟨first, _⟩ := (Sound.start runStart).run bornRun
  obtain ⟨sound, level, ran, marked, _⟩ := upTo.sound first (headSeq_eq first.numbered)
  obtain ⟨ends, _, _, _, added, grown⟩ := onward.sound sound level
  have whole : ({ clock := runStart } : RunContext).run (birth ++ effects) = .ok middle := by
    rw [RunContext.run, List.foldlM_append]
    exact bind_eq_ok.mpr ⟨born, bornRun, ran⟩
  refine ⟨sound, clock_run whole (by simp [lastAt]), ?_⟩
  have numbered := ends.numbered
  rw [grown] at numbered
  obtain ⟨kept, past⟩ := past_position numbered
  have mark : ((records ++ rest)[records.length - 1]?.map (·.seqAfter)).getD 0 =
      middle.log.length := by
    rcases List.eq_nil_or_concat records with rfl | ⟨before, record, rfl⟩
    · cases validate_ok valid
    · rw [List.concat_eq_append, List.getLast?_concat] at marked
      simpa [level] using marked
  rw [restoreEvents, mark, grown, List.filter_append,
    List.filter_eq_self.mpr fun event member => by simpa using kept event member,
    List.filter_eq_nil_iff.mpr fun event member => by simpa using past event member,
    List.append_nil]

/-- A boot appends what it reconciles, and materializes the log. -/
theorem run_boot {log : List Recorded} {clock : Timestamp} {payloads : List Payload} :
    (⟨log, Graph.fresh, clock, []⟩ : RunContext).run [.append .bootstrap payloads, .materialize] =
      (materializeFrom ((append log clock .bootstrap payloads).map Recorded.event)
        Graph.fresh).map fun graph => ⟨append log clock .bootstrap payloads, graph, clock, []⟩ := by
  simp only [RunContext.run, List.foldlM_cons, List.foldlM_nil, RunContext.does]
  cases folded : materializeFrom ((append log clock .bootstrap payloads).map Recorded.event)
    Graph.fresh <;> simp [bind, Except.bind, pure, Except.pure, Except.map, folded]

/-- The clock of a restored agent is at the last event. -/
theorem clock_restored {defaults : Defaults} {events : List Recorded} {restored : RunContext}
    (made : RunContext.restored defaults events = some (.ok restored)) :
    restored.clock = lastAt events := by
  unfold RunContext.restored at made
  dsimp only at made
  split at made
  · rw [run_boot] at made
    cases folded : materializeFrom ((append (restoreVerbatim [] events) (lastAt events) .bootstrap
        (bootRegistrations defaults (restoreVerbatim [] events))).map Recorded.event) Graph.fresh <;>
      rw [folded] at made <;> cases made
    rfl
  · cases made

/-- A run is resumed where it stood if and only if its log materializes, the clock has not been
moved since the last event, the build has no default to register and no event names an
attachment. -/
theorem resumes_iff (bornRun : ({ clock := runStart } : RunContext).run birth = .ok born)
    (upTo : Executes born (headSeq born.log) earlier effects records middle watermark)
    (onward : Executes middle watermark later more rest final last)
    (valid : validate ⟨final.log, records ++ rest⟩ currentSteps step = .ok records.length) :
    (∃ restored, RunContext.restored defaults
        (restoreEvents ⟨final.log, records ++ rest⟩ records.length) = some (.ok restored) ∧
        Resumes restored middle) ↔
      (∃ graph, middle.materialized = .ok graph) ∧ idle 0 (birth ++ effects) = 0 ∧
        bootRegistrations defaults middle.log = [] ∧
        ∀ event ∈ middle.log, event.payload.blobs = [] := by
  obtain ⟨sound, ahead, same⟩ := restoreEvents_eq bornRun upTo onward valid
  have verbatim : restoreVerbatim [] middle.log = middle.log :=
    restoreVerbatim_eq [] middle.log sound.numbered
  have unread : materializeFrom (middle.log.map Recorded.event) Graph.fresh =
      middle.materialized := by
    rw [sound.materialized]
    exact @materializeFrom_of_folded [] _ _ sound.numbered rfl
  rw [same, RunContext.restored, verbatim, if_pos rfl, run_boot]
  constructor
  · rintro ⟨restored, made, resumes⟩
    cases folded : materializeFrom ((append middle.log (lastAt middle.log) .bootstrap
        (bootRegistrations defaults middle.log)).map Recorded.event) Graph.fresh with
    | error violation =>
      rw [folded] at made
      cases made
    | ok graph =>
      rw [folded] at made
      cases made
      have nothing : bootRegistrations defaults middle.log = [] := by
        have grown := List.append_right_eq_self.mp resumes.log
        cases regs : bootRegistrations defaults middle.log with
        | nil => rfl
        | cons payload rest =>
          rw [regs] at grown
          cases grown
      refine ⟨⟨graph, ?_⟩, ?_, nothing, fun event member => ?_⟩
      · rw [← unread, ← folded]
        exact congrArg (fun log => materializeFrom (log.map Recorded.event) _) resumes.log.symm
      · have clock := congrArg Timestamp.millis resumes.clock
        change (lastAt middle.log).millis = middle.clock.millis at clock
        omega
      · exact List.eq_nil_iff_forall_not_mem.mpr fun blob named =>
          absurd (resumes.blobs event member blob named) List.not_mem_nil
  · rintro ⟨⟨graph, folded⟩, still, nothing, unnamed⟩
    have whole : append middle.log (lastAt middle.log) .bootstrap [] = middle.log :=
      List.append_nil _
    rw [nothing, whole, unread, folded]
    refine ⟨_, rfl, rfl, ?_, ?_, fun event member blob named => ?_⟩
    · have fold := sound.materialized.symm.trans folded
      rw [folded, RunContext.materialized]
      have again := @materializeFrom_of_folded (middle.log.map Recorded.event) [] graph
        (by rw [List.append_nil]; exact sound.numbered) fold
      rw [List.append_nil] at again
      exact again.trans fold
    · have equal : lastAt middle.log = middle.clock :=
        congrArg Timestamp.mk (by omega : (lastAt middle.log).millis = middle.clock.millis)
      exact equal
    · rw [unnamed event member] at named
      cases named

end Resuming

/-! ### A run that pauses -/

namespace PausedRun

def birth : List Effect := [.append .bootstrap [{ event := .genesisCompleted }], .materialize]

/-- The agent behind genesis and some pause. -/
def agent (millis : Int) : RunContext where
  log := [⟨1, runStart, .bootstrap, { event := .genesisCompleted }⟩]
  graph := { Graph.fresh with head := 1 }
  clock := ⟨runStart.millis + millis⟩

/-- A script that pauses for a day, and one that does not. -/
def script (millis : Int) : List (EvalStep Unit) := [.advance millis, .settle]

/-- Its recording. -/
def recording (millis : Int) : RunRecord Unit :=
  ⟨(agent millis).log, (script millis).map fun step => ⟨step, 1⟩⟩

theorem born_agent : ({ clock := runStart } : RunContext).run birth = .ok (agent 0) := rfl

theorem paused (millis : Int) : Executes (agent 0) 1 [(.advance millis : EvalStep Unit)]
    [.advance millis] [⟨.advance millis, 1⟩] (agent millis) 1 :=
  .cons (.advance millis) (by simp [RunContext.run, RunContext.does]; rfl) (.nil _ _)

theorem settled (millis : Int) :
    Executes (agent millis) 1 [(.settle : EvalStep Unit)] [] [⟨.settle, 1⟩] (agent millis) 1 :=
  show Executes (agent millis) 1 [(.settle : EvalStep Unit)] ([] ++ [])
      [⟨.settle, watermarkAfter (agent millis).log 1⟩] (agent millis) 1 from
    .cons (.serves (fun _ member => absurd member List.not_mem_nil) trivial) rfl (.nil _ _)

/-- Resumed behind a day's pause, the clock stands where the pause began. -/
theorem pause_lost :
    Executes (agent 0) 1 [(.advance 86400000 : EvalStep Unit)] [.advance 86400000]
        [⟨.advance 86400000, 1⟩] (agent 86400000) 1 ∧
      validate (recording 86400000) (script 86400000) 0 = .ok 1 ∧
      ¬∃ restored, RunContext.restored ⟨[], .nil⟩ (restoreEvents (recording 86400000) 1) =
          some (.ok restored) ∧ Resumes restored (agent 86400000) := by
  refine ⟨paused _, rfl, fun ⟨restored, made, resumes⟩ => ?_⟩
  have clock := resumes.clock.symm.trans (clock_restored made)
  exact absurd (congrArg Timestamp.millis clock) (by decide)

/-- Behind a step that does not pause, it stands where it stood. -/
theorem resumes_settled :
    ∃ restored, RunContext.restored ⟨[], .nil⟩ (restoreEvents (recording 0) 1) =
      some (.ok restored) ∧ Resumes restored (agent 0) :=
  (resumes_iff born_agent (paused 0) (settled 0)
    (show validate (recording 0) (script 0) 0 = .ok 1 from rfl)).mpr
      ⟨⟨_, rfl⟩, rfl, rfl, by simp [agent]⟩

end PausedRun

end Zuihitsu.Replay
