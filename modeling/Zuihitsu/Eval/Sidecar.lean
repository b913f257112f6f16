/-
# The sidecar of a suite

A suite writes a line for every run that starts and every run that completes to a file beside its
package, through a buffer that is flushed behind each completion. Killed, it resumes from the file
and drives what the file does not hold; finished, it folds the file into the package and removes
it. A heal drives again the runs an outage spoiled, from the package if the file is gone, and
writes the others to a new file first.

A kill may leave the last line torn. No later resume reads such a file, and behind a line that
lacks its newline only, the next one is appended. A heal that is killed before it has written what
the package held leaves a file with less, which later resumes prefer.
-/

import Zuihitsu.Core.Text
import Zuihitsu.Library.Lines
import Zuihitsu.Library.Lossy
import Zuihitsu.Library.Table
import Zuihitsu.Library.Trace
import Mathlib.Data.List.TakeWhile
import Mathlib.Logic.Equiv.List
import Mathlib.Tactic.DeriveEncodable

namespace Zuihitsu.Eval

open Zuihitsu.Core Zuihitsu.Library

variable {μ ν ε δ α : Type}

/-! ### The package -/

/-- The metadata of a suite; its finish is stamped at the end. -/
structure RunMeta (μ : Type) where
  finishedAtMs : Int
  details : μ

/-- A scenario's name, and what else describes it. -/
structure ScenarioMeta (ν : Type) where
  name : String
  details : ν

/-- The kinds of step a scenario is driven by. -/
inductive EvalStep where
  | turn
  | interruptedTurn
  | imprint
  | settle
  | advance
  | describeCatchUp
  | linkInferenceCatchUp
  | maintenanceCatchUp
  | checkpointSweep
  | seedEvents
  | tuneSupersession
  | tightenCompaction
  | forceCompaction
  | tuneCheckpoint
  | confirmProposedMerge
  | advancePastIdleGap

/-- The steps that issue at least one generation. -/
def EvalStep.drivesModel : EvalStep → Bool
  | .turn | .interruptedTurn | .imprint => true
  | _ => false

/-- A run's record: its log, its journal, and what else was measured and judged of it. -/
structure RunRecord (ε δ : Type) where
  index : Nat
  finishedAtMs : Int
  events : List ε
  journal : List EvalStep
  modelCalls : Nat
  details : δ

/-- A run an outage spoiled: it ended in an error, or every turn of it was deferred. -/
def infraFailed (record : RunRecord ε δ) : Bool :=
  let erroredOut := record.events.isEmpty && record.journal.isEmpty
  let deferredThroughout := record.modelCalls == 0 && record.journal.any EvalStep.drivesModel
  erroredOut || deferredThroughout

structure ScenarioReport (ν ε δ α : Type) where
  scenarioMeta : ScenarioMeta ν
  runs : List (RunRecord ε δ)
  aggregate : α

structure EvalPackage (μ ν ε δ α : Type) where
  runMeta : RunMeta μ
  scenarios : List (ScenarioReport ν ε δ α)

/-- A run is known by its scenario and its index. -/
def keyOf (row : Nat × RunRecord ε δ) : Nat × Nat := (row.1, row.2.index)

/-- The runs of a package with their scenarios, in order. -/
def EvalPackage.completed (package : EvalPackage μ ν ε δ α) : List (Nat × RunRecord ε δ) :=
  package.scenarios.zipIdx.flatMap fun entry => entry.1.runs.map fun record => (entry.2, record)

/-- The runs a sink holds, which are not driven. -/
def EvalPackage.doneRuns (package : EvalPackage μ ν ε δ α) : List (Nat × Nat) :=
  package.completed.map keyOf

/-! ### The lines -/

/-- An event of the live log. Of the kinds that are broadcast only, none is written to the file. -/
inductive LiveEvent (μ ν ε δ α : Type) where
  | manifest (runMeta : RunMeta μ) (scenarios : List (ScenarioMeta ν))
  | runStarted (scenario run : Nat) (atMs : Int)
  | runCompleted (scenario run : Nat) (record : RunRecord ε δ) (aggregate : α) (atMs : Int)
  | finished (finishedAtMs : Int)
  | broadcastOnly

/-- The JSON text of an event, and a reader of texts. -/
structure JsonCodec (μ ν ε δ α : Type) where
  write : LiveEvent μ ν ε δ α → List Char
  read : List Char → Option (LiveEvent μ ν ε δ α)

/-- What is documented of it: an event is an object on one line, it reads back, and an object that
is not closed is refused. -/
structure JsonCodec.Lawful (codec : JsonCodec μ ν ε δ α) : Prop where
  line : ∀ event, '\n' ∉ codec.write event
  object : ∀ event, ∃ fields, codec.write event = '{' :: fields ++ ['}']
  reads : ∀ event, codec.read (codec.write event) = some event
  closed : ∀ event front back, codec.write event = front ++ back → back ≠ [] →
    codec.read front = none

def newline : UInt8 := 0x0a

def carriageReturn : UInt8 := 0x0d

section Codec

variable (codec : JsonCodec μ ν ε δ α)

/-- The bytes of an event's text. -/
def JsonCodec.bytes (event : LiveEvent μ ν ε δ α) : List UInt8 := Lossy.encode (codec.write event)

/-- The file of the events, one a line. -/
def JsonCodec.file (events : List (LiveEvent μ ν ε δ α)) : List UInt8 :=
  Lines.text newline codec.bytes events

/-! ### Reading the file -/

/-- A line without the carriage return of its end. -/
def stripReturn (line : List UInt8) : List UInt8 :=
  if line.getLast? = some carriageReturn then line.dropLast else line

inductive SidecarError where
  | io
  | json
  | noManifest

/-- What has been read so far. -/
structure Folded (μ ν ε δ : Type) where
  runMeta : Option (RunMeta μ)
  scenarios : List (ScenarioMeta ν)
  completed : Table (keyOf : Nat × RunRecord ε δ → Nat × Nat)
  lastCompletedAtMs : Option Int

def Folded.start : Folded μ ν ε δ := ⟨none, [], .empty, none⟩

/-- One event read: a later completion of a run takes the place of an earlier one. -/
def Folded.read (folded : Folded μ ν ε δ) : LiveEvent μ ν ε δ α → Folded μ ν ε δ
  | .manifest runMeta scenarios => { folded with runMeta := some runMeta, scenarios }
  | .runCompleted scenario _ record _ atMs =>
    { folded with
      completed := folded.completed.insertOrReplace (scenario, record)
      lastCompletedAtMs := some ((folded.lastCompletedAtMs.map (max · atMs)).getD atMs) }
  | _ => folded

/-- One line read; a blank one is passed over. -/
def readLine (folded : Folded μ ν ε δ) (line : List UInt8) : Except SidecarError (Folded μ ν ε δ) :=
  match Lossy.strict line with
  | none => .error .io
  | some text =>
    if (trimmed text).isEmpty then .ok folded
    else
      match codec.read text with
      | none => .error .json
      | some event => .ok (folded.read event)

/-- What a suite resumes from. -/
structure ResumeState (μ ν ε δ : Type) where
  runMeta : RunMeta μ
  scenarios : List (ScenarioMeta ν)
  completed : List (Nat × RunRecord ε δ)
  lastCompletedAtMs : Option Int

/-- The order of the runs, by scenario and index. -/
def keyBefore (one other : Nat × RunRecord ε δ) : Bool :=
  one.1 < other.1 || one.1 == other.1 && one.2.index ≤ other.2.index

/-- A suite folded from its file. -/
def readSidecar (file : List UInt8) : Except SidecarError (ResumeState μ ν ε δ) :=
  match (Lines.linesFrom newline stripReturn [] file).foldlM (readLine codec) Folded.start with
  | .error cause => .error cause
  | .ok folded =>
    match folded.runMeta with
    | none => .error .noManifest
    | some runMeta =>
      .ok ⟨runMeta, folded.scenarios, folded.completed.rows.mergeSort keyBefore,
        folded.lastCompletedAtMs⟩

end Codec

/-! ### Resuming -/

/-- The resume state of a finished package. -/
def resumeStateFromPackage (package : EvalPackage μ ν ε δ α) : ResumeState μ ν ε δ :=
  ⟨package.runMeta, package.scenarios.map ScenarioReport.scenarioMeta, package.completed,
    some package.runMeta.finishedAtMs⟩

/-- The scenarios of a manifest taken out of the active ones by name, in its order. -/
def takeByName : List (ScenarioMeta ν) → Table (ScenarioMeta.name : ScenarioMeta ν → String) →
    Option (List (ScenarioMeta ν))
  | [], byName => if byName.rows.isEmpty then some [] else none
  | wanted :: rest, byName =>
    match byName.find wanted.name with
    | none => none
    | some scenario =>
      (takeByName rest (byName.delete fun other => other.name = wanted.name)).map (scenario :: ·)

/-- The active scenarios in the order of a manifest; the two must match by name. -/
def alignToManifest (active manifest : List (ScenarioMeta ν)) : Option (List (ScenarioMeta ν)) :=
  takeByName manifest (active.foldl Table.insertOrReplace .empty)

/-- What an outage has not spoiled, and the keys of what it has. -/
def takeInfraFailed (completed : List (Nat × RunRecord ε δ)) :
    List (Nat × RunRecord ε δ) × List (Nat × Nat) :=
  (completed.filter fun row => !infraFailed row.2,
    (completed.filter fun row => infraFailed row.2).map keyOf)

structure Resume where
  enabled : Bool
  retryInfraFailed : Bool

inductive ResumeSource where
  | sidecar
  | package
  | fresh (warnNoHealTarget : Bool)

/-- The file goes before the package, which is for a heal only. -/
def resumeSource (resume : Resume) (sidecarExists packageExists : Bool) : ResumeSource :=
  if resume.enabled && sidecarExists then .sidecar
  else if resume.enabled && resume.retryInfraFailed && packageExists then .package
  else .fresh resume.retryInfraFailed

section Sink

variable (aggregate : List (RunRecord ε δ) → α)

/-- A report with its runs in order and their aggregate. -/
def ScenarioReport.settled (report : ScenarioReport ν ε δ α) : ScenarioReport ν ε δ α :=
  let runs := report.runs.mergeSort fun one other => one.index ≤ other.index
  { report with runs, aggregate := aggregate runs }

/-- A package with every scenario and no runs yet. -/
def emptyPackage (runMeta : RunMeta μ) (scenarios : List (ScenarioMeta ν)) : EvalPackage μ ν ε δ α :=
  ⟨runMeta, scenarios.map fun scenario => ⟨scenario, [], aggregate []⟩⟩

/-- A package with a run added to its scenario, which must be there. -/
def EvalPackage.push (package : EvalPackage μ ν ε δ α) (row : Nat × RunRecord ε δ) :
    Option (EvalPackage μ ν ε δ α) :=
  package.scenarios[row.1]?.map fun report =>
    { package with
      scenarios := package.scenarios.set row.1 { report with runs := report.runs ++ [row.2] } }

/-- The package of a sink that goes on with a suite. -/
def resumePackage (runMeta : RunMeta μ) (scenarios : List (ScenarioMeta ν))
    (completed : List (Nat × RunRecord ε δ)) : Option (EvalPackage μ ν ε δ α) :=
  (completed.foldlM EvalPackage.push (emptyPackage aggregate runMeta scenarios)).map fun package =>
    { package with scenarios := package.scenarios.map (ScenarioReport.settled aggregate) }

/-- A finished run folded into its scenario, and the line it is written as. -/
def EvalPackage.finish (package : EvalPackage μ ν ε δ α) (row : Nat × RunRecord ε δ) :
    Option (EvalPackage μ ν ε δ α × LiveEvent μ ν ε δ α) :=
  package.scenarios[row.1]?.map fun report =>
    let report := ScenarioReport.settled aggregate { report with runs := report.runs ++ [row.2] }
    ({ package with scenarios := package.scenarios.set row.1 report },
      .runCompleted row.1 row.2.index row.2 report.aggregate row.2.finishedAtMs)

end Sink

/-! ### A suite and its kills -/

/-- How far a process has come: it folds the runs it keeps into its file, drives, has written its
end, has flushed it, has written the package. -/
inductive Stage where
  | seeding
  | driving
  | finishing
  | filing
  | filed
  deriving DecidableEq

/-- A process that runs the suite: its sink's package and buffer; the completion it has written and
not flushed, behind the lock; the runs it has still to fold into its file; how many scenarios and
runs there are; the runs done before, those that have started and those that have finished. -/
structure Process (μ ν ε δ α : Type) where
  package : EvalPackage μ ν ε δ α
  buffer : List UInt8
  writing : Option (Nat × RunRecord ε δ)
  seeds : List (Nat × RunRecord ε δ)
  active : Nat
  runs : Nat
  stage : Stage
  done : List (Nat × Nat)
  inFlight : List (Nat × Nat)
  finished : List (Nat × Nat)

/-- The file and the package on disk, and the process if one runs. Noted beside: the lines written
to the file, after a kill those it left whole; and the runs that completed, not spoiled, since the
suite last started afresh. -/
structure State (μ ν ε δ α : Type) where
  sidecar : Option (List UInt8)
  package : Option (EvalPackage μ ν ε δ α)
  process : Option (Process μ ν ε δ α)
  lines : List (LiveEvent μ ν ε δ α)
  healthy : List (Nat × Nat)

def State.empty : State μ ν ε δ α := ⟨none, none, none, [], []⟩

inductive Label (μ ν ε δ : Type) where
  | launch (resume : Resume) (runs : Nat) (active : List (ScenarioMeta ν)) (runMeta : RunMeta μ)
  /-- the buffer hands on so many bytes -/
  | handOn (count : Nat)
  | seed
  | drive
  | runStarted (scenario run : Nat) (atMs : Int)
  | runFinished (scenario : Nat) (record : RunRecord ε δ)
  | flush
  | finish (finishedAtMs : Int)
  | writePackage
  | removeSidecar
  | kill

/-- A process as it opens. -/
def Process.opening (package : EvalPackage μ ν ε δ α) (buffer : List UInt8)
    (seeds : List (Nat × RunRecord ε δ)) (active runs : Nat) : Process μ ν ε δ α :=
  ⟨package, buffer, none, seeds, active, runs, .seeding, [], [], []⟩

section Steps

variable (codec : JsonCodec μ ν ε δ α) (aggregate : List (RunRecord ε δ) → α)

/-- A new sink over a new file, with the manifest in its buffer. -/
def State.create (state : State μ ν ε δ α) (runMeta : RunMeta μ) (scenarios : List (ScenarioMeta ν))
    (seeds : List (Nat × RunRecord ε δ)) (active runs : Nat) : State μ ν ε δ α :=
  { state with
    sidecar := some []
    lines := [.manifest runMeta scenarios]
    process := some (.opening (emptyPackage aggregate runMeta scenarios)
      (codec.file [.manifest runMeta scenarios]) seeds active runs) }

/-- A suite is launched; where it refuses to go on from what is there, nothing comes of it. -/
def State.launch (state : State μ ν ε δ α) (resume : Resume) (runs : Nat)
    (active : List (ScenarioMeta ν)) (runMeta : RunMeta μ) : Option (State μ ν ε δ α) :=
  match resumeSource resume state.sidecar.isSome state.package.isSome with
  | .sidecar => do
    let file ← state.sidecar
    let resumed ← (readSidecar codec file).toOption
    let aligned ← alignToManifest active resumed.scenarios
    let completed :=
      if resume.retryInfraFailed then (takeInfraFailed resumed.completed).1 else resumed.completed
    let package ← resumePackage aggregate resumed.runMeta resumed.scenarios completed
    some { state with process := some (.opening package [] [] aligned.length runs) }
  | .package => do
    let package ← state.package
    let resumed := resumeStateFromPackage package
    let aligned ← alignToManifest active resumed.scenarios
    let seeds := (takeInfraFailed resumed.completed).1
    some (state.create codec aggregate resumed.runMeta resumed.scenarios seeds aligned.length runs)
  | .fresh _ =>
    some { state.create codec aggregate runMeta active [] active.length runs with healthy := [] }

/-- A process writes an event to its buffer. -/
def State.write (state : State μ ν ε δ α) (process : Process μ ν ε δ α)
    (event : LiveEvent μ ν ε δ α) : State μ ν ε δ α :=
  { state with
    lines := state.lines ++ [event]
    process := some { process with buffer := process.buffer ++ codec.file [event] } }

/-- A run is finished: its completion is in the buffer, and the lock is held for the flush. -/
def State.finishRun (state : State μ ν ε δ α) (process : Process μ ν ε δ α)
    (row : Nat × RunRecord ε δ) : Option (State μ ν ε δ α) :=
  (process.package.finish aggregate row).map fun folded =>
    state.write codec { process with package := folded.1, writing := some row } folded.2

/-- The lock is free and the process at a stage. -/
def Process.At (process : Process μ ν ε δ α) (stage : Stage) : Prop :=
  process.writing = none ∧ process.stage = stage

instance (process : Process μ ν ε δ α) (stage : Stage) : Decidable (process.At stage) :=
  match unlocked : process.writing with
  | none => decidable_of_iff (process.stage = stage) (by simp [Process.At, unlocked])
  | some _ => .isFalse (by simp [Process.At, unlocked])

/-- A run that is to be driven. -/
def Process.Due (process : Process μ ν ε δ α) (key : Nat × Nat) : Prop :=
  key.1 < process.active ∧ key.2 < process.runs ∧ key ∉ process.done ∧ key ∉ process.inFlight ∧
    key ∉ process.finished

instance (process : Process μ ν ε δ α) (key : Nat × Nat) : Decidable (process.Due key) :=
  inferInstanceAs (Decidable (_ ∧ _))

/-- Every run that is to be driven has finished. -/
def Process.AllDriven (process : Process μ ν ε δ α) : Prop :=
  process.inFlight = [] ∧ ∀ scenario ∈ List.range process.active, ∀ run ∈ List.range process.runs,
    ¬process.Due (scenario, run)

instance (process : Process μ ν ε δ α) : Decidable process.AllDriven :=
  inferInstanceAs (Decidable (_ ∧ _))

/-- A process behind the flush of a run's completion. -/
def Process.unlocked (process : Process μ ν ε δ α) (row : Nat × RunRecord ε δ) :
    Process μ ν ε δ α :=
  { process with
    buffer := []
    writing := none
    seeds := process.seeds.tail
    inFlight := process.inFlight.filter (· ≠ keyOf row)
    finished := process.finished ++ [keyOf row] }

/-- One step of the process, its buffer or its end. -/
def step (state : State μ ν ε δ α) : Label μ ν ε δ → Option (State μ ν ε δ α)
  | .launch resume runs active runMeta =>
    if state.process.isSome then none else state.launch codec aggregate resume runs active runMeta
  | .handOn count => do
    let process ← state.process
    let file ← state.sidecar
    some { state with
      sidecar := some (file ++ process.buffer.take count)
      process := some { process with buffer := process.buffer.drop count } }
  | .seed => do
    let process ← state.process
    let row ← process.seeds.head?
    if process.At .seeding then state.finishRun codec aggregate process row else none
  | .drive => do
    let process ← state.process
    if process.At .seeding ∧ process.seeds = [] then
      let process := { process with stage := .driving, done := process.package.doneRuns }
      some { state with process := some process }
    else none
  | .runStarted scenario run atMs => do
    let process ← state.process
    if process.At .driving ∧ process.Due (scenario, run) then
      some (state.write codec { process with inFlight := process.inFlight ++ [(scenario, run)] }
        (.runStarted scenario run atMs))
    else none
  | .runFinished scenario record => do
    let process ← state.process
    if process.At .driving ∧ (scenario, record.index) ∈ process.inFlight then
      state.finishRun codec aggregate process (scenario, record)
    else none
  | .flush => do
    let process ← state.process
    let file ← state.sidecar
    match process.writing with
    | some row =>
      some { state with
        sidecar := some (file ++ process.buffer)
        healthy := if infraFailed row.2 then state.healthy else state.healthy ++ [keyOf row]
        process := some (process.unlocked row) }
    | none =>
      if process.stage = .finishing then
        some { state with
          sidecar := some (file ++ process.buffer)
          process := some { process with buffer := [], stage := .filing } }
      else none
  | .finish finishedAtMs => do
    let process ← state.process
    if process.At .driving ∧ process.AllDriven then
      let runMeta := { process.package.runMeta with finishedAtMs }
      some (state.write codec
        { process with package := { process.package with runMeta }, stage := .finishing }
        (.finished finishedAtMs))
    else none
  | .writePackage => do
    let process ← state.process
    if process.At .filing then
      some { state with
        package := some process.package, process := some { process with stage := .filed } }
    else none
  | .removeSidecar => do
    let process ← state.process
    if process.At .filed then
      some { state with sidecar := none, process := none, lines := [] }
    else none
  | .kill => do
    let _ ← state.process
    let file ← state.sidecar
    some { state with process := none, lines := state.lines.take (file.count newline) }

/-- A kill leaves the file behind a newline, or empty, and comes after a heal has folded what it
keeps into the file. -/
def Meets (state : State μ ν ε δ α) : Label μ ν ε δ → Prop
  | .kill =>
    (∀ file ∈ state.sidecar, Lines.Stops newline file) ∧
      ∀ process ∈ state.process, process.seeds = []
  | _ => True

/-- The steps that meet it. -/
def Steps (before : State μ ν ε δ α) (label : Label μ ν ε δ) (after : State μ ν ε δ α) : Prop :=
  step codec aggregate before label = some after ∧ Meets before label

end Steps

/-! ### What is to be read -/

/-- The completion an event is. -/
def completion : LiveEvent μ ν ε δ α → Option (Nat × RunRecord ε δ)
  | .runCompleted scenario _ record _ _ => some (scenario, record)
  | _ => none

/-- The last completion of a run among the lines. -/
def lastCompleted (lines : List (LiveEvent μ ν ε δ α)) (key : Nat × Nat) :
    Option (Nat × RunRecord ε δ) :=
  (lines.filterMap completion).reverse.find? fun row => keyOf row = key

/-- The lines begin with the manifest, and it is the only one. -/
def Headed (lines : List (LiveEvent μ ν ε δ α)) (runMeta : RunMeta μ)
    (scenarios : List (ScenarioMeta ν)) : Prop :=
  ∃ rest, lines = .manifest runMeta scenarios :: rest ∧
    ∀ runMeta scenarios, .manifest runMeta scenarios ∉ rest

/-- A run stands in the lines, and not spoiled. -/
def Kept (lines : List (LiveEvent μ ν ε δ α)) (key : Nat × Nat) : Prop :=
  ∃ row, lastCompleted lines key = some row ∧ infraFailed row.2 = false

/-- A run is among those held, and not spoiled. -/
def Held (rows : List (Nat × RunRecord ε δ)) (key : Nat × Nat) : Prop :=
  ∃ row ∈ rows, keyOf row = key ∧ infraFailed row.2 = false

/-! ### Reading what was written -/

section Reading

variable {codec : JsonCodec μ ν ε δ α} {lines more : List (LiveEvent μ ν ε δ α)}
variable {event : LiveEvent μ ν ε δ α} {folded : Folded μ ν ε δ}

theorem trimmed_cons_ne_nil {char : Char} (black : isWhiteSpace char = false) (rest : List Char) :
    trimmed (char :: rest) ≠ [] := by
  rw [trimmed, List.dropWhile_cons_of_neg (by simp [black]), Ne, List.reverse_eq_nil_iff,
    List.dropWhile_eq_nil_iff]
  intro all
  have white := all char (by simp)
  rw [black] at white
  cases white

theorem JsonCodec.Lawful.unmarked (lawful : codec.Lawful) (event : LiveEvent μ ν ε δ α) :
    newline ∉ codec.bytes event :=
  fun held => lawful.line event (Lossy.newline_mem_encode.mp held)

theorem JsonCodec.Lawful.strip (lawful : codec.Lawful) (event : LiveEvent μ ν ε δ α) :
    stripReturn (codec.bytes event) = codec.bytes event := by
  obtain ⟨fields, object⟩ := lawful.object event
  have last : (codec.bytes event).getLast? = some 0x7d := by
    rw [JsonCodec.bytes, object, Lossy.encode, List.flatMap_append, List.flatMap_singleton]
    exact List.getLast?_concat
  exact if_neg (by rw [last]; decide)

theorem JsonCodec.Lawful.readLine (lawful : codec.Lawful) (event : LiveEvent μ ν ε δ α) :
    readLine codec folded (codec.bytes event) = .ok (folded.read event) := by
  obtain ⟨fields, object⟩ := lawful.object event
  have strict : Lossy.strict (codec.bytes event) = some (codec.write event) :=
    Lossy.strict_eq_some.mpr rfl
  have written : (trimmed (codec.write event)).isEmpty = false := by
    rw [object, List.isEmpty_eq_false_iff]
    exact trimmed_cons_ne_nil rfl _
  simp only [Eval.readLine, strict, written, Bool.false_eq_true, if_false, lawful.reads]

theorem JsonCodec.Lawful.readLines (lawful : codec.Lawful) (lines : List (LiveEvent μ ν ε δ α)) :
    (lines.map codec.bytes).foldlM (Eval.readLine codec) folded =
      .ok (lines.foldl Folded.read folded) := by
  induction lines generalizing folded with
  | nil => rfl
  | cons event lines ih =>
    rw [List.map_cons, List.foldlM_cons, lawful.readLine, List.foldl_cons]
    exact ih

theorem JsonCodec.Lawful.linesFrom (lawful : codec.Lawful) (lines : List (LiveEvent μ ν ε δ α))
    {torn : List UInt8} (clean : newline ∉ torn) :
    Lines.linesFrom newline stripReturn [] (codec.file lines ++ torn) =
      lines.map codec.bytes ++ if torn = [] then [] else [torn] := by
  rw [JsonCodec.file, Lines.linesFrom_text (fun event _ => lawful.unmarked event) clean]
  exact congrArg (· ++ _) (List.map_congr_left fun event _ => lawful.strip event)

theorem completed_foldl (lines : List (LiveEvent μ ν ε δ α)) (folded : Folded μ ν ε δ) :
    (lines.foldl Folded.read folded).completed =
      (lines.filterMap completion).foldl Table.insertOrReplace folded.completed := by
  induction lines generalizing folded with
  | nil => rfl
  | cons event lines ih =>
    rw [List.foldl_cons, ih]
    cases event <;> rfl

theorem head_foldl (rest : List (LiveEvent μ ν ε δ α)) (folded : Folded μ ν ε δ)
    (alone : ∀ runMeta scenarios, .manifest runMeta scenarios ∉ rest) :
    (rest.foldl Folded.read folded).runMeta = folded.runMeta ∧
      (rest.foldl Folded.read folded).scenarios = folded.scenarios := by
  induction rest generalizing folded with
  | nil => exact ⟨rfl, rfl⟩
  | cons event rest ih =>
    rw [List.foldl_cons]
    have later := ih (folded.read event) fun runMeta scenarios member =>
      alone runMeta scenarios (List.mem_cons_of_mem _ member)
    cases event with
    | manifest runMeta scenarios => exact absurd List.mem_cons_self (alone runMeta scenarios)
    | runStarted | runCompleted | finished | broadcastOnly => exact later

theorem JsonCodec.Lawful.readSidecar (lawful : codec.Lawful) {runMeta : RunMeta μ}
    {scenarios : List (ScenarioMeta ν)} (headed : Headed lines runMeta scenarios) :
    ∃ resumed, readSidecar codec (codec.file lines) = .ok resumed ∧ resumed.runMeta = runMeta ∧
      resumed.scenarios = scenarios ∧ (resumed.completed.map keyOf).Nodup ∧
      ∀ row, row ∈ resumed.completed ↔ lastCompleted lines (keyOf row) = some row := by
  obtain ⟨rest, rfl, alone⟩ := headed
  have split := lawful.linesFrom (.manifest runMeta scenarios :: rest) List.not_mem_nil
  rw [List.append_nil, if_pos rfl, List.append_nil] at split
  obtain ⟨first, second⟩ := head_foldl rest (Folded.start.read (.manifest runMeta scenarios)) alone
  generalize gives : (LiveEvent.manifest runMeta scenarios :: rest).foldl Folded.read
    (Folded.start : Folded μ ν ε δ) = folded at *
  rw [← List.foldl_cons, gives] at first second
  have held : folded.runMeta = some runMeta := first
  refine ⟨⟨runMeta, folded.scenarios, folded.completed.rows.mergeSort keyBefore,
    folded.lastCompletedAtMs⟩, ?_, rfl, second, ?_, fun row => ?_⟩
  · simp only [Eval.readSidecar, split, lawful.readLines, gives, held]
  · exact ((List.mergeSort_perm _ _).map keyOf).nodup_iff.mpr folded.completed.nodup
  · have found : folded.completed.find (keyOf row) =
        lastCompleted (.manifest runMeta scenarios :: rest) (keyOf row) := by
      rw [← gives, completed_foldl, Table.find_replaceAll]
      exact Option.or_none
    rw [(List.mergeSort_perm _ _).mem_iff, ← found, Table.find_eq_some_iff]
    exact ⟨fun member => ⟨member, rfl⟩, fun both => both.1⟩

theorem readSidecar_nil : (readSidecar codec (codec.file [])).toOption = none := rfl

theorem JsonCodec.Lawful.readSidecar_torn (lawful : codec.Lawful)
    (lines : List (LiveEvent μ ν ε δ α)) {torn left : List UInt8}
    (cut : codec.bytes event = torn ++ left) (begun : torn ≠ []) (more : left ≠ []) :
    ∃ cause, Eval.readSidecar codec (codec.file lines ++ torn) = .error cause := by
  have clean : newline ∉ torn := fun held =>
    lawful.unmarked event (cut ▸ List.mem_append_left _ held)
  have split := lawful.linesFrom lines clean
  rw [if_neg begun] at split
  have refused : ∀ folded : Folded μ ν ε δ, ∃ cause, Eval.readLine codec folded torn = .error cause := by
    intro folded
    cases strict : Lossy.strict torn with
    | none => exact ⟨.io, by simp only [Eval.readLine, strict]⟩
    | some front =>
      obtain rfl := Lossy.strict_eq_some.mp strict
      obtain ⟨back, whole, rfl⟩ := Lossy.encode_of_append cut
      obtain ⟨fields, object⟩ := lawful.object event
      have written : (trimmed front).isEmpty = false := by
        cases front with
        | nil => exact absurd rfl begun
        | cons =>
          rw [object] at whole
          obtain rfl := (List.cons.inj whole).1
          rw [List.isEmpty_eq_false_iff]
          exact trimmed_cons_ne_nil rfl _
      have unread := lawful.closed event front back whole fun none => more (by rw [none]; rfl)
      refine ⟨.json, ?_⟩
      simp only [Eval.readLine, strict, written, Bool.false_eq_true, if_false, unread]
  obtain ⟨cause, fails⟩ := refused (lines.foldl Folded.read .start)
  have folds : (lines.map codec.bytes ++ [torn]).foldlM (Eval.readLine codec) Folded.start =
      .error cause := by
    rw [List.foldlM_append, lawful.readLines]
    change (Eval.readLine codec _ torn >>= fun folded => pure folded) = _
    rw [fails]
    rfl
  exact ⟨cause, by simp only [Eval.readSidecar, split, folds]⟩

end Reading

/-! ### The runs of a package -/

section Package

variable {package after : EvalPackage μ ν ε δ α} {row other : Nat × RunRecord ε δ}
variable {aggregate : List (RunRecord ε δ) → α}

theorem mem_completed : row ∈ package.completed ↔
    ∃ report, package.scenarios[row.1]? = some report ∧ row.2 ∈ report.runs := by
  simp only [EvalPackage.completed, List.mem_flatMap, List.mem_map, Prod.exists,
    List.mem_zipIdx_iff_getElem?]
  constructor
  · rintro ⟨report, scenario, found, record, member, rfl⟩
    exact ⟨report, found, member⟩
  · rintro ⟨report, found, member⟩
    exact ⟨report, row.1, found, row.2, member, rfl⟩

theorem mem_completed_set {report changed : ScenarioReport ν ε δ α}
    (found : package.scenarios[row.1]? = some report)
    (runs : ∀ record, record ∈ changed.runs ↔ record ∈ report.runs ∨ record = row.2) :
    other ∈ EvalPackage.completed { package with scenarios := package.scenarios.set row.1 changed } ↔
      other ∈ package.completed ∨ other = row := by
  have within := (List.getElem?_eq_some_iff.mp found).1
  rw [mem_completed, mem_completed]
  dsimp only
  by_cases same : row.1 = other.1
  · rw [same] at found within ⊢
    rw [List.getElem?_set_self within, found]
    simp only [Option.some.injEq, exists_eq_left', runs, Prod.ext_iff, same, true_and]
  · rw [List.getElem?_set_ne same]
    have apart : other ≠ row := fun equal => same (equal ▸ rfl)
    simp only [apart, or_false]

theorem mem_completed_push (pushed : package.push row = some after) :
    other ∈ after.completed ↔ other ∈ package.completed ∨ other = row := by
  obtain ⟨report, found, rfl⟩ := Option.map_eq_some_iff.mp pushed
  exact mem_completed_set found fun record => by simp

theorem mem_settled (report : ScenarioReport ν ε δ α) (record : RunRecord ε δ) :
    record ∈ (report.settled aggregate).runs ↔ record ∈ report.runs :=
  (List.mergeSort_perm _ _).mem_iff

theorem mem_completed_resumePackage {runMeta : RunMeta μ} {scenarios : List (ScenarioMeta ν)}
    {completed : List (Nat × RunRecord ε δ)}
    (resumed : resumePackage aggregate runMeta scenarios completed = some package)
    (member : row ∈ completed) : row ∈ package.completed := by
  obtain ⟨pushed, folds, rfl⟩ := Option.map_eq_some_iff.mp resumed
  have through : ∀ (rows : List (Nat × RunRecord ε δ)) (before : EvalPackage μ ν ε δ α),
      rows.foldlM EvalPackage.push before = some pushed →
        (row ∈ rows ∨ row ∈ before.completed) → row ∈ pushed.completed := by
    intro rows
    induction rows with
    | nil =>
      rintro before folds (none | held)
      · exact absurd none List.not_mem_nil
      · exact Option.some.inj folds ▸ held
    | cons first rows ih =>
      intro before folds held
      rw [List.foldlM_cons] at folds
      obtain ⟨next, pushes, folds⟩ := Option.bind_eq_some_iff.mp folds
      refine ih next folds ?_
      rw [mem_completed_push pushes]
      rcases held with among | held
      · rcases List.mem_cons.mp among with same | later
        · exact .inr (.inr same)
        · exact .inl later
      · exact .inr (.inl held)
  obtain ⟨report, found, within⟩ := mem_completed.mp (through _ _ folds (.inl member))
  refine mem_completed.mpr ⟨report.settled aggregate, ?_, (mem_settled _ _).mpr within⟩
  rw [List.getElem?_map, found]
  rfl

theorem finish_spec {event : LiveEvent μ ν ε δ α}
    (finishes : package.finish aggregate row = some (after, event)) :
    completion event = some row ∧
      ∀ other, other ∈ after.completed ↔ other ∈ package.completed ∨ other = row := by
  obtain ⟨report, found, same⟩ := Option.map_eq_some_iff.mp finishes
  obtain ⟨rfl, rfl⟩ := Prod.mk.inj same
  refine ⟨rfl, fun other => mem_completed_set found fun record => ?_⟩
  rw [mem_settled]
  simp

theorem mem_takeInfraFailed {completed : List (Nat × RunRecord ε δ)} :
    row ∈ (takeInfraFailed completed).1 ↔ row ∈ completed ∧ infraFailed row.2 = false := by
  simp [takeInfraFailed]

end Package

/-! ### What a kill leaves -/

section Lines

variable {lines front tail : List (LiveEvent μ ν ε δ α)} {key : Nat × Nat}
variable {event : LiveEvent μ ν ε δ α} {row : Nat × RunRecord ε δ}

theorem lastCompleted_concat (completes : completion event = some row) :
    lastCompleted (lines ++ [event]) (keyOf row) = some row := by
  rw [lastCompleted, List.filterMap_append, List.filterMap_cons_some completes, List.filterMap_nil,
    List.reverse_append, List.reverse_singleton, List.singleton_append,
    List.find?_cons_of_pos (by simp)]

theorem keyOf_lastCompleted (last : lastCompleted lines key = some row) : keyOf row = key := by
  have same := List.find?_some last
  exact of_decide_eq_true same

theorem Kept.append (kept : Kept front key)
    (spares : ∀ row ∈ tail.filterMap completion, keyOf row = key → infraFailed row.2 = false) :
    Kept (front ++ tail) key := by
  obtain ⟨row, last, healthy⟩ := kept
  rw [Kept, lastCompleted, List.filterMap_append, List.reverse_append, List.find?_append]
  cases later : (tail.filterMap completion).reverse.find? fun row => keyOf row = key with
  | none => exact ⟨row, last, healthy⟩
  | some other =>
    have same := List.find?_some later
    exact ⟨other, rfl, spares other (List.mem_reverse.mp (List.mem_of_find?_eq_some later))
      (of_decide_eq_true same)⟩

end Lines

/-! ### What holds at all times -/

/-- What holds of a process over its file. -/
structure Process.Sound (codec : JsonCodec μ ν ε δ α) (process : Process μ ν ε δ α)
    (file : List UInt8) (lines : List (LiveEvent μ ν ε δ α)) (healthy : List (Nat × Nat)) :
    Prop where
  whole : file ++ process.buffer = codec.file lines
  headed : ∃ runMeta scenarios, Headed lines runMeta scenarios
  /-- what is healthy stands in the file, or is to be folded into it, and nothing in the buffer
  spoils it -/
  durable : ∃ front tail, lines = front ++ tail ∧ codec.file front <+: file ∧
    (∀ key ∈ healthy, Kept front key ∨ key ∈ process.seeds.map keyOf) ∧
    ∀ row ∈ tail.filterMap completion, keyOf row ∈ healthy → infraFailed row.2 = false
  held : ∀ key ∈ healthy, Held process.package.completed key ∨ key ∈ process.seeds.map keyOf
  unspoiled : ∀ row ∈ process.seeds, infraFailed row.2 = false
  seeded : process.stage ≠ .seeding → process.seeds = []
  grounded : process.stage = .seeding → process.inFlight = []
  settled : process.stage ≠ .seeding →
    ∀ key ∈ healthy, key ∈ process.done ∨ key ∈ process.finished
  flying : ∀ key ∈ process.inFlight, key ∉ process.done ∧ key ∉ process.finished
  writing : ∀ row, process.writing = some row →
    (∃ front event, lines = front ++ [event] ∧ completion event = some row) ∧
      row ∈ process.package.completed ∧
      (process.stage = .seeding ∧ process.seeds.head? = some row ∨
        process.stage = .driving ∧ keyOf row ∈ process.inFlight)

/-- What holds of a file no process writes. -/
structure Left (codec : JsonCodec μ ν ε δ α) (file : List UInt8)
    (lines : List (LiveEvent μ ν ε δ α)) (healthy : List (Nat × Nat)) : Prop where
  whole : file = codec.file lines
  headed : lines = [] ∨ ∃ runMeta scenarios, Headed lines runMeta scenarios
  kept : ∀ key ∈ healthy, Kept lines key

/-- What holds of a state at all times. -/
def State.Sound (codec : JsonCodec μ ν ε δ α) (state : State μ ν ε δ α) : Prop :=
  match state.process, state.sidecar with
  | some process, some file =>
    process.Sound codec file state.lines state.healthy ∧
      (process.stage = .filed → state.package = some process.package)
  | some _, none => False
  | none, some file => Left codec file state.lines state.healthy
  | none, none => ∀ key ∈ state.healthy, ∃ package, state.package = some package ∧
      Held package.completed key

section Each

variable {codec : JsonCodec μ ν ε δ α} {aggregate : List (RunRecord ε δ) → α}
variable {process : Process μ ν ε δ α} {file : List UInt8}
variable {lines : List (LiveEvent μ ν ε δ α)} {healthy : List (Nat × Nat)}

theorem file_append (lines more : List (LiveEvent μ ν ε δ α)) :
    codec.file (lines ++ more) = codec.file lines ++ codec.file more := Lines.text_append _ _

theorem Headed.append {runMeta : RunMeta μ} {scenarios : List (ScenarioMeta ν)}
    (headed : Headed lines runMeta scenarios) {event : LiveEvent μ ν ε δ α}
    (other : ∀ runMeta scenarios, event ≠ .manifest runMeta scenarios) :
    Headed (lines ++ [event]) runMeta scenarios := by
  obtain ⟨rest, rfl, alone⟩ := headed
  refine ⟨rest ++ [event], rfl, fun runMeta scenarios member => ?_⟩
  rcases List.mem_append.mp member with before | same
  · exact alone runMeta scenarios before
  · exact other runMeta scenarios (List.mem_singleton.mp same).symm

theorem Process.Sound.not_healthy (sound : process.Sound codec file lines healthy)
    {key : Nat × Nat} (flies : key ∈ process.inFlight) : key ∉ healthy := by
  intro well
  by_cases seeding : process.stage = .seeding
  · rw [sound.grounded seeding] at flies
    exact List.not_mem_nil flies
  · obtain ⟨undone, unfinished⟩ := sound.flying key flies
    exact (sound.settled seeding key well).elim undone unfinished

theorem Process.Sound.handOn (sound : process.Sound codec file lines healthy) (count : Nat) :
    Process.Sound codec { process with buffer := process.buffer.drop count }
      (file ++ process.buffer.take count) lines healthy :=
  { sound with
    whole := by
      rw [List.append_assoc, List.take_append_drop]
      exact sound.whole
    durable := by
      obtain ⟨front, tail, split, begins, kept, spares⟩ := sound.durable
      exact ⟨front, tail, split, begins.trans (List.prefix_append _ _), kept, spares⟩ }

theorem Process.Sound.append (sound : process.Sound codec file lines healthy)
    {event : LiveEvent μ ν ε δ α} (other : ∀ runMeta scenarios, event ≠ .manifest runMeta scenarios)
    (spares : ∀ row, completion event = some row → keyOf row ∈ healthy →
      infraFailed row.2 = false) :
    file ++ (process.buffer ++ codec.file [event]) = codec.file (lines ++ [event]) ∧
      (∃ runMeta scenarios, Headed (lines ++ [event]) runMeta scenarios) ∧
      ∃ front tail, lines ++ [event] = front ++ tail ∧ codec.file front <+: file ∧
        (∀ key ∈ healthy, Kept front key ∨ key ∈ process.seeds.map keyOf) ∧
        ∀ row ∈ tail.filterMap completion, keyOf row ∈ healthy → infraFailed row.2 = false := by
  obtain ⟨runMeta, scenarios, headed⟩ := sound.headed
  obtain ⟨front, tail, split, begins, kept, spared⟩ := sound.durable
  refine ⟨?_, ⟨runMeta, scenarios, headed.append other⟩, front, tail ++ [event], ?_, begins, kept,
    fun row member => ?_⟩
  · rw [file_append, ← sound.whole, List.append_assoc]
  · rw [split, List.append_assoc]
  · rw [List.filterMap_append] at member
    rcases List.mem_append.mp member with before | last
    · exact spared row before
    · obtain ⟨same, among, completes⟩ := List.mem_filterMap.mp last
      rw [List.mem_singleton.mp among] at completes
      exact spares row completes

theorem Process.Sound.runStarted (sound : process.Sound codec file lines healthy)
    (drives : process.At .driving) {key : Nat × Nat} (due : process.Due key) (atMs : Int) :
    let event := LiveEvent.runStarted key.1 key.2 atMs
    Process.Sound codec
      { process with
        inFlight := process.inFlight ++ [key], buffer := process.buffer ++ codec.file [event] }
      file (lines ++ [event]) healthy := by
  have plain : ∀ runMeta scenarios,
      (.runStarted key.1 key.2 atMs : LiveEvent μ ν ε δ α) ≠ .manifest runMeta scenarios :=
    fun _ _ => nofun
  obtain ⟨whole, headed, durable⟩ := sound.append plain fun _ none => nomatch none
  obtain ⟨_, _, undone, _, unfinished⟩ := due
  refine { sound with whole, headed, durable, grounded := ?_, flying := ?_, writing := ?_ }
  · intro seeding
    cases drives.2.symm.trans seeding
  · exact List.forall_mem_append.mpr ⟨sound.flying,
      List.forall_mem_singleton.mpr ⟨undone, unfinished⟩⟩
  · intro row writes
    cases drives.1.symm.trans writes

theorem Process.Sound.finishRun (sound : process.Sound codec file lines healthy)
    {row : Nat × RunRecord ε δ} {package : EvalPackage μ ν ε δ α} {event : LiveEvent μ ν ε δ α}
    (finishes : process.package.finish aggregate row = some (package, event))
    (at' : process.stage = .seeding ∧ process.seeds.head? = some row ∨
      process.stage = .driving ∧ keyOf row ∈ process.inFlight) :
    Process.Sound codec
      { process with
        package, writing := some row, buffer := process.buffer ++ codec.file [event] }
      file (lines ++ [event]) healthy := by
  obtain ⟨completes, adds⟩ := finish_spec finishes
  have plain : ∀ runMeta scenarios, event ≠ .manifest runMeta scenarios := by
    rintro _ _ rfl
    cases completes
  obtain ⟨whole, headed, durable⟩ := sound.append plain (by
    intro other again well
    obtain rfl : row = other := Option.some.inj (completes.symm.trans again)
    rcases at' with ⟨_, first⟩ | ⟨_, flies⟩
    · exact sound.unspoiled row (List.mem_of_head? first)
    · exact absurd well (sound.not_healthy flies))
  refine { sound with whole, headed, durable, held := ?_, writing := ?_ }
  · intro key well
    refine (sound.held key well).imp_left ?_
    rintro ⟨other, member, same, sane⟩
    exact ⟨other, (adds other).mpr (.inl member), same, sane⟩
  · intro other writes
    obtain rfl : row = other := Option.some.inj writes
    exact ⟨⟨lines, event, rfl, completes⟩, (adds row).mpr (.inr rfl), at'⟩

theorem Process.Sound.flush (sound : process.Sound codec file lines healthy)
    {row : Nat × RunRecord ε δ} (writes : process.writing = some row) :
    (process.unlocked row).Sound codec (file ++ process.buffer) lines
      (if infraFailed row.2 then healthy else healthy ++ [keyOf row]) := by
  obtain ⟨⟨before, event, parts, completes⟩, member, at'⟩ := sound.writing row writes
  obtain ⟨front, tail, split, begins, kept, spares⟩ := sound.durable
  have last : lastCompleted lines (keyOf row) = some row := by
    rw [parts]
    exact lastCompleted_concat completes
  -- what was healthy before, and the run if it is
  have cases' : ∀ key ∈ (if infraFailed row.2 then healthy else healthy ++ [keyOf row]),
      key ∈ healthy ∨ key = keyOf row ∧ infraFailed row.2 = false := by
    intro key well
    cases spoiled : infraFailed row.2 with
    | true =>
      rw [if_pos spoiled] at well
      exact .inl well
    | false =>
      rw [if_neg (by simp [spoiled])] at well
      exact (List.mem_append.mp well).imp_right fun same => ⟨List.mem_singleton.mp same, rfl⟩
  have ahead : ∀ key ∈ process.seeds.map keyOf,
      key = keyOf row ∧ infraFailed row.2 = false ∨ key ∈ process.seeds.tail.map keyOf := by
    intro key among
    rcases at' with ⟨_, first⟩ | ⟨drives, _⟩
    · have sane := sound.unspoiled row (List.mem_of_head? first)
      rw [List.eq_cons_of_mem_head? first, List.map_cons, List.mem_cons] at among
      exact among.imp_left fun same => ⟨same, sane⟩
    · rw [sound.seeded (by rw [drives]; decide)] at among
      exact absurd among List.not_mem_nil
  exact {
    whole := by
      change file ++ process.buffer ++ [] = _
      rw [List.append_nil]
      exact sound.whole
    headed := sound.headed
    durable := by
      refine ⟨lines, [], (List.append_nil _).symm, by rw [sound.whole], fun key well => ?_,
        fun other none => absurd none List.not_mem_nil⟩
      have standing : key = keyOf row ∧ infraFailed row.2 = false → Kept lines key := by
        rintro ⟨rfl, sane⟩
        exact ⟨row, last, sane⟩
      rcases cases' key well with old | new
      · rcases kept key old with stands | among
        · left
          rw [split]
          exact stands.append fun other within same => spares other within (same ▸ old)
        · exact (ahead key among).imp_left standing
      · exact .inl (standing new)
    held := by
      intro key well
      have holds : key = keyOf row ∧ infraFailed row.2 = false →
          Held process.package.completed key := by
        rintro ⟨rfl, sane⟩
        exact ⟨row, member, rfl, sane⟩
      rcases cases' key well with old | new
      · rcases sound.held key old with holding | among
        · exact .inl holding
        · exact (ahead key among).imp_left holds
      · exact .inl (holds new)
    unspoiled := fun other within => sound.unspoiled other (List.mem_of_mem_tail within)
    seeded := fun stage => by
      change process.seeds.tail = []
      rw [sound.seeded stage]
      rfl
    grounded := fun stage => by
      change process.inFlight.filter _ = []
      rw [sound.grounded stage]
      rfl
    settled := by
      intro stage key well
      rcases cases' key well with old | ⟨rfl, _⟩
      · exact (sound.settled stage key old).imp_right (List.mem_append_left _)
      · exact .inr (List.mem_append_right _ (List.mem_singleton_self _))
    flying := by
      intro key flies
      obtain ⟨within, other⟩ := List.mem_filter.mp flies
      obtain ⟨undone, unfinished⟩ := sound.flying key within
      refine ⟨undone, fun done => ?_⟩
      rcases List.mem_append.mp done with before | same
      · exact unfinished before
      · exact of_decide_eq_true other (List.mem_singleton.mp same)
    writing := fun other => nofun }

theorem Process.Sound.flushEnd (sound : process.Sound codec file lines healthy)
    (unlocked : process.writing = none) (finishing : process.stage = .finishing) :
    Process.Sound codec { process with buffer := [], stage := .filing } (file ++ process.buffer) lines
      healthy := by
  have beyond : process.stage ≠ .seeding := by
    rw [finishing]
    decide
  refine { sound with
    whole := (List.append_nil _).trans sound.whole, durable := ?_
    seeded := fun _ => sound.seeded beyond, grounded := fun none => nomatch none
    settled := fun _ => sound.settled beyond, writing := ?_ }
  · obtain ⟨front, tail, split, begins, kept, spares⟩ := sound.durable
    exact ⟨front, tail, split, begins.trans (List.prefix_append _ _), kept, spares⟩
  · intro row writes
    cases unlocked.symm.trans writes

theorem Process.Sound.pack (sound : process.Sound codec file lines healthy)
    (at' : process.At .filing) :
    Process.Sound codec { process with stage := .filed } file lines healthy := by
  have beyond : process.stage ≠ .seeding := by
    rw [at'.2]
    decide
  refine { sound with
    seeded := fun _ => sound.seeded beyond, grounded := fun none => nomatch none
    settled := fun _ => sound.settled beyond, writing := ?_ }
  intro row writes
  cases at'.1.symm.trans writes

theorem Process.Sound.drive (sound : process.Sound codec file lines healthy)
    (at' : process.At .seeding) (folded : process.seeds = []) :
    Process.Sound codec { process with stage := .driving, done := process.package.doneRuns }
      file lines healthy := by
  refine { sound with
    seeded := fun _ => folded, grounded := fun none => nomatch none
    settled := fun _ key well => .inl ?_, flying := ?_, writing := ?_ }
  · rcases sound.held key well with ⟨row, member, rfl, _⟩ | among
    · exact List.mem_map_of_mem member
    · rw [folded] at among
      exact absurd among List.not_mem_nil
  · intro key flies
    rw [sound.grounded at'.2] at flies
    exact absurd flies List.not_mem_nil
  · intro row writes
    cases at'.1.symm.trans writes

theorem Process.Sound.finish (sound : process.Sound codec file lines healthy)
    (at' : process.At .driving) (finishedAtMs : Int) (runMeta : RunMeta μ) :
    let event : LiveEvent μ ν ε δ α := .finished finishedAtMs
    Process.Sound codec
      { process with
        package := { process.package with runMeta }, stage := .finishing
        buffer := process.buffer ++ codec.file [event] }
      file (lines ++ [event]) healthy := by
  have plain : ∀ runMeta scenarios,
      (.finished finishedAtMs : LiveEvent μ ν ε δ α) ≠ .manifest runMeta scenarios :=
    fun _ _ => nofun
  obtain ⟨whole, headed, durable⟩ := sound.append plain fun _ none => nomatch none
  have driving : process.stage ≠ .seeding := by
    rw [at'.2]
    decide
  exact {
    whole, headed, durable
    held := sound.held
    unspoiled := sound.unspoiled
    seeded := fun _ => sound.seeded driving
    grounded := fun none => nomatch none
    settled := fun _ => sound.settled driving
    flying := sound.flying
    writing := fun row writes => nomatch at'.1.symm.trans writes }

theorem Process.Sound.kill (lawful : codec.Lawful) (sound : process.Sound codec file lines healthy)
    (stops : Lines.Stops newline file) (folded : process.seeds = []) :
    Left codec file (lines.take (file.count newline)) healthy := by
  have whole := Lines.text_of_stops (fun event _ => lawful.unmarked event)
    ⟨process.buffer, sound.whole⟩ stops
  refine ⟨whole, ?_, fun key well => ?_⟩
  · obtain ⟨runMeta, scenarios, rest, rfl, alone⟩ := sound.headed
    cases file.count newline with
    | zero => exact .inl rfl
    | succ count =>
      exact .inr ⟨runMeta, scenarios, rest.take count, rfl, fun runMeta scenarios member =>
        alone runMeta scenarios (List.mem_of_mem_take member)⟩
  · obtain ⟨front, tail, split, begins, kept, spares⟩ := sound.durable
    have stands : Kept front key := by
      rcases kept key well with stands | among
      · exact stands
      · rw [folded] at among
        exact absurd among List.not_mem_nil
    rw [whole] at begins
    obtain ⟨more, longer⟩ := Lines.prefix_of_text_prefix ⟨tail, split.symm⟩
      (List.take_prefix _ lines) begins
    rw [← longer]
    refine stands.append fun row member same => spares row ?_ (same ▸ well)
    have within : more <+: tail := by
      refine (List.prefix_append_right_inj front).mp ?_
      rw [longer, ← split]
      exact List.take_prefix _ _
    exact (within.filterMap completion).subset member

theorem Process.Sound.create (runMeta : RunMeta μ) (scenarios : List (ScenarioMeta ν))
    {seeds : List (Nat × RunRecord ε δ)} (active runs : Nat)
    (ahead : ∀ key ∈ healthy, key ∈ seeds.map keyOf)
    (unspoiled : ∀ row ∈ seeds, infraFailed row.2 = false) :
    Process.Sound codec
      (.opening (emptyPackage aggregate runMeta scenarios) (codec.file [.manifest runMeta scenarios])
        seeds active runs) [] [.manifest runMeta scenarios] healthy where
  whole := List.nil_append _
  headed := ⟨runMeta, scenarios, [], rfl, fun _ _ => List.not_mem_nil⟩
  durable := ⟨[], _, rfl, List.nil_prefix, fun key well => .inr (ahead key well),
    fun _ none => absurd none List.not_mem_nil⟩
  held := fun key well => .inr (ahead key well)
  unspoiled := unspoiled
  seeded := fun stage => absurd rfl stage
  grounded := fun _ => rfl
  settled := fun stage => absurd rfl stage
  flying := fun _ none => absurd none List.not_mem_nil
  writing := fun _ => nofun

theorem Process.Sound.resume (left : Left codec file lines healthy) {runMeta : RunMeta μ}
    {scenarios : List (ScenarioMeta ν)} (headed : Headed lines runMeta scenarios)
    {package : EvalPackage μ ν ε δ α} (active runs : Nat)
    (held : ∀ key ∈ healthy, Held package.completed key) :
    Process.Sound codec (.opening package [] [] active runs) file lines healthy where
  whole := (List.append_nil _).trans left.whole
  headed := ⟨runMeta, scenarios, headed⟩
  durable := ⟨lines, [], (List.append_nil _).symm, by rw [left.whole],
    fun key well => .inl (left.kept key well), fun _ none => absurd none List.not_mem_nil⟩
  held := fun key well => .inl (held key well)
  unspoiled := fun _ none => absurd none List.not_mem_nil
  seeded := fun _ => rfl
  grounded := fun _ => rfl
  settled := fun stage => absurd rfl stage
  flying := fun _ none => absurd none List.not_mem_nil
  writing := fun _ => nofun

variable {state after : State μ ν ε δ α}

theorem State.Sound.launch (lawful : codec.Lawful) (sound : state.Sound codec)
    (dead : state.process = none) {resume : Resume} {runs : Nat} {active : List (ScenarioMeta ν)}
    {runMeta : RunMeta μ}
    (launched : state.launch codec aggregate resume runs active runMeta = some after) :
    after.Sound codec := by
  obtain ⟨sidecar, package, _, lines, healthy⟩ := state
  obtain rfl : _ = none := dead
  rw [State.launch] at launched
  cases source : resumeSource resume sidecar.isSome package.isSome with
  | fresh =>
    simp only [source, Option.some.injEq] at launched
    subst launched
    exact ⟨.create runMeta active _ _ (fun _ none => absurd none List.not_mem_nil)
      (fun _ none => absurd none List.not_mem_nil), nofun⟩
  | package =>
    simp only [source, Option.bind_eq_bind, Option.bind_eq_some_iff, Option.some.injEq] at launched
    obtain ⟨old, rfl, aligned, _, rfl⟩ := launched
    -- the package is asked for only where there is no file
    cases sidecar with
    | some =>
      cases enabled : resume.enabled <;> simp [resumeSource, enabled] at source
    | none =>
      refine ⟨.create _ _ _ _ (fun key well => ?_) (fun row member => ?_), nofun⟩
      · obtain ⟨held, same, row, member, rfl, sane⟩ := sound key well
        obtain rfl := Option.some.inj same
        exact List.mem_map_of_mem (mem_takeInfraFailed.mpr ⟨member, sane⟩)
      · exact (mem_takeInfraFailed.mp member).2
  | sidecar =>
    simp only [source, Option.bind_eq_bind, Option.bind_eq_some_iff, Option.some.injEq] at launched
    obtain ⟨file, rfl, resumed, read, aligned, _, resumes, seeded, rfl⟩ := launched
    have left : Left codec file lines healthy := sound
    rcases left.headed with none | ⟨oldMeta, scenarios, headed⟩
    · rw [left.whole, none, readSidecar_nil] at read
      cases read
    · obtain ⟨state, reads, _, _, _, rows⟩ := lawful.readSidecar headed
      rw [left.whole, reads] at read
      obtain rfl : state = resumed := Option.some.inj read
      refine ⟨.resume left headed _ _ fun key well => ?_, nofun⟩
      obtain ⟨row, last, sane⟩ := left.kept key well
      have same := keyOf_lastCompleted last
      have member : row ∈ state.completed := (rows row).mpr (same.symm ▸ last)
      refine ⟨row, mem_completed_resumePackage seeded ?_, same, sane⟩
      split
      · exact mem_takeInfraFailed.mpr ⟨member, sane⟩
      · exact member

theorem State.Sound.running (sound : state.Sound codec) (runs : state.process = some process) :
    ∃ file, state.sidecar = some file ∧ process.Sound codec file state.lines state.healthy ∧
      (process.stage = .filed → state.package = some process.package) := by
  cases there : state.sidecar with
  | none =>
    simp only [State.Sound, runs, there] at sound
  | some file =>
    simp only [State.Sound, runs, there] at sound
    exact ⟨file, rfl, sound⟩

theorem State.Sound.of_running (there : state.sidecar = some file)
    (runs : state.process = some process)
    (sound : process.Sound codec file state.lines state.healthy)
    (packed : process.stage = .filed → state.package = some process.package) :
    state.Sound codec := by
  simp only [State.Sound, runs, there]
  exact ⟨sound, packed⟩

theorem State.Sound.finishRun (sound : state.Sound codec) (runs : state.process = some process)
    {row : Nat × RunRecord ε δ}
    (at' : process.stage = .seeding ∧ process.seeds.head? = some row ∨
      process.stage = .driving ∧ keyOf row ∈ process.inFlight)
    (finishes : state.finishRun codec aggregate process row = some after) : after.Sound codec := by
  obtain ⟨file, there, holds, _⟩ := sound.running runs
  obtain ⟨⟨package, event⟩, folded, rfl⟩ := Option.map_eq_some_iff.mp finishes
  refine .of_running there rfl (holds.finishRun folded at') fun filed => ?_
  rcases at' with ⟨seeding, _⟩ | ⟨driving, _⟩
  · cases seeding.symm.trans filed
  · cases driving.symm.trans filed

theorem State.Sound.step (lawful : codec.Lawful) (sound : state.Sound codec)
    {label : Label μ ν ε δ} (taken : Steps codec aggregate state label after) :
    after.Sound codec := by
  obtain ⟨does, meets⟩ := taken
  cases label <;> simp only [Eval.step, Option.bind_eq_bind, Option.bind_eq_some_iff,
    Option.ite_none_left_eq_some, Option.ite_none_right_eq_some, Option.some.injEq] at does
  case launch resume runs active runMeta =>
    exact sound.launch lawful (by simpa using does.1) does.2
  case handOn count =>
    obtain ⟨process, runs, file, there, rfl⟩ := does
    obtain ⟨_, same, holds, packed⟩ := sound.running runs
    obtain rfl := Option.some.inj (there.symm.trans same)
    exact .of_running rfl rfl (holds.handOn count) packed
  case seed =>
    obtain ⟨process, runs, row, first, at', finishes⟩ := does
    exact sound.finishRun runs (.inl ⟨at'.2, first⟩) finishes
  case drive =>
    obtain ⟨process, runs, ⟨at', folded⟩, rfl⟩ := does
    obtain ⟨file, there, holds, _⟩ := sound.running runs
    exact .of_running there rfl (holds.drive at' folded) nofun
  case runStarted scenario run atMs =>
    obtain ⟨process, runs, ⟨at', due⟩, rfl⟩ := does
    obtain ⟨file, there, holds, _⟩ := sound.running runs
    exact .of_running there rfl (holds.runStarted at' due atMs) fun filed =>
      nomatch at'.2.symm.trans filed
  case runFinished scenario record =>
    obtain ⟨process, runs, ⟨at', flies⟩, finishes⟩ := does
    have within : keyOf (scenario, record) ∈ process.inFlight := flies
    exact sound.finishRun runs (.inr ⟨at'.2, within⟩) finishes
  case flush =>
    obtain ⟨process, runs, file, there, does⟩ := does
    obtain ⟨_, same, holds, packed⟩ := sound.running runs
    obtain rfl := Option.some.inj (there.symm.trans same)
    cases writes : process.writing with
    | some =>
      simp only [writes, Option.some.injEq] at does
      subst does
      exact .of_running rfl rfl (holds.flush writes) packed
    | none =>
      simp only [writes, Option.ite_none_right_eq_some, Option.some.injEq] at does
      obtain ⟨finishing, rfl⟩ := does
      have ended := holds.flushEnd writes finishing
      rw [writes] at ended
      exact .of_running rfl rfl ended nofun
  case finish finishedAtMs =>
    obtain ⟨process, runs, ⟨at', _⟩, rfl⟩ := does
    obtain ⟨file, there, holds, _⟩ := sound.running runs
    exact .of_running there rfl (holds.finish at' finishedAtMs _) nofun
  case writePackage =>
    obtain ⟨process, runs, at', rfl⟩ := does
    obtain ⟨file, there, holds, _⟩ := sound.running runs
    exact .of_running there rfl (holds.pack at') fun _ => rfl
  case removeSidecar =>
    obtain ⟨process, runs, at', rfl⟩ := does
    obtain ⟨file, there, holds, packed⟩ := sound.running runs
    have folded : process.seeds = [] := holds.seeded (by rw [at'.2]; decide)
    intro key well
    refine ⟨process.package, packed at'.2, ?_⟩
    rcases holds.held key well with held | among
    · exact held
    · rw [folded] at among
      exact absurd among List.not_mem_nil
  case kill =>
    obtain ⟨process, runs, file, there, rfl⟩ := does
    obtain ⟨_, same, holds, _⟩ := sound.running runs
    obtain rfl := Option.some.inj (there.symm.trans same)
    have left := holds.kill lawful (meets.1 file there) (meets.2 process runs)
    simp only [State.Sound, there]
    exact left

theorem State.Sound.empty : (State.empty : State μ ν ε δ α).Sound codec :=
  fun _ none => absurd none List.not_mem_nil

/-! ### Every run -/

/-- On every run whose kills meet the condition: what a kill leaves is read, if it left the
manifest, and gives of each run the last completion left whole, every run that is healthy among
them; and no run that is healthy is driven again. -/
theorem resume_without_loss (lawful : codec.Lawful) {labels : List (Label μ ν ε δ)}
    {final : State μ ν ε δ α} (run : Trace (Steps codec aggregate) .empty labels final) :
    (final.process = none → ∀ file, final.sidecar = some file →
      file = codec.file final.lines ∧ (final.lines ≠ [] →
        ∃ runMeta scenarios resumed, Headed final.lines runMeta scenarios ∧
          readSidecar codec file = .ok resumed ∧
          resumed.runMeta = runMeta ∧ resumed.scenarios = scenarios ∧
          (resumed.completed.map keyOf).Nodup ∧
          (∀ row, row ∈ resumed.completed ↔ lastCompleted final.lines (keyOf row) = some row) ∧
          ∀ key ∈ final.healthy, Held resumed.completed key)) ∧
    ∀ before scenario index atMs after,
      Trace.Takes (Steps codec aggregate) .empty labels final before
        (.runStarted scenario index atMs) after →
      (scenario, index) ∉ before.healthy := by
  have sound : ∀ labels (state : State μ ν ε δ α),
      Trace (Steps codec aggregate) .empty labels state → state.Sound codec := by
    intro labels state reached
    exact reached.invariant (State.Sound codec) (fun _ _ _ taken sound => sound.step lawful taken)
      .empty
  refine ⟨fun dead file there => ?_, fun before scenario index atMs after takes => ?_⟩
  · have left : Left codec file final.lines final.healthy := by
      have holds := sound labels final run
      simp only [State.Sound, dead, there] at holds
      exact holds
    refine ⟨left.whole, fun some => ?_⟩
    obtain ⟨runMeta, scenarios, headed⟩ := left.headed.resolve_left some
    obtain ⟨resumed, reads, same, same', apart, rows⟩ := lawful.readSidecar headed
    refine ⟨runMeta, scenarios, resumed, headed, left.whole ▸ reads, same, same', apart, rows,
      fun key well => ?_⟩
    obtain ⟨row, last, sane⟩ := left.kept key well
    have same := keyOf_lastCompleted last
    exact ⟨row, (rows row).mpr (same.symm ▸ last), same, sane⟩
  · obtain ⟨earlier, _, _, reached, ⟨does, _⟩, _⟩ := takes
    simp only [Eval.step, Option.bind_eq_bind, Option.bind_eq_some_iff,
      Option.ite_none_right_eq_some, Option.some.injEq] at does
    obtain ⟨process, runs, ⟨at', due⟩, _⟩ := does
    obtain ⟨file, _, holds, _⟩ := (sound earlier before reached).running runs
    obtain ⟨_, _, undone, _, unfinished⟩ := due
    intro well
    exact (holds.settled (by rw [at'.2]; decide) _ well).elim undone unfinished

end Each

/-! A suite of one scenario and one run, and its lines. -/

namespace OneRun

instance encodableChar : Encodable Char := .ofLeftInverse Char.toNat Char.ofNat Char.ofNat_toNat

instance encodableString : Encodable String :=
  .ofLeftInverse String.toList String.ofList fun _ => String.ofList_toList

deriving instance DecidableEq, Encodable for RunMeta
deriving instance DecidableEq, Encodable for ScenarioMeta
deriving instance DecidableEq, Encodable for EvalStep
deriving instance DecidableEq, Encodable for RunRecord
deriving instance DecidableEq, Encodable for LiveEvent

abbrev Line := LiveEvent Unit Unit Unit Unit Unit

def manifest : Line := .manifest ⟨3, ()⟩ [⟨"recall", ()⟩]

def started : Line := .runStarted 0 0 5

def record : RunRecord Unit Unit := ⟨0, 9, [()], [.turn], 1, ()⟩

def completed : Line := .runCompleted 0 0 record () 9

def texts : List (Line × List Char) :=
  [(manifest, "\x7b\x22kind\x22:\x22manifest\x22,\x22meta\x22:\x7b\x22finished_at_ms\x22:3\x7d,\x22scenarios\x22:[\x7b\x22name\x22:\x22recall\x22\x7d]\x7d".toList),
    (started, "\x7b\x22kind\x22:\x22run_started\x22,\x22scenario\x22:0,\x22run\x22:0,\x22at_ms\x22:5\x7d".toList),
    (completed, "\x7b\x22kind\x22:\x22run_completed\x22,\x22scenario\x22:0,\x22run\x22:0,\x22record\x22:\x7b\x22index\x22:0,\x22finished_at_ms\x22:9\x7d,\x22at_ms\x22:9\x7d".toList)]

/-- A text for any other event, by its number. -/
def tally (number : Nat) : List Char := '{' :: List.replicate number '1' ++ ['}']

def write (event : Line) : List Char :=
  match texts.find? fun entry => entry.1 = event with
  | some entry => entry.2
  | none => tally (Encodable.encode event)

def read (text : List Char) : Option Line :=
  match texts.find? fun entry => entry.2 = text with
  | some entry => some entry.1
  | none => (Encodable.decode (text.length - 2)).filter fun event => write event = text

def codec : JsonCodec Unit Unit Unit Unit Unit := ⟨write, read⟩

theorem texts_apart : ∀ entry ∈ texts, '\n' ∉ entry.2 ∧
    entry.2 = '{' :: (entry.2.drop 1).dropLast ++ ['}'] ∧ entry.2[1]? = some '\x22' ∧
    (∀ other ∈ texts, other.2 <+: entry.2 → other.2 = entry.2) ∧
    write entry.1 = entry.2 ∧ read entry.2 = some entry.1 := by
  decide +kernel

theorem write_cases (event : Line) :
    (∃ entry ∈ texts, entry.1 = event ∧ write event = entry.2) ∨
      write event = tally (Encodable.encode event) := by
  rw [write]
  cases found : texts.find? fun entry => entry.1 = event with
  | some entry =>
    exact .inl ⟨entry, List.mem_of_find?_eq_some found, by simpa using List.find?_some found, rfl⟩
  | none => exact .inr rfl

theorem tally_second (number : Nat) (rest : List Char) :
    (tally number ++ rest)[1]? ≠ some '\x22' := by
  cases number with
  | zero => simp [tally]
  | succ => simp [tally, List.replicate_succ]

theorem write_whole {one other : Line} (begins : write one <+: write other) :
    write one = write other := by
  obtain ⟨rest, split⟩ := begins
  rcases write_cases one with ⟨entry, member, -, same⟩ | same <;>
    rcases write_cases other with ⟨entry', member', -, same'⟩ | same' <;> rw [same, same'] at split ⊢
  · exact (texts_apart entry' member').2.2.2.1 entry member ⟨rest, split⟩
  · -- one of the three begins with a quote, and a tally does not
    have quote := (texts_apart entry member).2.2.1
    have second := tally_second (Encodable.encode other) []
    rw [List.append_nil, ← split] at second
    have within := (List.getElem?_eq_some_iff.mp quote).1
    rw [List.getElem?_append_left within] at second
    exact absurd quote second
  · have quote := (texts_apart entry' member').2.2.1
    rw [← split] at quote
    exact absurd quote (tally_second _ _)
  · by_contra apart
    have some : rest ≠ [] := fun none => apart (by rw [← split, none, List.append_nil])
    have inside : '}' ∈ (tally (Encodable.encode other)).dropLast := by
      rw [← split, List.dropLast_append_of_ne_nil some]
      simp [tally]
    rw [tally, List.dropLast_concat, List.mem_cons, List.mem_replicate] at inside
    rcases inside with brace | ⟨_, one⟩
    · cases brace
    · cases one

theorem write_of_read {text : List Char} {event : Line} (reads : read text = some event) :
    write event = text := by
  rw [read] at reads
  cases found : texts.find? fun entry => entry.2 = text with
  | some entry =>
    simp only [found, Option.some.injEq] at reads
    have same := List.find?_some found
    rw [← reads, (texts_apart entry (List.mem_of_find?_eq_some found)).2.2.2.2.1]
    exact of_decide_eq_true same
  | none =>
    simp only [found, Option.filter_eq_some_iff] at reads
    exact of_decide_eq_true reads.2

theorem lawful : codec.Lawful where
  line event := by
    change '\n' ∉ write event
    rcases write_cases event with ⟨entry, member, -, same⟩ | same <;> rw [same]
    · exact (texts_apart entry member).1
    · simp [tally, List.mem_replicate]
  object event := by
    change ∃ fields, write event = _
    rcases write_cases event with ⟨entry, member, -, same⟩ | same <;> rw [same]
    · exact ⟨_, (texts_apart entry member).2.1⟩
    · exact ⟨_, rfl⟩
  reads event := by
    change read (write event) = some event
    rcases write_cases event with ⟨entry, member, rfl, same⟩ | same <;> rw [same]
    · exact (texts_apart entry member).2.2.2.2.2
    · have absent : (texts.find? fun entry => entry.2 = tally (Encodable.encode event)) = none := by
        rw [List.find?_eq_none]
        intro entry member
        have quote := (texts_apart entry member).2.2.1
        have second := tally_second (Encodable.encode event) []
        rw [List.append_nil] at second
        simp only [decide_eq_true_eq]
        intro equal
        exact second (equal ▸ quote)
      have length : (tally (Encodable.encode event)).length - 2 = Encodable.encode event := by
        simp [tally]
      simp only [read, absent, length, Encodable.encodek, Option.filter_some, same, decide_true,
        if_true]
  closed event front back split more := by
    change read front = none
    cases reads : read front with
    | none => rfl
    | some other =>
      have whole : write event = front ++ back := split
      have start := write_of_read reads
      have same : write other = write event := write_whole ⟨back, by rw [start, whole]⟩
      rw [start, whole] at same
      exact absurd (List.append_right_eq_self.mp same.symm) more

def labels : List (Label Unit Unit Unit Unit) :=
  [.launch ⟨false, false⟩ 1 [⟨"recall", ()⟩] ⟨3, ()⟩, .drive, .runStarted 0 0 5,
    .runFinished 0 record, .flush, .kill]

def final : State Unit Unit Unit Unit Unit :=
  ⟨some (codec.file [manifest, started, completed]), none, none, [manifest, started, completed],
    [(0, 0)]⟩

theorem run : Trace (Steps codec fun _ => ()) .empty labels final := by
  have count : (codec.file [manifest, started, completed]).count newline = 3 := by decide +kernel
  have stops : Lines.Stops newline (codec.file [manifest, started, completed]) := by decide +kernel
  refine .cons ⟨rfl, trivial⟩ <| .cons ⟨rfl, trivial⟩ <| .cons ⟨rfl, trivial⟩ <|
    .cons ⟨rfl, trivial⟩ <| .cons ⟨rfl, trivial⟩ <| .cons ⟨?_, ?_⟩ (.nil _)
  · exact congrArg (fun count => some (⟨some (codec.file [manifest, started, completed]), none, none,
      [manifest, started, completed].take count, [(0, 0)]⟩ : State Unit Unit Unit Unit Unit)) count
  · exact ⟨fun file there => Option.some.inj there ▸ stops, fun process there =>
      Option.some.inj there ▸ rfl⟩

/-- It is read back with its run. -/
theorem run_held : ∃ resumed, readSidecar codec (codec.file [manifest, started, completed]) =
    .ok resumed ∧ Held resumed.completed (0, 0) := by
  obtain ⟨_, read⟩ := (resume_without_loss lawful run).1 rfl _ rfl
  obtain ⟨_, _, resumed, _, reads, _, _, _, _, held⟩ := read (List.cons_ne_nil _ _)
  exact ⟨resumed, reads, held (0, 0) (List.mem_singleton_self _)⟩

/-- Killed when the buffer has handed on the manifest and the start of the next line, the suite
leaves a file that is not read. -/
theorem torn_line_unread : ∃ (state : State Unit Unit Unit Unit Unit) (torn : List UInt8),
    Trace (fun before label after => step codec (fun _ => ()) before label = some after) .empty
      [.launch ⟨false, false⟩ 1 [⟨"recall", ()⟩] ⟨3, ()⟩, .drive, .runStarted 0 0 5, .handOn 100,
        .kill] state ∧
      state.process = none ∧ state.sidecar = some (codec.file [manifest] ++ torn) ∧
      ∃ cause, readSidecar codec (codec.file [manifest] ++ torn) = .error cause := by
  have cut : (codec.file [manifest] ++ codec.file [started]).take 100 =
      codec.file [manifest] ++ (codec.bytes started).take 20 := by decide +kernel
  refine ⟨_, (codec.bytes started).take 20,
    .cons rfl (.cons rfl (.cons rfl (.cons rfl (.cons rfl (.nil _))))), rfl,
    congrArg Option.some cut, ?_⟩
  exact lawful.readSidecar_torn [manifest] (List.take_append_drop 20 (codec.bytes started)).symm
    (by decide +kernel) (by decide +kernel)

end OneRun

end Zuihitsu.Eval
