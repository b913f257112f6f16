/-
# Statement scripts

A script is what a program does to a durable store when it folds one record: a
sequence of statements that commit one by one, with reads of the current state
between them. Nothing encloses the statements, so a process that stops leaves
exactly the statements it has issued.

`Script.run` is the uninterrupted execution and `Script.stopAfter` the state a
stop leaves behind. A script resumes from a stop when running it again from the
stopped state reaches the state the uninterrupted run reaches.
`run_of_replays` gives the reason that covers most scripts: every statement
already issued changes nothing when it is issued again.
-/

import Mathlib.Data.List.Basic

namespace Zuihitsu.Library

/-- A sequenced computation succeeds when its first part does and the second
succeeds on its value. -/
theorem bind_eq_ok {ε α β : Type} {first : Except ε α} {second : α → Except ε β} {result : β} :
    (first >>= second) = .ok result ↔ ∃ value, first = .ok value ∧ second value = .ok result := by
  cases first <;> simp [bind, Except.bind]

/-- A sequenced computation fails where its first part does, or where the second
fails on its value. -/
theorem bind_eq_error {ε α β : Type} {first : Except ε α} {second : α → Except ε β} {failure : ε} :
    (first >>= second) = .error failure ↔
      first = .error failure ∨ ∃ value, first = .ok value ∧ second value = .error failure := by
  cases first <;> simp [bind, Except.bind]

/-- A sequence of fallible statements on a store, with reads between them. -/
inductive Script (σ ε : Type) where
  | done
  | read (next : σ → Script σ ε)
  | exec (statement : σ → Except ε σ) (next : Script σ ε)

namespace Script

variable {σ ε α : Type}

/-- The uninterrupted execution. -/
def run : Script σ ε → σ → Except ε σ
  | done, state => .ok state
  | read next, state => (next state).run state
  | exec statement next, state =>
    match statement state with
    | .ok after => next.run after
    | .error failure => .error failure

/-- The state left by a stop after `count` statements; a count past the end is
the end of the script. -/
def stopAfter : Script σ ε → Nat → σ → Except ε σ
  | done, _, state => .ok state
  | read next, count, state => (next state).stopAfter count state
  | exec _ _, 0, state => .ok state
  | exec statement next, count + 1, state =>
    match statement state with
    | .ok after => next.stopAfter count after
    | .error failure => .error failure

/-- One statement. -/
def statement (act : σ → Except ε σ) : Script σ ε := exec act done

/-- Run the first script, then the second. -/
def andThen : Script σ ε → Script σ ε → Script σ ε
  | done, second => second
  | read next, second => read fun state => (next state).andThen second
  | exec act next, second => exec act (next.andThen second)

/-- One statement for each item, in order. -/
def forEach (items : List α) (act : α → σ → Except ε σ) : Script σ ε :=
  items.foldr (fun item rest => exec (act item) rest) done

@[simp] theorem run_done (state : σ) : (done : Script σ ε).run state = .ok state := rfl

@[simp] theorem run_read (next : σ → Script σ ε) (state : σ) :
    (read next).run state = (next state).run state := rfl

theorem run_exec (act : σ → Except ε σ) (next : Script σ ε) (state : σ) :
    (exec act next).run state = (act state).bind next.run := by
  simp only [run]
  cases act state <;> rfl

theorem run_exec_ok {act : σ → Except ε σ} {next : Script σ ε} {state result : σ} :
    (exec act next).run state = .ok result ↔
      ∃ after, act state = .ok after ∧ next.run after = .ok result := by
  simp only [run]
  cases act state <;> simp

/-- A script goes through when its first statement does and the rest goes through from there. -/
theorem exists_run_exec {act : σ → Except ε σ} {next : Script σ ε} {state after : σ}
    (first : act state = .ok after) (rest : ∃ result, next.run after = .ok result) :
    ∃ result, (exec act next).run state = .ok result := by
  obtain ⟨result, ran⟩ := rest
  exact ⟨result, run_exec_ok.mpr ⟨after, first, ran⟩⟩

@[simp] theorem run_statement (act : σ → Except ε σ) (state : σ) :
    (statement act).run state = act state := by
  simp only [statement, run]
  cases act state <;> rfl

theorem run_andThen (first second : Script σ ε) (state : σ) :
    (first.andThen second).run state = (first.run state).bind second.run := by
  induction first generalizing state with
  | done => rfl
  | read next ih => exact ih state state
  | exec act next ih =>
    simp only [andThen, run]
    cases act state with
    | ok after => exact ih after
    | error => rfl

@[simp] theorem run_forEach_nil (act : α → σ → Except ε σ) (state : σ) :
    (forEach [] act).run state = .ok state := rfl

theorem run_forEach_cons_ok {item : α} {items : List α} {act : α → σ → Except ε σ}
    {state result : σ} :
    (forEach (item :: items) act).run state = .ok result ↔
      ∃ after, act item state = .ok after ∧ (forEach items act).run after = .ok result :=
  run_exec_ok

/-- Every statement of the script relates its state before to its state after. -/
def Relates (relation : σ → σ → Prop) : Script σ ε → Prop
  | done => True
  | read next => ∀ state, (next state).Relates relation
  | exec act next =>
    (∀ before after, act before = .ok after → relation before after) ∧ next.Relates relation

theorem Relates.forEach {relation : σ → σ → Prop} {items : List α} {act : α → σ → Except ε σ}
    (each : ∀ item ∈ items, ∀ before after, act item before = .ok after → relation before after) :
    (forEach items act).Relates relation := by
  induction items with
  | nil => trivial
  | cons item rest ih =>
    exact ⟨each item List.mem_cons_self,
      ih fun other member => each other (List.mem_cons_of_mem _ member)⟩

/-- What every statement relates, a whole run relates, for a preorder. -/
theorem Relates.run {relation : σ → σ → Prop} (refl : ∀ state, relation state state)
    (trans : ∀ first second third, relation first second → relation second third →
      relation first third)
    {script : Script σ ε} (each : script.Relates relation) {state result : σ}
    (ran : script.run state = .ok result) : relation state result := by
  induction script generalizing state with
  | done =>
    cases ran
    exact refl _
  | read next ih => exact ih state (each state) ran
  | exec act next ih =>
    obtain ⟨after, first, rest⟩ := run_exec_ok.mp ran
    exact trans _ _ _ (each.1 state after first) (ih each.2 rest)

/-- A stop before the first statement changes nothing. -/
@[simp] theorem stopAfter_zero (script : Script σ ε) (state : σ) :
    script.stopAfter 0 state = .ok state := by
  induction script generalizing state with
  | done | exec => rfl
  | read next ih => exact ih state state

theorem stopAfter_succ_exec_ok {act : σ → Except ε σ} {next : Script σ ε} {count : Nat}
    {state stopped : σ} :
    (exec act next).stopAfter (count + 1) state = .ok stopped ↔
      ∃ after, act state = .ok after ∧ next.stopAfter count after = .ok stopped := by
  simp only [stopAfter]
  cases act state <;> simp

@[simp] theorem stopAfter_done (count : Nat) (state : σ) :
    (done : Script σ ε).stopAfter count state = .ok state := by
  cases count <;> rfl

@[simp] theorem stopAfter_read (next : σ → Script σ ε) (count : Nat) (state : σ) :
    (read next).stopAfter count state = (next state).stopAfter count state := by
  cases count <;> rfl

/-- Running a script again from where it stopped reaches the state the
uninterrupted run reaches. -/
def ResumesFrom (script : Script σ ε) (count : Nat) (state : σ) : Prop :=
  ∀ stopped, script.stopAfter count state = .ok stopped →
    script.run stopped = script.run state

/-- Along the script from `state`, the reads that lie before the stop read the
same continuation in `stopped`, and the statements issued before the stop leave
`stopped` as it is. -/
def Replays : Script σ ε → Nat → σ → σ → Prop
  | done, _, _, _ => True
  | read next, count, state, stopped =>
    next state = next stopped ∧ (next state).Replays count state stopped
  | exec _ _, 0, _, _ => True
  | exec act next, count + 1, state, stopped =>
    act stopped = .ok stopped ∧
      ∀ after, act state = .ok after → next.Replays count after stopped

/-- Where the statements already issued are replayed without effect, running
the script again continues from the stop. -/
theorem run_of_replays {script : Script σ ε} {count : Nat} {state stopped : σ}
    (stops : script.stopAfter count state = .ok stopped)
    (replays : script.Replays count state stopped) :
    script.run stopped = script.run state := by
  induction script generalizing count state with
  | done =>
    rw [stopAfter_done] at stops
    cases stops
    rfl
  | read next ih =>
    rw [stopAfter_read] at stops
    simp only [Replays] at replays
    simp only [run]
    rw [← replays.1]
    exact ih state stops replays.2
  | exec act next ih =>
    cases count with
    | zero =>
      cases stops
      rfl
    | succ =>
      obtain ⟨after, first, rest⟩ := stopAfter_succ_exec_ok.mp stops
      simp only [Replays] at replays
      simp only [run, replays.1, first]
      exact ih rest (replays.2 after first)

/-- What every statement relates, the part of a run before a stop relates. -/
theorem Relates.stopAfter {relation : σ → σ → Prop} {script : Script σ ε} {count : Nat}
    {state stopped : σ} (each : script.Relates relation)
    (stops : script.stopAfter count state = .ok stopped) (refl : ∀ state, relation state state)
    (trans : ∀ first second third, relation first second → relation second third →
      relation first third) : relation state stopped := by
  induction script generalizing state count with
  | done =>
    rw [stopAfter_done] at stops
    cases stops
    exact refl _
  | read next ih =>
    rw [stopAfter_read] at stops
    exact ih state (each state) stops
  | exec act next ih =>
    cases count with
    | zero =>
      cases stops
      exact refl _
    | succ =>
      obtain ⟨after, first, rest⟩ := stopAfter_succ_exec_ok.mp stops
      exact trans _ _ _ (each.1 state after first) (ih each.2 rest)

/-- A loop stopped after some items has run over these. -/
theorem stopAfter_forEach (items : List α) (act : α → σ → Except ε σ) (count : Nat) (state : σ) :
    (forEach items act).stopAfter count state = (forEach (items.take count) act).run state := by
  induction items generalizing count state with
  | nil => simp [forEach]
  | cons item rest ih =>
    cases count with
    | zero => rfl
    | succ count =>
      change (match act item state with
        | .ok after => (forEach rest act).stopAfter count after
        | .error failure => .error failure) = _
      rw [List.take_succ_cons]
      change _ = (match act item state with
        | .ok after => (forEach (rest.take count) act).run after
        | .error failure => .error failure)
      cases act item state with
      | ok after => exact ih count after
      | error => rfl

/-- A statement that has been issued is absorbed when it is issued again, no later
statement undoes that, and no statement changes what was read before it. -/
def Settles : Script σ ε → Prop
  | done => True
  | read next => ∀ state,
    (next state).Relates (fun before after => next after = next before) ∧ (next state).Settles
  | exec act next =>
    (∀ before after, act before = .ok after → act after = .ok after) ∧
      next.Relates (fun before after => act before = .ok before → act after = .ok after) ∧
      next.Settles

theorem Settles.statement {act : σ → Except ε σ}
    (absorbs : ∀ before after, act before = .ok after → act after = .ok after) :
    (statement act).Settles := ⟨absorbs, trivial, trivial⟩

theorem Settles.forEach {items : List α} {act : α → σ → Except ε σ}
    (absorbs : ∀ item ∈ items, ∀ before after, act item before = .ok after →
      act item after = .ok after)
    (keeps : ∀ item ∈ items, ∀ other ∈ items, ∀ before after, act other before = .ok after →
      act item before = .ok before → act item after = .ok after) :
    (forEach items act).Settles := by
  induction items with
  | nil => trivial
  | cons item rest ih =>
    refine ⟨absorbs item List.mem_cons_self, ?_, ih ?_ ?_⟩
    · exact Relates.forEach fun other member =>
        keeps item List.mem_cons_self other (List.mem_cons_of_mem _ member)
    · exact fun other member => absorbs other (List.mem_cons_of_mem _ member)
    · exact fun one oneMem other otherMem =>
        keeps one (List.mem_cons_of_mem _ oneMem) other (List.mem_cons_of_mem _ otherMem)

theorem Settles.replays {script : Script σ ε} (settles : script.Settles) {count : Nat}
    {state stopped : σ} (stops : script.stopAfter count state = .ok stopped) :
    script.Replays count state stopped := by
  induction script generalizing count state with
  | done => trivial
  | read next ih =>
    rw [stopAfter_read] at stops
    have kept := (settles state).1.stopAfter stops (fun _ => rfl)
      (fun _ _ _ first second => Eq.trans second first)
    exact ⟨Eq.symm kept, ih state (settles state).2 stops⟩
  | exec act next ih =>
    cases count with
    | zero => trivial
    | succ =>
      obtain ⟨after, first, rest⟩ := stopAfter_succ_exec_ok.mp stops
      have kept : act after = .ok after → act stopped = .ok stopped :=
        settles.2.1.stopAfter rest (fun _ same => same) (fun _ _ _ one two same => two (one same))
      refine ⟨kept (settles.1 state after first), fun other issued => ?_⟩
      rw [first] at issued
      cases issued
      exact ih settles.2.2 rest

/-- A script that settles resumes from every stop. -/
theorem Settles.resumesFrom {script : Script σ ε} (settles : script.Settles) (count : Nat)
    (state : σ) : script.ResumesFrom count state :=
  fun _ stops => run_of_replays stops (settles.replays stops)

/-- A script resumes from a stop inside its first part as that part does. -/
theorem ResumesFrom.andThen {first second : Script σ ε} {count : Nat} {state : σ}
    (resumes : first.ResumesFrom count state)
    (inside : (first.andThen second).stopAfter count state = first.stopAfter count state) :
    (first.andThen second).ResumesFrom count state := by
  intro stopped stops
  rw [run_andThen, run_andThen, resumes stopped (inside ▸ stops)]

end Script

/-! ### Folding a log -/

section Fold

variable {σ ε ρ : Type}

/-- Fold the records of a log, stopping at the first that fails. -/
def foldLog (apply : ρ → σ → Except ε σ) (records : List ρ) (state : σ) : Except ε σ :=
  records.foldlM (fun current record => apply record current) state

variable {apply : ρ → σ → Except ε σ}

@[simp] theorem foldLog_nil (state : σ) : foldLog apply [] state = .ok state := rfl

theorem foldLog_cons (record : ρ) (records : List ρ) (state : σ) :
    foldLog apply (record :: records) state =
      (apply record state).bind (foldLog apply records) := rfl

theorem foldLog_cons_ok {record : ρ} {records : List ρ} {state result : σ} :
    foldLog apply (record :: records) state = .ok result ↔
      ∃ after, apply record state = .ok after ∧ foldLog apply records after = .ok result := by
  rw [foldLog_cons]
  cases apply record state <;> simp [Except.bind]

theorem foldLog_append (first second : List ρ) (state : σ) :
    foldLog apply (first ++ second) state =
      (foldLog apply first state).bind (foldLog apply second) := by
  simp only [foldLog, List.foldlM_append]
  rfl

theorem foldLog_append_ok {first second : List ρ} {state result : σ} :
    foldLog apply (first ++ second) state = .ok result ↔
      ∃ middle, foldLog apply first state = .ok middle ∧ foldLog apply second middle = .ok result := by
  rw [foldLog_append]
  cases foldLog apply first state <;> simp [Except.bind]

/-- A fold that begins with one record depends on the start only through what
that record makes of it. -/
theorem foldLog_cons_congr {record : ρ} {records : List ρ} {state other : σ}
    (same : apply record other = apply record state) :
    foldLog apply (record :: records) other = foldLog apply (record :: records) state := by
  rw [foldLog_cons, foldLog_cons, same]

end Fold

end Zuihitsu.Library
