/-
# Prompt versions

Prompt templates are registrations in the log, and the body in effect is the one of the highest
version, the later of two. The boot registers a build's defaults where they are newer, unless an
operator registered the name; an operator's edit reads the version and appends the next one; the
upgrade command overwrites an operator's body when it is forced.

An edit that appends past a registration it has not read gives its version a second body, and a
forced upgrade from more than one version below the default leaves the default newer still. In a
run without these every version has one body, and the operator's last choice stays in effect.
-/

import Mathlib.Data.List.Pairwise
import Zuihitsu.Genesis.Rollout
import Zuihitsu.Library.Trace

namespace Zuihitsu.Genesis

open Zuihitsu.Core Zuihitsu.Library

/-! ### Registrations -/

/-- The registration of a prompt template, with the source of its event. -/
structure Registration where
  name : PromptTemplateName
  version : Nat
  body : String
  source : EventSource
  deriving DecidableEq, Repr

/-- A template as a turn reads it. -/
structure PromptTemplate where
  version : Nat
  body : String
  deriving DecidableEq, Repr

/-- The default templates of a build, one for a name. -/
structure Defaults where
  templates : List TemplateDef
  distinct : (templates.map (·.name)).Nodup

/-- The registration of a default under a source. -/
def TemplateDef.registration (template : TemplateDef) (source : EventSource) : Registration :=
  ⟨template.name, template.version, template.body, source⟩

/-- The highest-versioned template under a name, the later of two. -/
def latestTemplate (log : List Registration) (name : PromptTemplateName) : Option PromptTemplate :=
  log.foldl (fun latest registered =>
    if registered.name = name ∧ ∀ current ∈ latest, current.version ≤ registered.version then
      some ⟨registered.version, registered.body⟩
    else latest) none

/-- The highest-versioned registration under a name, the later of two. -/
def latestRegistration (log : List Registration) (name : PromptTemplateName) :
    Option Registration :=
  log.foldl (fun latest registered =>
    if registered.name = name ∧ ∀ current ∈ latest, current.version ≤ registered.version then
      some registered
    else latest) none

/-- A default is newer than what is registered, or differs from it at the same version. -/
def defaultSupersedes (default : TemplateDef) (registered : Registration) : Bool :=
  registered.version < default.version ||
    (default.version = registered.version && default.body ≠ registered.body)

/-- A default beside the latest registration of its name. -/
structure TemplateAssessment where
  default : TemplateDef
  latest : Option Registration

namespace TemplateAssessment

variable (assessment : TemplateAssessment)

def isAbsent : Bool := assessment.latest.isNone

def latestVersion : Option Nat := assessment.latest.map (·.version)

def isCurated : Bool := assessment.latest.any (·.source ≠ .bootstrap)

def defaultIsNewer : Bool := assessment.latest.any (·.version < assessment.default.version)

def upgradeAvailable : Bool :=
  assessment.isCurated && assessment.latest.any (defaultSupersedes assessment.default)

def tracked : Option Registration :=
  if assessment.isAbsent then some (assessment.default.registration .bootstrap)
  else if !assessment.isCurated then
    if assessment.defaultIsNewer then some (assessment.default.registration .bootstrap) else none
  else none

def overwritten : Option Registration :=
  if assessment.isAbsent || !assessment.isCurated then none
  else if assessment.upgradeAvailable then
    some ⟨assessment.default.name, assessment.latestVersion.getD 0 + 1, assessment.default.body,
      .operator⟩
  else none

end TemplateAssessment

/-- Each default of a build against the log. -/
def assessTemplates (defaults : Defaults) (log : List Registration) : List TemplateAssessment :=
  defaults.templates.map fun default => ⟨default, latestRegistration log default.name⟩

/-- What the boot registers. -/
def reconcileTemplates (defaults : Defaults) (log : List Registration) : List Registration :=
  (assessTemplates defaults log).filterMap TemplateAssessment.tracked

/-- What the upgrade command registers: the defaults that are tracked, then the forced ones. -/
def upgradePrompts (defaults : Defaults) (force : Bool) (log : List Registration) :
    List Registration :=
  (assessTemplates defaults log).filterMap TemplateAssessment.tracked ++
    if force then (assessTemplates defaults log).filterMap TemplateAssessment.overwritten else []

/-! ### Runs -/

/-- An operator's edit that has read the latest version. -/
structure Edit where
  name : PromptTemplateName
  body : String
  current : Option Nat
  deriving DecidableEq, Repr

/-- What an edit appends. -/
def Edit.registration (edit : Edit) : Registration :=
  ⟨edit.name, (edit.current.map (· + 1)).getD 1, edit.body, .operator⟩

/-- A log of registrations, and the edits that have not appended yet. -/
structure Prompts where
  log : List Registration
  edits : List Edit := []

/-- What happens to the prompts. -/
inductive Act where
  | readLatest (name : PromptTemplateName) (body : String)
  | registerPrompt (edit : Edit)
  | boot (defaults : Defaults)
  | upgrade (defaults : Defaults) (force : Bool)

/-- One of the writers takes a step. -/
inductive Step : Prompts → Act → Prompts → Prop
  | readLatest (prompts : Prompts) (name : PromptTemplateName) (body : String) :
    Step prompts (.readLatest name body)
      { prompts with
        edits := ⟨name, body, (latestTemplate prompts.log name).map (·.version)⟩ :: prompts.edits }
  | registerPrompt {prompts : Prompts} {edit : Edit} (pending : edit ∈ prompts.edits) :
    Step prompts (.registerPrompt edit)
      ⟨prompts.log ++ [edit.registration], prompts.edits.erase edit⟩
  | boot (prompts : Prompts) (defaults : Defaults) :
    Step prompts (.boot defaults)
      { prompts with log := prompts.log ++ reconcileTemplates defaults prompts.log }
  | upgrade (prompts : Prompts) (defaults : Defaults) (force : Bool) :
    Step prompts (.upgrade defaults force)
      { prompts with log := prompts.log ++ upgradePrompts defaults force prompts.log }

/-- What genesis leaves: the defaults of the build that created the agent. -/
def born (defaults : Defaults) : Prompts :=
  { log := defaults.templates.map fun default => default.registration .bootstrap }

/-- The build that acts. -/
def Act.build : Act → Option Defaults
  | .boot defaults => some defaults
  | .upgrade defaults _ => some defaults
  | _ => none

/-- A changed body has a greater version. -/
def Defaults.Precedes (earlier later : Defaults) : Prop :=
  ∀ one ∈ earlier.templates, ∀ other ∈ later.templates, one.name = other.name →
    one.body ≠ other.body → one.version < other.version

/-- An edit appends to what it has read, and a forced upgrade reaches the default it registers. -/
def Meets (prompts : Prompts) : Act → Prop
  | .registerPrompt edit =>
    (latestTemplate prompts.log edit.name).map (·.version) = edit.current
  | .upgrade defaults true => ∀ assessment ∈ assessTemplates defaults prompts.log,
    assessment.upgradeAvailable = true →
      assessment.default.version ≤ assessment.latestVersion.getD 0 + 1
  | _ => True

/-- A step that meets the condition. -/
def Careful (prompts : Prompts) (act : Act) (after : Prompts) : Prop :=
  Step prompts act after ∧ Meets prompts act

/-- The last registration of a name that an operator chose. -/
def lastChosen (log : List Registration) (name : PromptTemplateName) : Option Registration :=
  (log.filter fun held => held.name = name ∧ held.source = .operator).getLast?

/-- A greatest default of a name among builds. -/
def IsGreatestDefault (builds : List Defaults) (name : PromptTemplateName)
    (greatest : TemplateDef) : Prop :=
  (∃ defaults ∈ builds, greatest ∈ defaults.templates) ∧ greatest.name = name ∧
    ∀ defaults ∈ builds, ∀ other ∈ defaults.templates, other.name = name →
      other.version ≤ greatest.version

/-- What is claimed of a log, and of the acts since genesis. -/
structure Sovereign (builds : List Defaults) (acts : List Act) (log : List Registration) :
    Prop where
  oneBody : ∀ one ∈ log, ∀ other ∈ log, one.name = other.name → one.version = other.version →
    one.body = other.body
  chosen : ∀ name last, lastChosen log name = some last →
    (latestTemplate log name).map (·.body) = some last.body
  tracking : ∀ name, lastChosen log name = none → ∀ greatest,
    IsGreatestDefault builds name greatest →
      (latestTemplate log name).map (·.body) = some greatest.body
  settled : ∀ earlier build later, acts = earlier ++ .upgrade build true :: later →
    (∀ other ∈ later.filterMap Act.build, other = build) →
      (∀ assessment ∈ assessTemplates build log, assessment.upgradeAvailable = false) ∧
        ∀ force, upgradePrompts build force log = []

/-! ### The latest registration -/

section Latest

variable {log : List Registration} {name : PromptTemplateName} {latest held : Registration}

/-- A turn reads the version and the body of the latest registration. -/
theorem latestTemplate_eq (log : List Registration) (name : PromptTemplateName) :
    latestTemplate log name =
      (latestRegistration log name).map fun latest => ⟨latest.version, latest.body⟩ := by
  induction log using List.reverseRecOn with
  | nil => rfl
  | append_singleton earlier registered ih =>
    simp only [latestTemplate, latestRegistration, List.foldl_append, List.foldl_cons,
      List.foldl_nil] at ih ⊢
    rw [ih]
    simp only [Option.mem_map, forall_exists_index, and_imp, forall_apply_eq_imp_iff₂]
    split <;> rfl

theorem latestRegistration_concat (log : List Registration) (registered : Registration) :
    latestRegistration (log ++ [registered]) name =
      if registered.name = name ∧
          ∀ current ∈ latestRegistration log name, current.version ≤ registered.version then
        some registered
      else latestRegistration log name := by
  rw [latestRegistration, List.foldl_append]
  rfl

/-- The latest registration is one of the name. -/
theorem latestRegistration_mem (here : latestRegistration log name = some latest) :
    latest ∈ log ∧ latest.name = name := by
  induction log using List.reverseRecOn with
  | nil => cases here
  | append_singleton earlier registered ih =>
    rw [latestRegistration_concat] at here
    split at here
    · next taken =>
      cases here
      exact ⟨List.mem_concat_self, taken.1⟩
    · exact ⟨List.mem_append_left _ (ih here).1, (ih here).2⟩

/-- No registration of the name has a higher version. -/
theorem le_latestRegistration (member : held ∈ log) (named : held.name = name) :
    ∃ latest, latestRegistration log name = some latest ∧ held.version ≤ latest.version := by
  induction log using List.reverseRecOn with
  | nil => cases member
  | append_singleton earlier registered ih =>
    rw [latestRegistration_concat]
    rcases List.mem_append.mp member with before | last
    · obtain ⟨latest, here, within⟩ := ih before
      split
      · next taken => exact ⟨_, rfl, within.trans (taken.2 latest here)⟩
      · exact ⟨latest, here, within⟩
    · obtain rfl := List.mem_singleton.mp last
      split
      · exact ⟨_, rfl, le_rfl⟩
      · next kept =>
        rw [not_and] at kept
        push Not at kept
        obtain ⟨latest, here, below⟩ := kept named
        exact ⟨latest, here, below.le⟩

/-- A list whose versions rise ends in the highest. -/
theorem getLast?_of_rises {items : List Registration}
    (rises : items.Pairwise fun one other => one.version < other.version) (member : latest ∈ items)
    (highest : ∀ item ∈ items, item.version ≤ latest.version) : items.getLast? = some latest := by
  cases items using List.reverseRecOn with
  | nil => cases member
  | append_singleton earlier last =>
    rw [List.getLast?_concat]
    rcases List.mem_append.mp member with before | same
    · have below := (List.pairwise_append.mp rises).2.2 latest before last List.mem_cons_self
      have above := highest last List.mem_concat_self
      omega
    · rw [List.mem_singleton.mp same]

end Latest

/-! ### What every writer keeps -/

/-- The versions of a name rise, and what follows an operator's choice is an operator's. -/
def Rises (one other : Registration) : Prop :=
  one.name = other.name →
    one.version < other.version ∧ (one.source = .operator → other.source = .operator)

/-- A log rises, and what no operator chose in it is a default of the builds, which are reached
where no operator chose. -/
structure Kept (builds : List Defaults) (log : List Registration) : Prop where
  rises : log.Pairwise Rises
  sourced : ∀ held ∈ log, held.source = .operator ∨
    ∃ defaults ∈ builds, ∃ default ∈ defaults.templates, held = default.registration .bootstrap
  reached : ∀ defaults ∈ builds, ∀ default ∈ defaults.templates, ∃ held ∈ log,
    held.name = default.name ∧ (held.source = .operator ∨ default.version ≤ held.version)

section Writers

open TemplateAssessment

variable {builds : List Defaults} {log news : List Registration} {name : PromptTemplateName}
variable {defaults : Defaults} {latest registered held : Registration} {force : Bool}

/-- Registrations on top of a log are kept with it. -/
theorem Kept.append (kept : Kept builds log) {more : List Defaults}
    (above : ∀ registered ∈ news, ∀ held ∈ log, Rises held registered)
    (apart : news.Pairwise fun one other => one.name ≠ other.name) (grows : builds ⊆ more)
    (sourced : ∀ registered ∈ news, registered.source = .operator ∨
      ∃ defaults ∈ more, ∃ default ∈ defaults.templates,
        registered = default.registration .bootstrap)
    (reached : ∀ defaults ∈ more, defaults ∈ builds ∨ ∀ default ∈ defaults.templates,
      ∃ held ∈ log ++ news, held.name = default.name ∧
        (held.source = .operator ∨ default.version ≤ held.version)) :
    Kept more (log ++ news) where
  rises := List.pairwise_append.mpr ⟨kept.rises, apart.imp fun apart same => absurd same apart,
    fun held member registered new => above registered new held member⟩
  sourced held member := by
    rcases List.mem_append.mp member with before | new
    · refine (kept.sourced held before).imp_right ?_
      rintro ⟨defaults, booted, rest⟩
      exact ⟨defaults, grows booted, rest⟩
    · exact sourced held new
  reached defaults booted default member := by
    rcases reached defaults booted with before | here
    · obtain ⟨held, old, rest⟩ := kept.reached defaults before default member
      exact ⟨held, List.mem_append_left _ old, rest⟩
    · exact here default member

/-- Nothing of the name is above the latest registration. -/
theorem le_of_latest (here : latestRegistration log name = some latest) (member : held ∈ log)
    (named : held.name = name) : held.version ≤ latest.version := by
  obtain ⟨other, there, within⟩ := le_latestRegistration member named
  rw [Option.some.inj (here.symm.trans there)]
  exact within

/-- Of two registrations, one comes before the other. -/
theorem Kept.ordered (kept : Kept builds log) {one other : Registration} (here : one ∈ log)
    (there : other ∈ log) (apart : one ≠ other) : Rises one other ∨ Rises other one := by
  obtain ⟨before, after, rfl⟩ := List.append_of_mem here
  obtain ⟨_, following, across⟩ := List.pairwise_append.mp kept.rises
  rcases List.mem_append.mp there with earlier | later
  · exact .inr (across other earlier one List.mem_cons_self)
  · rcases List.mem_cons.mp later with same | later
    · exact absurd same.symm apart
    · exact .inl ((List.pairwise_cons.mp following).1 other later)

/-- Where an operator chose a name, the latest registration is an operator's. -/
theorem Kept.operator_latest (kept : Kept builds log)
    (here : latestRegistration log name = some latest) (member : held ∈ log)
    (named : held.name = name) (chosen : held.source = .operator) : latest.source = .operator := by
  obtain ⟨there, same⟩ := latestRegistration_mem here
  by_cases equal : held = latest
  · exact equal ▸ chosen
  · rcases kept.ordered member there equal with rises | rises
    · exact (rises (named.trans same.symm)).2 chosen
    · have above := (rises (same.trans named.symm)).1
      have within := le_of_latest here member named
      omega

/-- What is above the latest registration of its name, and undoes no choice, tops the log. -/
theorem Kept.tops (kept : Kept builds log)
    (above : ∀ latest, latestRegistration log registered.name = some latest →
      latest.version < registered.version ∧
        (latest.source = .operator → registered.source = .operator)) :
    ∀ held ∈ log, Rises held registered := by
  intro held member named
  obtain ⟨latest, here, within⟩ := le_latestRegistration member named
  obtain ⟨below, follows⟩ := above latest here
  exact ⟨within.trans_lt below, fun chosen =>
    follows (kept.operator_latest here member named chosen)⟩

/-- What the boot registers for a default. -/
theorem tracked_eq_some {assessment : TemplateAssessment}
    (taken : assessment.tracked = some registered) :
    registered = assessment.default.registration .bootstrap ∧ ∀ latest ∈ assessment.latest,
      latest.version < assessment.default.version ∧ latest.source = .bootstrap := by
  obtain ⟨default, latest⟩ := assessment
  cases latest with
  | none =>
    cases taken
    exact ⟨rfl, nofun⟩
  | some latest =>
    by_cases curated : latest.source = .bootstrap <;>
      by_cases newer : latest.version < default.version <;>
      simp [tracked, isAbsent, isCurated,
        defaultIsNewer, curated, newer] at taken
    exact ⟨taken.symm, fun _ same => Option.some.inj same ▸ ⟨newer, curated⟩⟩

/-- What a forced upgrade registers for a default. -/
theorem overwritten_eq_some {assessment : TemplateAssessment}
    (taken : assessment.overwritten = some registered) :
    assessment.upgradeAvailable = true ∧ ∃ latest, assessment.latest = some latest ∧
      registered =
        ⟨assessment.default.name, latest.version + 1, assessment.default.body, .operator⟩ := by
  obtain ⟨default, latest⟩ := assessment
  cases latest with
  | none => cases taken
  | some latest =>
    simp only [overwritten] at taken
    split at taken
    · cases taken
    · split at taken
      · next available =>
        cases taken
        exact ⟨available, latest, rfl, rfl⟩
      · cases taken

theorem tracked_of_overwritten {assessment : TemplateAssessment}
    (taken : assessment.overwritten = some registered) : assessment.tracked = none := by
  obtain ⟨available, latest, here, _⟩ := overwritten_eq_some taken
  have curated := (Bool.and_eq_true_iff.mp available).1
  simp [tracked, isAbsent, here, curated]

/-! ### What the builds register -/

/-- What an upgrade registers is for one of the defaults. -/
theorem mem_upgradePrompts :
    registered ∈ upgradePrompts defaults force log ↔ ∃ default ∈ defaults.templates,
      let assessment : TemplateAssessment := ⟨default, latestRegistration log default.name⟩
      assessment.tracked = some registered ∨
        force = true ∧ assessment.overwritten = some registered := by
  cases force <;> simp [upgradePrompts, assessTemplates, ← exists_or, ← and_or_left]

/-- The boot registers what an upgrade registers that is not forced. -/
theorem reconcileTemplates_eq (defaults : Defaults) (log : List Registration) :
    reconcileTemplates defaults log = upgradePrompts defaults false log :=
  (List.append_nil _).symm

/-- What is registered for a default is under its name. -/
theorem name_of_registers {default : TemplateDef} {current : Option Registration}
    (taken : (TemplateAssessment.mk default current).tracked = some registered ∨
      force = true ∧ (TemplateAssessment.mk default current).overwritten = some registered) :
    registered.name = default.name := by
  rcases taken with tracked | ⟨_, overwritten⟩
  · rw [(tracked_eq_some tracked).1]
    rfl
  · obtain ⟨_, latest, _, rfl⟩ := overwritten_eq_some overwritten
    rfl

/-- No two registrations of an upgrade are for one name. -/
theorem apart_upgradePrompts (defaults : Defaults) (force : Bool) (log : List Registration) :
    (upgradePrompts defaults force log).Pairwise fun one other => one.name ≠ other.name := by
  have distinct : (assessTemplates defaults log).Pairwise
      fun one other => one.default.name ≠ other.default.name := by
    rw [assessTemplates, List.pairwise_map]
    exact List.pairwise_map.mp defaults.distinct
  rw [upgradePrompts, List.pairwise_append, List.pairwise_filterMap]
  refine ⟨distinct.imp fun apart one first other second => ?_, ?_,
    fun one tracks other forced => ?_⟩
  · rw [(tracked_eq_some first).1, (tracked_eq_some second).1]
    exact apart
  · cases force
    · exact .nil
    · refine List.pairwise_filterMap.mpr (distinct.imp fun apart one first other second => ?_)
      obtain ⟨_, _, _, rfl⟩ := overwritten_eq_some first
      obtain ⟨_, _, _, rfl⟩ := overwritten_eq_some second
      exact apart
  · cases force
    · cases forced
    · obtain ⟨assessment, member, first⟩ := List.mem_filterMap.mp tracks
      obtain ⟨second, here, taken⟩ := List.mem_filterMap.mp forced
      rw [(tracked_eq_some first).1]
      obtain ⟨_, _, _, rfl⟩ := overwritten_eq_some taken
      intro same
      have equal := List.inj_on_of_nodup_map (List.pairwise_map.mpr distinct) member here same
      rw [equal, tracked_of_overwritten taken] at first
      cases first

/-- An upgrade keeps the log, forced or not. -/
theorem Kept.upgrade (kept : Kept builds log) (defaults : Defaults) (force : Bool) :
    Kept (builds ++ [defaults]) (log ++ upgradePrompts defaults force log) := by
  have here : defaults ∈ builds ++ [defaults] := List.mem_concat_self
  refine kept.append (fun registered new => kept.tops fun latest stands => ?_)
    (apart_upgradePrompts defaults force log) (List.subset_append_left _ _)
    (fun registered new => ?_) fun other booted => ?_
  · obtain ⟨default, member, taken⟩ := mem_upgradePrompts.mp new
    have named := name_of_registers taken
    rw [named] at stands
    rcases taken with tracked | ⟨_, overwritten⟩
    · obtain ⟨rfl, newer⟩ := tracked_eq_some tracked
      obtain ⟨below, tracks⟩ := newer latest stands
      exact ⟨below, fun chosen => nomatch tracks.symm.trans chosen⟩
    · obtain ⟨_, current, held, rfl⟩ := overwritten_eq_some overwritten
      cases held.symm.trans stands
      exact ⟨Nat.lt_succ_self _, fun _ => rfl⟩
  · obtain ⟨default, member, tracked | ⟨_, overwritten⟩⟩ := mem_upgradePrompts.mp new
    · exact .inr ⟨defaults, here, default, member, (tracked_eq_some tracked).1⟩
    · obtain ⟨_, _, _, rfl⟩ := overwritten_eq_some overwritten
      exact .inl rfl
  · rcases List.mem_append.mp booted with before | last
    · exact .inl before
    · obtain rfl := List.mem_singleton.mp last
      refine .inr fun default member => ?_
      cases stands : latestRegistration log default.name with
      | none =>
        refine ⟨default.registration .bootstrap, List.mem_append_right _ ?_, rfl, .inr le_rfl⟩
        refine mem_upgradePrompts.mpr ⟨default, member, .inl ?_⟩
        rw [stands]
        rfl
      | some latest =>
        obtain ⟨old, named⟩ := latestRegistration_mem stands
        rcases kept.sourced latest old with chosen | ⟨_, _, source, _, rfl⟩
        · exact ⟨latest, List.mem_append_left _ old, named, .inl chosen⟩
        · by_cases newer : source.version < default.version
          · refine ⟨default.registration .bootstrap, List.mem_append_right _ ?_, rfl, .inr le_rfl⟩
            refine mem_upgradePrompts.mpr ⟨default, member, .inl ?_⟩
            rw [stands]
            simp [tracked, isAbsent,
              isCurated, defaultIsNewer,
              TemplateDef.registration, newer]
          · exact ⟨_, List.mem_append_left _ old, named, .inr (not_lt.mp newer)⟩

/-- An edit that appends to what it has read keeps the log. -/
theorem Kept.register (kept : Kept builds log) {edit : Edit}
    (read : (latestTemplate log edit.name).map (·.version) = edit.current) :
    Kept builds (log ++ [edit.registration]) := by
  refine kept.append (fun registered new => ?_) (List.pairwise_singleton _ _) (List.Subset.refl _)
    (fun registered new => ?_) fun defaults booted => .inl booted
  · obtain rfl := List.mem_singleton.mp new
    refine kept.tops fun latest stands => ⟨?_, fun _ => rfl⟩
    rw [latestTemplate_eq, show latestRegistration log edit.name = some latest from stands] at read
    rw [Edit.registration, ← read]
    exact Nat.lt_succ_self _
  · obtain rfl := List.mem_singleton.mp new
    exact .inl rfl

/-- Genesis registers the defaults of its build. -/
theorem Kept.born (defaults : Defaults) : Kept [defaults] (born defaults).log where
  rises := List.pairwise_map.mpr ((List.pairwise_map.mp defaults.distinct).imp
    fun apart same => absurd same apart)
  sourced held member := by
    obtain ⟨default, here, rfl⟩ := List.mem_map.mp member
    exact .inr ⟨defaults, List.mem_singleton_self _, default, here, rfl⟩
  reached other booted default member := by
    obtain rfl := List.mem_singleton.mp booted
    exact ⟨_, List.mem_map_of_mem member, rfl, .inr le_rfl⟩

/-! ### After a forced upgrade -/

/-- Nothing of a build is newer than what is registered, nor differs from an operator's choice
of its version. -/
def Settled (defaults : Defaults) (log : List Registration) : Prop :=
  ∀ default ∈ defaults.templates, ∃ latest, latestRegistration log default.name = some latest ∧
    default.version ≤ latest.version ∧ (latest.source ≠ .bootstrap →
      default.version = latest.version → default.body = latest.body)

/-- Where nothing is registered for a default, it is not newer, nor different. -/
theorem unregistered_iff {default : TemplateDef} :
    ((TemplateAssessment.mk default (some latest)).tracked = none ∧
        (TemplateAssessment.mk default (some latest)).overwritten = none) ↔
      default.version ≤ latest.version ∧ (latest.source ≠ .bootstrap →
        default.version = latest.version → default.body = latest.body) := by
  by_cases curated : latest.source = .bootstrap
  · simp [tracked, overwritten, isAbsent,
      isCurated, defaultIsNewer, curated]
  · simp [tracked, overwritten, isAbsent,
      isCurated, upgradeAvailable, defaultSupersedes, curated]

/-- A settled build has no upgrade to offer, and registers nothing. -/
theorem Settled.quiet (settled : Settled defaults log) :
    (∀ assessment ∈ assessTemplates defaults log, assessment.upgradeAvailable = false) ∧
      ∀ force, upgradePrompts defaults force log = [] := by
  constructor
  · intro assessment member
    obtain ⟨default, here, rfl⟩ := List.mem_map.mp member
    obtain ⟨latest, stands, within, same⟩ := settled default here
    rw [stands]
    by_cases curated : latest.source = .bootstrap
    · simp [upgradeAvailable, isCurated, curated]
    · simpa [upgradeAvailable, isCurated, defaultSupersedes,
        curated, within] using same curated
  · refine fun force => List.eq_nil_iff_forall_not_mem.mpr fun registered new => ?_
    obtain ⟨default, member, taken⟩ := mem_upgradePrompts.mp new
    obtain ⟨latest, stands, holds⟩ := settled default member
    have nothing := unregistered_iff.mpr holds
    simp [stands, nothing.1, nothing.2] at taken

/-- A forced upgrade that reaches its defaults settles them. -/
theorem Kept.settles (kept : Kept builds log)
    (reaches : ∀ assessment ∈ assessTemplates defaults log, assessment.upgradeAvailable = true →
      assessment.default.version ≤ assessment.latestVersion.getD 0 + 1) :
    Settled defaults (log ++ upgradePrompts defaults true log) := by
  have after := kept.upgrade defaults true
  intro default member
  obtain ⟨held, there, named, _⟩ := after.reached defaults List.mem_concat_self default member
  obtain ⟨latest, stands, _⟩ := le_latestRegistration there named
  refine ⟨latest, stands, ?_⟩
  have highest := fun {registered : Registration} =>
    @le_of_latest _ default.name latest registered stands
  obtain ⟨place, named⟩ := latestRegistration_mem stands
  rcases List.mem_append.mp place with old | new
  · -- nothing was registered for the name, and what stood still stands
    obtain ⟨current, stood, within⟩ := le_latestRegistration old named
    have same : current = latest := by
      obtain ⟨before, calls⟩ := latestRegistration_mem stood
      by_contra apart
      have below := highest (List.mem_append_left _ before) calls
      rcases kept.ordered before old apart with rises | rises
      · have := (rises (calls.trans named.symm)).1
        omega
      · have := (rises (named.trans calls.symm)).1
        omega
    subst same
    have nothing : ∀ registered, registered.name = default.name →
        registered ∉ upgradePrompts defaults true log := fun registered calls new => by
      have rises := (List.pairwise_append.mp after.rises).2.2 current old registered new
      have above := (rises (named.trans calls.symm)).1
      have below := highest (List.mem_append_right _ new) calls
      omega
    refine unregistered_iff.mp ⟨?_, ?_⟩ <;> refine Option.eq_none_iff_forall_not_mem.mpr
      fun registered taken => nothing registered ?_ (mem_upgradePrompts.mpr ⟨default, member, ?_⟩)
    · exact name_of_registers (.inl taken : _ ∨ true = true ∧ _)
    · rw [stood]
      exact .inl taken
    · exact name_of_registers (.inr ⟨rfl, taken⟩)
    · rw [stood]
      exact .inr ⟨rfl, taken⟩
  · obtain ⟨other, here, taken⟩ := mem_upgradePrompts.mp new
    obtain rfl : other = default :=
      List.inj_on_of_nodup_map defaults.distinct here member
        ((name_of_registers taken).symm.trans named)
    rcases taken with tracked | ⟨_, overwritten⟩
    · obtain ⟨rfl, _⟩ := tracked_eq_some tracked
      exact ⟨le_rfl, fun curated => absurd rfl curated⟩
    · obtain ⟨available, current, stood, rfl⟩ := overwritten_eq_some overwritten
      have reached := reaches _ (List.mem_map_of_mem here) available
      rw [latestVersion, stood] at reached
      exact ⟨reached, fun _ _ => rfl⟩

/-- An edit that appends to what it has read leaves a settled build so. -/
theorem Settled.register (settled : Settled defaults log) {edit : Edit}
    (read : (latestTemplate log edit.name).map (·.version) = edit.current) :
    Settled defaults (log ++ [edit.registration]) := by
  intro default member
  obtain ⟨latest, stands, within, same⟩ := settled default member
  by_cases named : edit.name = default.name
  · rw [latestTemplate_eq, named, stands] at read
    have above : edit.registration.version = latest.version + 1 := by
      rw [Edit.registration, ← read]
      rfl
    have newer : ∀ current ∈ latestRegistration log default.name,
        current.version ≤ edit.registration.version := fun current here => by
      cases here.symm.trans stands
      omega
    refine ⟨edit.registration, ?_, by omega, fun _ equal => by omega⟩
    rw [latestRegistration_concat, if_pos ⟨named, newer⟩]
  · refine ⟨latest, ?_, within, same⟩
    rw [latestRegistration_concat, if_neg fun both => named both.1, stands]

/-! ### Runs that meet the condition -/

/-- Defaults of one name and version have one body. -/
theorem body_of_precedes (precedes : builds.Pairwise Defaults.Precedes) {one other : Defaults}
    (booted : one ∈ builds) (too : other ∈ builds) {first second : TemplateDef}
    (here : first ∈ one.templates) (there : second ∈ other.templates)
    (named : first.name = second.name) (same : first.version = second.version) :
    first.body = second.body := by
  by_contra apart
  obtain ⟨before, after, rfl⟩ := List.append_of_mem booted
  obtain ⟨_, following, across⟩ := List.pairwise_append.mp precedes
  rcases List.mem_append.mp too with earlier | later
  · have := across other earlier one List.mem_cons_self second there first here named.symm
      (Ne.symm apart)
    omega
  · rcases List.mem_cons.mp later with rfl | later
    · exact apart (List.inj_on_of_nodup_map other.distinct here there named ▸ rfl)
    · have := (List.pairwise_cons.mp following).1 other later first here second there named apart
      omega

/-- What is kept is what is claimed. -/
theorem Kept.chosen (kept : Kept builds log) {last : Registration}
    (chose : lastChosen log name = some last) :
    (latestTemplate log name).map (·.body) = some last.body := by
  obtain ⟨member, named, chosen⟩ : last ∈ log ∧ last.name = name ∧ last.source = .operator := by
    simpa using List.mem_of_getLast? chose
  obtain ⟨latest, stands, _⟩ := le_latestRegistration member named
  obtain ⟨there, calls⟩ := latestRegistration_mem stands
  have ends := @getLast?_of_rises latest
    (log.filter fun held => held.name = name ∧ held.source = .operator) ?_ ?_ ?_
  · rw [latestTemplate_eq, stands, Option.some.inj (chose.symm.trans ends)]
    rfl
  · refine (List.Pairwise.filter _ kept.rises).imp_of_mem fun one other rises => ?_
    simp only [List.mem_filter, decide_eq_true_eq] at one other
    exact (rises (one.2.1.trans other.2.1.symm)).1
  · simpa [there, calls] using kept.operator_latest stands member named chosen
  · intro held among
    simp only [List.mem_filter, decide_eq_true_eq] at among
    exact le_of_latest stands among.1 among.2.1

theorem Kept.tracking (kept : Kept builds log) (precedes : builds.Pairwise Defaults.Precedes)
    (never : lastChosen log name = none) {greatest : TemplateDef}
    (great : IsGreatestDefault builds name greatest) :
    (latestTemplate log name).map (·.body) = some greatest.body := by
  obtain ⟨⟨defaults, booted, here⟩, rfl, highest⟩ := great
  have unchosen : ∀ held ∈ log, held.name = greatest.name → held.source ≠ .operator := by
    simpa [lastChosen] using never
  obtain ⟨held, member, named, reaches⟩ := kept.reached defaults booted greatest here
  obtain ⟨latest, stands, within⟩ := le_latestRegistration member named
  obtain ⟨there, calls⟩ := latestRegistration_mem stands
  obtain ⟨other, too, default, among, rfl⟩ :=
    (kept.sourced latest there).resolve_left (unchosen latest there calls)
  have above := highest other too default among calls
  have below := reaches.resolve_left (unchosen held member named)
  change held.version ≤ default.version at within
  rw [latestTemplate_eq, stands]
  exact congrArg some (body_of_precedes precedes too booted among here calls (by omega))

/-- A step that meets the condition keeps the log, with the build that acts. -/
theorem Kept.step {prompts after : Prompts} {act : Act} (kept : Kept builds prompts.log)
    (careful : Careful prompts act after) : Kept (builds ++ act.build.toList) after.log := by
  obtain ⟨step, meets⟩ := careful
  cases step with
  | readLatest => simpa [Act.build] using kept
  | registerPrompt => simpa [Act.build] using kept.register meets
  | boot defaults =>
    simp only [reconcileTemplates_eq]
    exact kept.upgrade defaults false
  | upgrade defaults force => exact kept.upgrade defaults force

/-- A step of the build that is settled, or of none, leaves it settled. -/
theorem Settled.step {prompts after : Prompts} {act : Act} (settled : Settled defaults prompts.log)
    (careful : Careful prompts act after) (same : ∀ other ∈ act.build, other = defaults) :
    Settled defaults after.log := by
  obtain ⟨step, meets⟩ := careful
  cases step with
  | readLatest => exact settled
  | registerPrompt => exact settled.register meets
  | boot build =>
    obtain rfl := same build rfl
    simpa only [reconcileTemplates_eq, settled.quiet.2, List.append_nil] using settled
  | upgrade build force =>
    obtain rfl := same build rfl
    simpa only [settled.quiet.2, List.append_nil] using settled

end Writers

/-! ### Whatever the writers race to -/

/-- The act may register an operator's choice of a name. -/
def Act.Chooses (name : PromptTemplateName) : Act → Prop
  | .registerPrompt edit => edit.name = name
  | .upgrade _ force => force = true
  | _ => False

section Races

open TemplateAssessment

variable {log news : List Registration} {name : PromptTemplateName} {latest : Registration}
variable {defaults : Defaults} {force : Bool} {prompts after : Prompts} {act : Act}

theorem latestRegistration_append_other (other : ∀ registered ∈ news, registered.name ≠ name) :
    latestRegistration (log ++ news) name = latestRegistration log name := by
  induction news using List.reverseRecOn with
  | nil => rw [List.append_nil]
  | append_singleton earlier registered ih =>
    rw [List.forall_mem_append, List.forall_mem_singleton] at other
    rw [← List.append_assoc, latestRegistration_concat, if_neg fun taken => other.2 taken.1,
      ih other.1]

/-- Registrations on top of a choice leave one, and no lower version. -/
theorem curated_append (stands : latestRegistration log name = some latest)
    (curated : latest.source ≠ .bootstrap)
    (chosen : ∀ registered ∈ news, registered.name = name → registered.source ≠ .bootstrap) :
    ∃ later, latestRegistration (log ++ news) name = some later ∧ later.source ≠ .bootstrap ∧
      latest.version ≤ later.version := by
  induction news using List.reverseRecOn with
  | nil => exact ⟨latest, by rw [List.append_nil, stands], curated, le_rfl⟩
  | append_singleton earlier registered ih =>
    rw [List.forall_mem_append, List.forall_mem_singleton] at chosen
    obtain ⟨later, held, kept, within⟩ := ih chosen.1
    rw [← List.append_assoc, latestRegistration_concat, held]
    split
    · rename_i taken
      exact ⟨registered, rfl, chosen.2 taken.1, within.trans (taken.2 later rfl)⟩
    · exact ⟨later, rfl, kept, within⟩

/-- What an upgrade registers for a curated name is forced, and a choice. -/
theorem forced_of_curated (stands : latestRegistration log name = some latest)
    (curated : latest.source ≠ .bootstrap) {registered : Registration}
    (new : registered ∈ upgradePrompts defaults force log) (named : registered.name = name) :
    force = true ∧ registered.source ≠ .bootstrap := by
  obtain ⟨default, _, taken⟩ := mem_upgradePrompts.mp new
  rw [← name_of_registers taken, named, stands] at taken
  rcases taken with tracked | ⟨forced, overwritten⟩
  · exact absurd ((tracked_eq_some tracked).2 latest rfl).2 curated
  · obtain ⟨_, _, _, rfl⟩ := overwritten_eq_some overwritten
    exact ⟨forced, nofun⟩

theorem Step.curated (step : Step prompts act after)
    (stands : latestRegistration prompts.log name = some latest)
    (curated : latest.source ≠ .bootstrap) :
    (∃ later, latestRegistration after.log name = some later ∧ later.source ≠ .bootstrap ∧
      latest.version ≤ later.version) ∧
    (¬act.Chooses name → latestRegistration after.log name = some latest) := by
  have upgrades : ∀ defaults force,
      (∃ later, latestRegistration (prompts.log ++ upgradePrompts defaults force prompts.log) name =
        some later ∧ later.source ≠ .bootstrap ∧ latest.version ≤ later.version) ∧
      (force ≠ true → latestRegistration (prompts.log ++ upgradePrompts defaults force prompts.log)
        name = some latest) := by
    refine fun defaults force => ⟨curated_append stands curated fun registered new named =>
      (forced_of_curated stands curated new named).2, fun unforced => ?_⟩
    rw [latestRegistration_append_other fun registered new named =>
      unforced (forced_of_curated stands curated new named).1, stands]
  cases step with
  | readLatest => exact ⟨⟨latest, stands, curated, le_rfl⟩, fun _ => stands⟩
  | @registerPrompt _ edit =>
    refine ⟨curated_append stands curated ?_, fun apart => ?_⟩
    · rintro _ (_ | ⟨_, ⟨⟩⟩) _
      nofun
    · rw [latestRegistration_append_other ?_, stands]
      rintro _ (_ | ⟨_, ⟨⟩⟩)
      exact apart
  | boot defaults =>
    rw [reconcileTemplates_eq]
    exact ⟨(upgrades defaults false).1, fun _ => (upgrades defaults false).2 nofun⟩
  | upgrade defaults force => exact upgrades defaults force

/-- Once an operator has chosen a name, a choice is in effect for it, of no lower version, however
edits, boots and upgrades of any builds race, and it is the same one until the next choice. -/
theorem curated_stays {acts : List Act} (run : Trace Step prompts acts after)
    (stands : latestRegistration prompts.log name = some latest)
    (curated : latest.source ≠ .bootstrap) :
    ∃ later, latestRegistration after.log name = some later ∧ later.source ≠ .bootstrap ∧
      latest.version ≤ later.version ∧ ((∀ act ∈ acts, ¬act.Chooses name) → later = latest) := by
  induction run generalizing latest with
  | nil => exact ⟨latest, stands, curated, le_rfl, fun _ => rfl⟩
  | @cons before middle after act acts first _ ih =>
    obtain ⟨⟨next, held, kept, within⟩, same⟩ := first.curated stands curated
    obtain ⟨later, holds, chosen, above, stays⟩ := ih held kept
    refine ⟨later, holds, chosen, within.trans above, fun quiet => ?_⟩
    rw [List.forall_mem_cons] at quiet
    rw [stays quiet.2, ← Option.some_inj, ← held, same quiet.1]

/-- What the boot of a build leaves of a name of its: what it registered, or what stood. -/
theorem latestRegistration_reconcile {default : TemplateDef} (member : default ∈ defaults.templates) :
    latestRegistration (log ++ reconcileTemplates defaults log) default.name =
      ((TemplateAssessment.mk default (latestRegistration log default.name)).tracked).or
        (latestRegistration log default.name) := by
  have apart := apart_upgradePrompts defaults false log
  rw [reconcileTemplates_eq]
  cases tracks : (TemplateAssessment.mk default (latestRegistration log default.name)).tracked with
  | none =>
    rw [latestRegistration_append_other, Option.none_or]
    intro registered new named
    obtain ⟨other, here, taken⟩ := mem_upgradePrompts.mp new
    have same := List.inj_on_of_nodup_map defaults.distinct here member
      ((name_of_registers taken).symm.trans named)
    rcases taken with tracked | ⟨⟨⟩, _⟩
    rw [same, tracks] at tracked
    cases tracked
  | some registered =>
    obtain ⟨rfl, newer⟩ := tracked_eq_some tracks
    obtain ⟨earlier, later, split⟩ := List.append_of_mem
      (mem_upgradePrompts.mpr ⟨default, member, .inl tracks⟩ :
        default.registration .bootstrap ∈ upgradePrompts defaults false log)
    rw [split, List.pairwise_append, List.pairwise_cons] at apart
    have before : latestRegistration (log ++ earlier) default.name =
        latestRegistration log default.name :=
      latestRegistration_append_other fun one here => apart.2.2 one here _ List.mem_cons_self
    have through : latestRegistration (log ++ earlier ++ [default.registration .bootstrap] ++ later)
        default.name = latestRegistration (log ++ earlier ++ [default.registration .bootstrap])
          default.name :=
      latestRegistration_append_other fun one here => (apart.2.1.1 one here).symm
    rw [split, ← List.append_assoc, List.append_cons, through, latestRegistration_concat, before,
      if_pos ⟨rfl, fun current held => (newer current held).1.le⟩]
    rfl

/-- Whatever the log, a boot leaves no default of its build newer than what it tracks, leaves what
it need not replace, and has nothing to register the next time. -/
theorem reconcile_settles (defaults : Defaults) (log : List Registration) :
    reconcileTemplates defaults (log ++ reconcileTemplates defaults log) = [] ∧
      ∀ default ∈ defaults.templates, ∃ latest,
        latestRegistration (log ++ reconcileTemplates defaults log) default.name = some latest ∧
          (latest.source = .bootstrap → default.version ≤ latest.version) ∧
          ∀ held, latestRegistration log default.name = some held →
            held.source ≠ .bootstrap ∨ default.version ≤ held.version → latest = held := by
  have settled : ∀ default ∈ defaults.templates, ∃ latest,
      latestRegistration (log ++ reconcileTemplates defaults log) default.name = some latest ∧
        (latest.source = .bootstrap → default.version ≤ latest.version) ∧
        ∀ held, latestRegistration log default.name = some held →
          held.source ≠ .bootstrap ∨ default.version ≤ held.version → latest = held := by
    intro default member
    rw [latestRegistration_reconcile member]
    cases stood : latestRegistration log default.name with
    | none => exact ⟨default.registration .bootstrap, rfl, fun _ => le_rfl, nofun⟩
    | some held =>
      by_cases chosen : held.source = .bootstrap <;> by_cases newer : held.version < default.version
      · refine ⟨default.registration .bootstrap, ?_, fun _ => le_rfl, ?_⟩
        · simp [tracked, isAbsent, isCurated, defaultIsNewer, chosen, newer]
        · rintro _ ⟨⟩ (curated | within)
          · exact absurd chosen curated
          · exact absurd newer within.not_gt
      all_goals
        refine ⟨held, ?_, fun tracks => ?_, fun other same _ => Option.some.inj same⟩
        · simp [tracked, isAbsent, isCurated, defaultIsNewer, chosen, newer]
        · first
          | exact not_lt.mp newer
          | exact absurd tracks chosen
  refine ⟨List.filterMap_eq_nil_iff.mpr fun assessment assessed => ?_, settled⟩
  obtain ⟨default, member, rfl⟩ := List.mem_map.mp assessed
  obtain ⟨latest, held, within, _⟩ := settled default member
  rw [held]
  by_cases tracks : latest.source = .bootstrap
  · simp [tracked, isAbsent, isCurated, defaultIsNewer, tracks, within tracks]
  · simp [tracked, isAbsent, isCurated, tracks]

end Races

/-! ### An edit, and a build some versions on -/

namespace TwoBuilds

/-- A build with one default. -/
def only (version : Nat) (body : String) : Defaults :=
  ⟨[⟨.scaffold, version, body⟩], List.nodup_singleton _⟩

/-- The edit of an operator who has read the first version. -/
def edit (body : String) : Edit := ⟨.scaffold, body, some 1⟩

/-- An edit, a later build, and a forced upgrade. -/
def forced (later : Defaults) : List Act :=
  [.readLatest .scaffold "mine", .registerPrompt (edit "mine"), .boot later, .upgrade later true]

def raced : List Act :=
  [.readLatest .scaffold "mine", .readLatest .scaffold "yours", .registerPrompt (edit "mine"),
    .registerPrompt (edit "yours")]

/-- What an operator has registered. -/
def chosen (version : Nat) (body : String) : Registration := ⟨.scaffold, version, body, .operator⟩

def original : Registration := ⟨.scaffold, 1, "first", .bootstrap⟩

/-- The log after the forced upgrade. -/
def upgraded (body : String) : Prompts := ⟨[original, chosen 2 "mine", chosen 3 body], []⟩

def doubled : Prompts := ⟨[original, chosen 2 "mine", chosen 2 "yours"], []⟩

/-- A later build boots between the two edits. -/
theorem doubled_stays : ∃ later, latestRegistration doubled.log .scaffold = some later ∧
    later.source ≠ .bootstrap ∧ 2 ≤ later.version ∧
      ((∀ act ∈ [Act.boot (only 4 "fourth"), .registerPrompt (edit "yours")],
        ¬act.Chooses .scaffold) → later = chosen 2 "mine") := by
  have run : Trace Step ⟨[original, chosen 2 "mine"], [edit "yours"]⟩
      [.boot (only 4 "fourth"), .registerPrompt (edit "yours")] doubled :=
    .cons (.boot _ _) (.single (.registerPrompt (by decide)))
  have stands : latestRegistration [original, chosen 2 "mine"] .scaffold =
      some (chosen 2 "mine") := by decide
  exact curated_stays run stands (by decide)

end TwoBuilds

end Zuihitsu.Genesis
