/-
# Rolling out genesis

A rollout appends the templates, the seed vocabulary, the settings, the self with its entries,
and the completion, each unless it is there. What is there is recognized by the template, the
relation and the tag, and by the creation of the self. So a rollout that was cut off goes on to
what an uninterrupted one leaves, except where the cut falls between the creation of the self
and its last entry: the entries past the cut are never appended.
-/

import Mathlib.Data.List.Infix
import Mathlib.Data.List.Nodup
import Zuihitsu.Graph.Genesis

namespace Zuihitsu.Genesis

open Zuihitsu.Core Zuihitsu.Graph

/-! ### The build and the seed -/

/-- A default template of a build. -/
structure TemplateDef where
  name : PromptTemplateName
  version : Nat
  body : String
  deriving DecidableEq, Repr

/-- A build's default templates by its features, one for a name. -/
structure Build (φ : Type) where
  defaultTemplates : φ → List TemplateDef
  distinct : ∀ features, ((defaultTemplates features).map (·.name)).Nodup

/-- The seed identity an operator provides. -/
structure SeedSelf where
  agentName : String
  persona : String
  seedEntries : List String
  deriving DecidableEq, Repr

/-- What a log of genesis records. The kinds that the graph folds carry their payload. -/
inductive Payload (σ : Type) where
  | promptTemplateRegistered (name : PromptTemplateName) (version : Nat) (body : String)
  | configSet (settings : σ)
  | genesisCompleted (manifestHash : String) (templateVersions : List (PromptTemplateName × Nat))
  | recorded (payload : EventPayload)
  deriving DecidableEq

/-- What a rollout is called with. -/
structure Arguments (φ : Type) where
  seed : SeedSelf
  contextLength : Option Nat
  features : φ

/-- The ids a rollout generates, and the clock it reads. -/
structure Minted where
  selfId : MemoryId
  entryId : Nat → EntryId
  now : Timestamp

/-! ### The rollout -/

section Rollout

variable {φ σ : Type} (build : Build φ) (settingsFor : Option Nat → σ)
variable (manifestHash : SeedSelf → List TemplateDef → String)
variable (arguments : Arguments φ) (minted : Minted) (existing : List (Payload σ))

/-- The registration of a template. -/
def TemplateDef.registered (template : TemplateDef) : Payload σ :=
  .promptTemplateRegistered template.name template.version template.body

/-- A log has a template. -/
def hasTemplate (template : TemplateDef) : Payload σ → Bool
  | .promptTemplateRegistered name version _ => name = template.name && version = template.version
  | _ => false

/-- A log has a relation. -/
def hasRelation (row : RelationRow) : Payload σ → Bool
  | .recorded (.linkTypeRegistered name ..) => name = row.name
  | _ => false

/-- A log has a tag. -/
def hasTag (row : TagRow) : Payload σ → Bool
  | .recorded (.tagCreated name _) => name = row.name
  | _ => false

/-- A log has the settings. -/
def isConfigSet : Payload σ → Bool
  | .configSet _ => true
  | _ => false

/-- A log has the self. -/
def createsSelf : Payload σ → Bool
  | .recorded (.memoryCreated _ name) => name = .selfHandle
  | _ => false

/-- A log has the completion. -/
def isGenesisCompleted : Payload σ → Bool
  | .genesisCompleted .. => true
  | _ => false

/-- The creation of the self, and its entries: the persona and the seed entries. -/
def selfEvents : List (Payload σ) :=
  .recorded (.memoryCreated minted.selfId .selfHandle) ::
    (arguments.seed.persona :: arguments.seed.seedEntries).mapIdx fun place text =>
      .recorded (.memoryContentAppended minted.selfId (minted.entryId place) minted.now none text
        .bootstrap none .public)

/-- The completion of genesis, with what it was rolled out from. -/
def completion : Payload σ :=
  let templates := build.defaultTemplates arguments.features
  .genesisCompleted (manifestHash arguments.seed templates)
    (templates.map fun template => (template.name, template.version))

/-- What is appended to a log that genesis is not complete in. -/
def emitted : List (Payload σ) :=
  (((build.defaultTemplates arguments.features).filter fun template =>
      !existing.any (hasTemplate template)).map TemplateDef.registered) ++
    ((seedRelations.filter fun row => !existing.any (hasRelation row)).map fun row =>
      .recorded row.registration) ++
    ((seedTags.filter fun row => !existing.any (hasTag row)).map fun row =>
      .recorded (.tagCreated row.name row.description)) ++
    (if existing.any isConfigSet then [] else [.configSet (settingsFor arguments.contextLength)]) ++
    (if existing.any createsSelf then [] else selfEvents arguments minted) ++
    [completion build manifestHash arguments]

/-- Roll out genesis onto a log; `none` where it is complete. -/
def rollout : Option (List (Payload σ)) :=
  if existing.any isGenesisCompleted then none
  else some (emitted build settingsFor manifestHash arguments minted existing)

/-- What an uninterrupted rollout emits. -/
def whole : List (Payload σ) := emitted build settingsFor manifestHash arguments minted []

/-- What it emits before the self. -/
def groundwork : List (Payload σ) :=
  (build.defaultTemplates arguments.features).map TemplateDef.registered ++
    (seedRelations.map fun row => .recorded row.registration) ++
    (seedTags.map fun row => .recorded (.tagCreated row.name row.description)) ++
    [.configSet (settingsFor arguments.contextLength)]

end Rollout

/-! ### What is missing of a list -/

theorem any_take_eq_false {α : Type} {test : α → Bool} {items : List α}
    (apart : ∀ item ∈ items, test item = false) (count : Nat) :
    (items.take count).any test = false :=
  List.any_eq_false.mpr fun item member => by simp [apart item (List.mem_of_mem_take member)]

/-- Of items with distinct keys, of which the first ones left their marks, the rest is missing. -/
theorem filter_unmarked {α β κ : Type} [DecidableEq κ] {key : α → κ} {mark : α → β}
    {marks : α → β → Bool}
    (recognizes : ∀ item other, marks item (mark other) = decide (key other = key item))
    {items : List α} (distinct : (items.map key).Nodup) (count : Nat) :
    items.filter (fun item => !((items.map mark).take count).any (marks item)) = items.drop count := by
  induction items generalizing count with
  | nil => simp
  | cons head tail ih =>
    rw [List.map_cons, List.nodup_cons] at distinct
    cases count with
    | zero => simp
    | succ count =>
      have dropped : (!(((head :: tail).map mark).take (count + 1)).any (marks head)) = false := by
        simp [recognizes]
      rw [List.filter_cons_of_neg (by rw [dropped]; exact Bool.false_ne_true), List.drop_succ_cons,
        ← ih distinct.2 count]
      refine List.filter_congr fun item member => ?_
      have other : key head ≠ key item := fun same =>
        distinct.1 (same ▸ List.mem_map_of_mem member)
      simp [recognizes, other]

/-! ### Resuming -/

section Resuming

variable {φ σ : Type} {build : Build φ} {settingsFor : Option Nat → σ}
variable {manifestHash : SeedSelf → List TemplateDef → String} {arguments : Arguments φ}

theorem seedRelations_distinct : (seedRelations.map (·.name)).Nodup := by decide

theorem seedTags_distinct : (seedTags.map (·.name)).Nodup := by decide

/-- The self's events are its creation and what it is told. -/
theorem selfEvents_cases {minted : Minted} {payload : Payload σ}
    (member : payload ∈ selfEvents arguments minted) :
    payload = .recorded (.memoryCreated minted.selfId .selfHandle) ∨ ∃ entry text,
      payload = .recorded (.memoryContentAppended minted.selfId entry minted.now none text
        .bootstrap none .public) := by
  rcases List.mem_cons.mp member with rfl | told
  · exact .inl rfl
  · obtain ⟨place, within, rfl⟩ := List.mem_mapIdx.mp told
    exact .inr ⟨_, _, rfl⟩

/-- The self's events leave the mark of nothing else. -/
theorem selfEvents_apart {minted : Minted} (test : Payload σ → Bool)
    (created : ∀ id, test (.recorded (.memoryCreated id .selfHandle)) = false)
    (told : ∀ id entry now text, test (.recorded (.memoryContentAppended id entry now none text
      .bootstrap none .public)) = false) :
    ∀ payload ∈ selfEvents arguments minted, test payload = false := by
  intro payload member
  rcases selfEvents_cases member with rfl | ⟨entry, text, rfl⟩
  · exact created _
  · exact told _ _ _ _

theorem any_createsSelf_take {minted : Minted} (count : Nat) :
    ((@selfEvents _ σ arguments minted).take count).any createsSelf = decide (0 < count) := by
  cases count with
  | zero => simp
  | succ => simp [selfEvents, createsSelf]

/-- A list of one kind has none of another. -/
theorem any_mapped_eq_false {α : Type} {mark : α → Payload σ} {test : Payload σ → Bool}
    {items : List α} (apart : ∀ item, test (mark item) = false) (count : Nat) :
    ((items.map mark).take count).any test = false :=
  any_take_eq_false (fun payload member => by
    obtain ⟨item, _, rfl⟩ := List.mem_map.mp member
    exact apart item) count

/-- Where the first ones of each kind are recognized, the rest is emitted. -/
theorem emitted_of_recognized {again : Minted} {existing : List (Payload σ)}
    {templates relations tags settings entries : Nat}
    (ofTemplates : ∀ template, existing.any (hasTemplate template) =
      (((build.defaultTemplates arguments.features).map TemplateDef.registered).take templates).any
        (@hasTemplate σ template))
    (ofRelations : ∀ row, existing.any (hasRelation row) =
      ((seedRelations.map fun row => @Payload.recorded σ row.registration).take relations).any
        (hasRelation row))
    (ofTags : ∀ row, existing.any (hasTag row) =
      ((seedTags.map fun row =>
        @Payload.recorded σ (.tagCreated row.name row.description)).take tags).any (hasTag row))
    (ofSettings : existing.any isConfigSet = decide (0 < settings))
    (ofSelf : existing.any createsSelf = decide (0 < entries)) :
    emitted build settingsFor manifestHash arguments again existing =
      ((build.defaultTemplates arguments.features).map TemplateDef.registered).drop templates ++
        (seedRelations.map fun row => .recorded row.registration).drop relations ++
        (seedTags.map fun row => .recorded (.tagCreated row.name row.description)).drop tags ++
        [.configSet (settingsFor arguments.contextLength)].drop settings ++
        (if 0 < entries then [] else selfEvents arguments again) ++
        [completion build manifestHash arguments] := by
  have distinct : ((build.defaultTemplates arguments.features).map
      fun template => (template.name, template.version)).Nodup :=
    .of_map Prod.fst (by
      rw [List.map_map]
      exact build.distinct arguments.features)
  have missingTemplates := @filter_unmarked _ (Payload σ) _ _ _ TemplateDef.registered hasTemplate
    (fun item other => by
      simp [hasTemplate, TemplateDef.registered, Prod.ext_iff, Bool.decide_and]) _ distinct templates
  have missingRelations := @filter_unmarked _ (Payload σ) _ _ _ (fun row => .recorded row.registration)
    hasRelation (fun item other => rfl) _ seedRelations_distinct relations
  have missingTags := @filter_unmarked _ (Payload σ) _ _ _
    (fun row => .recorded (.tagCreated row.name row.description)) hasTag (fun item other => rfl) _
    seedTags_distinct tags
  simp only [emitted, ofTemplates, ofRelations, ofTags, ofSettings, ofSelf, missingTemplates,
    missingRelations, missingTags, List.map_drop, decide_eq_true_eq]
  cases settings <;> simp

/-- Each kind is recognized among the first ones of all kinds. -/
theorem emitted_parts (minted again : Minted) (templates relations tags settings entries : Nat) :
    emitted build settingsFor manifestHash arguments again
        (((build.defaultTemplates arguments.features).map TemplateDef.registered).take templates ++
          (seedRelations.map fun row => .recorded row.registration).take relations ++
          (seedTags.map fun row => .recorded (.tagCreated row.name row.description)).take tags ++
          [.configSet (settingsFor arguments.contextLength)].take settings ++
          (selfEvents arguments minted).take entries) =
      ((build.defaultTemplates arguments.features).map TemplateDef.registered).drop templates ++
        (seedRelations.map fun row => .recorded row.registration).drop relations ++
        (seedTags.map fun row => .recorded (.tagCreated row.name row.description)).drop tags ++
        [.configSet (settingsFor arguments.contextLength)].drop settings ++
        (if 0 < entries then [] else selfEvents arguments again) ++
        [completion build manifestHash arguments] := by
  have setting : ∀ test : Payload σ → Bool,
      test (.configSet (settingsFor arguments.contextLength)) = false →
        ([.configSet (settingsFor arguments.contextLength)].take settings).any test = false :=
    fun test apart => any_take_eq_false (fun payload member => by
      rw [List.mem_singleton.mp member, apart]) settings
  have self : ∀ test : Payload σ → Bool,
      (∀ id, test (.recorded (.memoryCreated id .selfHandle)) = false) →
        (∀ id entry now text, test (.recorded (.memoryContentAppended id entry now none text
          .bootstrap none .public)) = false) →
          ((selfEvents arguments minted).take entries).any test = false :=
    fun test created told => any_take_eq_false (selfEvents_apart test created told) entries
  refine emitted_of_recognized (fun template => ?_) (fun row => ?_) (fun row => ?_) ?_ ?_
  · rw [List.any_append, List.any_append, List.any_append, List.any_append,
      any_mapped_eq_false (fun _ => rfl) relations, any_mapped_eq_false (fun _ => rfl) tags,
      setting _ rfl, self _ (fun _ => rfl) (fun _ _ _ _ => rfl)]
    simp only [Bool.or_false]
  · rw [List.any_append, List.any_append, List.any_append, List.any_append,
      any_mapped_eq_false (fun _ => rfl) templates, any_mapped_eq_false (fun _ => rfl) tags,
      setting _ rfl, self _ (fun _ => rfl) (fun _ _ _ _ => rfl)]
    simp only [Bool.or_false, Bool.false_or]
  · rw [List.any_append, List.any_append, List.any_append, List.any_append,
      any_mapped_eq_false (fun _ => rfl) templates, any_mapped_eq_false (fun _ => rfl) relations,
      setting _ rfl, self _ (fun _ => rfl) (fun _ _ _ _ => rfl)]
    simp only [Bool.or_false, Bool.false_or]
  · rw [List.any_append, List.any_append, List.any_append, List.any_append,
      any_mapped_eq_false (fun _ => rfl) templates, any_mapped_eq_false (fun _ => rfl) relations,
      any_mapped_eq_false (fun _ => rfl) tags, self _ (fun _ => rfl) (fun _ _ _ _ => rfl)]
    cases settings <;> rfl
  · rw [List.any_append, List.any_append, List.any_append, List.any_append,
      any_mapped_eq_false (fun _ => rfl) templates, any_mapped_eq_false (fun _ => rfl) relations,
      any_mapped_eq_false (fun _ => rfl) tags, setting _ rfl, any_createsSelf_take]
    rfl

/-- The first ones of the groundwork, and then of self's events, are recognized. -/
theorem emitted_take (minted again : Minted) (cut : Nat) :
    emitted build settingsFor manifestHash arguments again
        ((groundwork build settingsFor arguments ++ selfEvents arguments minted).take cut) =
      (groundwork build settingsFor arguments).drop cut ++
        (if (groundwork build settingsFor arguments).length < cut then []
          else selfEvents arguments again) ++
        [completion build manifestHash arguments] := by
  rw [groundwork]
  simp only [List.take_append, List.drop_append]
  rw [emitted_parts]
  simp only [Nat.sub_pos_iff_lt]

/-- An uninterrupted rollout emits the groundwork, self's events and the completion. -/
theorem whole_eq (minted : Minted) :
    whole build settingsFor manifestHash arguments minted =
      groundwork build settingsFor arguments ++ selfEvents arguments minted ++
        [completion build manifestHash arguments] :=
  emitted_take minted minted 0

theorem length_whole (minted : Minted) :
    (whole build settingsFor manifestHash arguments minted).length =
      (groundwork build settingsFor arguments).length + arguments.seed.seedEntries.length + 3 := by
  simp [whole_eq, selfEvents]
  omega

/-- A beginning that falls short of the whole falls short of the completion. -/
theorem take_whole {minted : Minted} {cut : Nat}
    (proper : cut < (whole build settingsFor manifestHash arguments minted).length) :
    (whole build settingsFor manifestHash arguments minted).take cut =
      (groundwork build settingsFor arguments ++ selfEvents arguments minted).take cut := by
  rw [whole_eq] at proper ⊢
  refine List.take_append_of_le_length ?_
  rw [List.length_append, List.length_singleton] at proper
  exact Nat.lt_succ_iff.mp proper

theorem incomplete_take (minted : Minted) (cut : Nat) :
    ((groundwork build settingsFor arguments ++ selfEvents arguments minted).take cut).any
      isGenesisCompleted = false := by
  refine any_take_eq_false (fun payload member => ?_) cut
  simp only [groundwork, List.mem_append, List.mem_map, List.mem_singleton] at member
  rcases member with (((⟨_, _, rfl⟩ | ⟨_, _, rfl⟩) | ⟨_, _, rfl⟩) | rfl) | told
  · rfl
  · rfl
  · rfl
  · rfl
  · exact selfEvents_apart _ (fun _ => rfl) (fun _ _ _ _ => rfl) payload told

/-- What a rollout appends to a beginning that falls short of the whole. -/
theorem rollout_take {minted : Minted} (again : Minted) {cut : Nat}
    (proper : cut < (whole build settingsFor manifestHash arguments minted).length) :
    rollout build settingsFor manifestHash arguments again
        ((whole build settingsFor manifestHash arguments minted).take cut) =
      some ((groundwork build settingsFor arguments).drop cut ++
        (if (groundwork build settingsFor arguments).length < cut then []
          else selfEvents arguments again) ++
        [completion build manifestHash arguments]) := by
  rw [rollout, take_whole proper, incomplete_take, emitted_take]
  rfl

theorem rollout_completed (again : Minted) (existing : List (Payload σ)) :
    rollout build settingsFor manifestHash arguments again
      (existing ++ [completion build manifestHash arguments]) = none := by
  simp [rollout, completion, isGenesisCompleted]

/-- A cut before self leaves what a rollout with the later ids emits. -/
theorem resumed_before_self {minted again : Minted} {cut : Nat}
    (before : cut ≤ (groundwork build settingsFor arguments).length) :
    (groundwork build settingsFor arguments ++ selfEvents arguments minted).take cut ++
        ((groundwork build settingsFor arguments).drop cut ++
          (if (groundwork build settingsFor arguments).length < cut then []
            else selfEvents arguments again) ++
          [completion build manifestHash arguments]) =
      whole build settingsFor manifestHash arguments again := by
  rw [if_neg (by omega), List.take_append_of_le_length before, whole_eq, ← List.append_assoc,
    ← List.append_assoc, List.take_append_drop]

/-- A cut past the creation of self leaves nothing to append but the completion. -/
theorem resumed_after_self {again : Minted} {cut : Nat}
    (after : (groundwork build settingsFor arguments).length < cut) :
    (groundwork build settingsFor arguments).drop cut ++
        (if (groundwork build settingsFor arguments).length < cut then []
          else selfEvents arguments again) ++
        [completion build manifestHash arguments] =
      [completion build manifestHash arguments] := by
  rw [if_pos after, List.drop_of_length_le after.le]
  rfl

/-- Rolling out genesis again, after it was cut off, leaves what an uninterrupted rollout
leaves, where the cut is not between the creation of the self and its last entry. -/
theorem interrupted_resumes_iff (minted again : Minted) {cut : Nat}
    (proper : cut < (whole build settingsFor manifestHash arguments minted).length) :
    (∃ appended,
        rollout build settingsFor manifestHash arguments again
          ((whole build settingsFor manifestHash arguments minted).take cut) = some appended ∧
        (∃ ids, ((whole build settingsFor manifestHash arguments minted).take cut ++
          appended).Perm (whole build settingsFor manifestHash arguments ids)) ∧
        ((whole build settingsFor manifestHash arguments minted).take cut ++
          appended).getLast? = some (completion build manifestHash arguments) ∧
        ∀ later, rollout build settingsFor manifestHash arguments later
          ((whole build settingsFor manifestHash arguments minted).take cut ++ appended) = none) ↔
      cut ≤ (groundwork build settingsFor arguments).length ∨
        cut + 1 = (whole build settingsFor manifestHash arguments minted).length := by
  rw [rollout_take again proper]
  constructor
  · rintro ⟨_, ⟨⟩, ⟨ids, same⟩, _⟩
    refine or_iff_not_imp_left.mpr fun past => ?_
    have unchanged : (whole build settingsFor manifestHash arguments ids).length =
        (whole build settingsFor manifestHash arguments minted).length := by
      rw [length_whole, length_whole]
    have lengths := same.length_eq
    rw [resumed_after_self (by omega), List.length_append, List.length_take, unchanged,
      List.length_singleton] at lengths
    omega
  · intro allowed
    refine ⟨_, rfl, ?_, ?_, fun later => ?_⟩
    · rcases le_or_gt cut (groundwork build settingsFor arguments).length with before | after
      · refine ⟨again, ?_⟩
        rw [take_whole proper, resumed_before_self before]
      · refine ⟨minted, ?_⟩
        have last : cut = (groundwork build settingsFor arguments ++
            selfEvents arguments minted).length := by
          have total : (whole build settingsFor manifestHash arguments minted).length =
              (groundwork build settingsFor arguments ++ selfEvents arguments minted).length + 1 := by
            rw [whole_eq, List.length_append, List.length_singleton]
          omega
        rw [resumed_after_self after, take_whole proper, whole_eq, last, List.take_length]
    · rw [← List.append_assoc, List.getLast?_concat]
    · rw [← List.append_assoc]
      exact rollout_completed later _

end Resuming

/-! ### A cut past the creation of the self -/

namespace TornSelf

/-- The shipped templates, by the bodies that the features choose. -/
def shipped : Build (PromptTemplateName → String) where
  defaultTemplates body :=
    [⟨.scaffold, 32, body .scaffold⟩, ⟨.descriptionRegen, 2, body .descriptionRegen⟩,
      ⟨.temporalExtraction, 10, body .temporalExtraction⟩, ⟨.flush, 5, body .flush⟩,
      ⟨.imprint, 3, body .imprint⟩, ⟨.linkInference, 5, body .linkInference⟩,
      ⟨.entryConsolidation, 4, body .entryConsolidation⟩,
      ⟨.nameIdentification, 2, body .nameIdentification⟩, ⟨.linkCleanup, 1, body .linkCleanup⟩]
  distinct _ := by
    simp only [List.map_cons, List.map_nil]
    decide

/-- A seed with a persona and one entry. -/
def arguments : Arguments (PromptTemplateName → String) :=
  ⟨⟨"Zui", "A plain-spoken companion.", ["Keeps an open notebook."]⟩, some 200000,
    fun _ => "You are an agent."⟩

/-- The hash names the agent. -/
def named : SeedSelf → List TemplateDef → String := fun seed _ => seed.agentName

def first : Minted := ⟨⟨1⟩, fun place => ⟨place⟩, ⟨500⟩⟩

def second : Minted := ⟨⟨2⟩, fun place => ⟨place + 10⟩, ⟨900⟩⟩

def torn : List (Payload (Option Nat)) := (whole shipped id named arguments first).take 20

/-- The second rollout completes genesis with neither the persona nor the seed entry. -/
theorem persona_lost :
    20 < (whole shipped id named arguments first).length ∧
      rollout shipped id named arguments second torn = some [completion shipped named arguments] ∧
      ¬∃ ids, (torn ++ [completion shipped named arguments]).Perm
        (whole shipped id named arguments ids) := by
  have proper : 20 < (whole shipped id named arguments first).length := by decide
  have past : (groundwork shipped id arguments).length < 20 := by decide
  refine ⟨proper, ?_, ?_⟩
  · rw [torn, rollout_take second proper, resumed_after_self past]
  · rintro ⟨ids, same⟩
    have lengths := same.length_eq
    rw [length_whole] at lengths
    revert lengths
    decide

/-- A cut between the versions of the templates resumes. -/
theorem templates_resumed :
    ∃ appended, rollout shipped id named arguments second
        ((whole shipped id named arguments first).take 3) = some appended ∧
      (∃ ids, ((whole shipped id named arguments first).take 3 ++ appended).Perm
        (whole shipped id named arguments ids)) ∧
      ((whole shipped id named arguments first).take 3 ++ appended).getLast? =
        some (completion shipped named arguments) ∧
      ∀ later, rollout shipped id named arguments later
        ((whole shipped id named arguments first).take 3 ++ appended) = none :=
  (interrupted_resumes_iff first second (by decide)).mpr (.inl (by decide))

end TornSelf

end Zuihitsu.Genesis
