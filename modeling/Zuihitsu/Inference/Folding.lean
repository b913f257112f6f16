/-
# Passes that do not fold

A proposed relation is usable for the sentences of its reply before it is decided
whether its registration is emitted. A sentence that rests on a proposal whose
registration is dropped links under a name no relation has, and the graph refuses the
event. Nothing else of a pass is ever refused.
-/

import Zuihitsu.Inference.Vocabulary

namespace Zuihitsu.Inference

open Zuihitsu.Core Zuihitsu.Graph Zuihitsu.Library

/-! ### Dropped proposals -/

/-- The name a proposal makes usable. -/
def NewRelationSpec.label (spec : NewRelationSpec) : String := asciiLowercase spec.name

/-- A proposal that is not registered although it is new: it is of the identity relation, or a
cardinality of it does not parse. -/
def NewRelationSpec.Dropped (spec : NewRelationSpec) : Prop :=
  spec.label = RelationName.sameAs.text ∨ Cardinality.parse spec.fromCard = none ∨
    Cardinality.parse spec.toCard = none

instance (spec : NewRelationSpec) : Decidable spec.Dropped :=
  inferInstanceAs (Decidable (_ = _ ∨ _ = none ∨ _ = none))

/-- The relations a reply proposes. -/
def Reading.proposals (reading : Reading) : List NewRelationSpec :=
  match reading.reply with
  | .args args => args.newRelations
  | _ => []

/-- The registry a reading's sentences meet, the readings before it folded. -/
def registryAt (graph : Graph) (earlier : List Reading) (reading : Reading) :
    Table RelationRow.name :=
  reading.registers (registryWith graph.relations earlier)

/-- A taken sentence is linked under a name that only dropped proposals of its reply bring up:
the graph, the earlier replies and the reply's other proposals have no relation that carries it. -/
structure RestsOnDropped (graph : Graph) (earlier : List Reading) (reading : Reading)
    (draft : LinkDraft) : Prop where
  proposed : ∃ spec ∈ reading.proposals, spec.label = draft.relation.text
  dropped : ∀ spec ∈ reading.proposals, spec.label = draft.relation.text → spec.Dropped
  uncarried : ∀ row ∈ (registryAt graph earlier reading).rows,
    row.name ≠ draft.relation ∧ row.inverse ≠ draft.relation

/-- Some events fold in order, and each link among them is stored under a relation that is
registered when it folds. -/
structure FoldsWhole (graph : Graph) (recordedAt : Timestamp) (payloads : List EventPayload) :
    Prop where
  folds : ∃ after, commit recordedAt .orchestration payloads graph = .ok after
  registered : ∀ earlier payload later label middle, payloads = earlier ++ payload :: later →
    linkLabel payload = some label →
    commit recordedAt .orchestration earlier graph = .ok middle →
      middle.relations.contains (canonicalLabel middle.relations label) = true

section Folding

variable {start graph before after : Graph} {readings earlier later : List Reading}
variable {reading : Reading} {draft : LinkDraft} {relations : Table RelationRow.name}
variable {name : RelationName} {context : InferenceContext} {recordedAt : Timestamp}
variable {payloads : List EventPayload}

/-! ### What is registered stays registered -/

theorem Evolves.registered (evolves : Evolves before after)
    (there : before.relations.contains name = true) : after.relations.contains name = true := by
  obtain ⟨events, folds⟩ := evolves
  exact folds.invariant (fun graph => graph.relations.contains name = true)
    (fun _ _ _ step there => contains_relation_apply there step.2) there

theorem Observes.registered (observes : Observes start readings graph)
    (there : start.relations.contains name = true) : graph.relations.contains name = true := by
  induction observes with
  | done last => exact last.registered there
  | reads first asked _ ih => exact ih (asked.registered (first.registered there))

theorem Observes.registered_of_seen (observes : Observes start readings graph)
    (member : reading ∈ readings) (there : reading.seen.relations.contains name = true) :
    graph.relations.contains name = true := by
  induction observes with
  | done => cases member
  | reads first asked rest ih =>
    rcases List.mem_cons.mp member with rfl | behind
    · exact rest.registered (asked.registered there)
    · exact ih behind

theorem resolvesLabel_of_contains (there : relations.contains name = true) :
    resolvesLabel relations name = true := by
  obtain ⟨row, member, named⟩ := Table.contains_iff.mp there
  refine List.any_eq_true.mpr ⟨row, member, ?_⟩
  simp [RelationRow.carries, named]

theorem contains_registryAt (observes : Observes start readings graph) (member : reading ∈ readings)
    (there : reading.seen.relations.contains name = true) :
    (registryAt graph earlier reading).contains name = true :=
  registers_contains (registryWith_contains (observes.registered_of_seen member there))

/-! ### What a taken sentence is linked under -/

/-- Make a proposal usable, unless its name is already. -/
def addUsable (usable : List (String × String)) (spec : NewRelationSpec) : List (String × String) :=
  if usable.any (·.1 = spec.label) then usable
  else usable ++ [(spec.label, asciiLowercase spec.inverse)]

theorem mem_addUsable {usable : List (String × String)} {spec : NewRelationSpec}
    {labels : String × String} (member : labels ∈ addUsable usable spec) :
    labels ∈ usable ∨ spec.label = labels.1 := by
  unfold addUsable at member
  split at member
  · exact .inl member
  · rcases List.mem_append.mp member with old | new
    · exact .inl old
    · obtain rfl := List.mem_singleton.mp new
      exact .inr rfl

theorem mem_foldl_addUsable {specs : List NewRelationSpec} {usable : List (String × String)}
    {labels : String × String} (member : labels ∈ specs.foldl addUsable usable) :
    labels ∈ usable ∨ ∃ spec ∈ specs, spec.label = labels.1 := by
  induction specs generalizing usable with
  | nil => exact .inl member
  | cons spec rest ih =>
    rcases ih member with here | ⟨other, behind, same⟩
    · rcases mem_addUsable here with old | same
      · exact .inl old
      · exact .inr ⟨spec, List.mem_cons_self, same⟩
    · exact .inr ⟨other, List.mem_cons_of_mem _ behind, same⟩

theorem mem_usableRelations {specs : List NewRelationSpec} {labels : String × String}
    (member : labels ∈ usableRelations context specs) :
    (∃ row ∈ context.relations, row.name.text = labels.1) ∨ ∃ spec ∈ specs, spec.label = labels.1 := by
  refine (mem_foldl_addUsable member).imp_left fun listed => ?_
  obtain ⟨row, rowMem, rfl⟩ := List.mem_map.mp listed
  exact ⟨row, rowMem, rfl⟩

theorem mem_of_usableLabel {usable : List (String × String)} {label canonical : String}
    {viaInverse : Bool} (found : usableLabel usable label = some (canonical, viaInverse)) :
    ∃ labels ∈ usable, labels.1 = canonical := by
  obtain ⟨⟨name, inverse⟩, listed, read⟩ := List.exists_of_findSome?_eq_some found
  refine ⟨(name, inverse), listed, ?_⟩
  dsimp only at read ⊢
  by_cases forth : label = name
  · rw [if_pos forth] at read
    cases read
    rfl
  · rw [if_neg forth] at read
    split at read
    · cases read
      rfl
    · cases read

theorem relations_of_context (taken : contextOf graph reading.id = some context) :
    context.relations = allRelations graph := by
  obtain ⟨memory, _, made⟩ := Option.bind_eq_some_iff.mp taken
  dsimp only at made
  split at made
  · cases made
  · cases made
    rfl

theorem contains_of_listed {row : RelationRow} (member : row ∈ allRelations graph) :
    graph.relations.contains row.name = true :=
  Table.contains_of_mem ((List.mem_insertionSort _).mp member)

theorem relation_of_draft (member : draft ∈ reading.drafts) :
    reading.seen.relations.contains draft.relation = true ∨
      ∃ spec ∈ reading.proposals, spec.label = draft.relation.text := by
  obtain ⟨context, args, seen, reply, link, _, taken⟩ := mem_drafts member
  obtain ⟨_, canonical, viaInverse, _, _, usable, _, _, rfl⟩ := draftLink_eq_some taken
  obtain ⟨labels, listed, named⟩ := mem_of_usableLabel usable
  rcases mem_usableRelations listed with ⟨row, rowMem, same⟩ | proposed
  · rw [relations_of_context seen] at rowMem
    have there := contains_of_listed rowMem
    have whole : row.name = ⟨canonical⟩ := congrArg RelationName.mk (same.trans named)
    rw [whole] at there
    exact .inl there
  · rw [named] at proposed
    refine .inr ?_
    rw [Reading.proposals, reply]
    exact proposed

theorem contains_of_kept (observes : Observes start readings graph) (member : reading ∈ readings)
    {spec : NewRelationSpec} (proposed : spec ∈ reading.proposals) (kept : ¬spec.Dropped)
    (seen : contextOf reading.seen reading.id = some context) :
    (registryAt graph earlier reading).contains ⟨spec.label⟩ = true := by
  by_cases listed : context.relations.any (·.name.text = spec.label) = true
  · obtain ⟨row, rowMem, same⟩ := List.any_eq_true.mp listed
    rw [relations_of_context seen] at rowMem
    have whole : row.name = ⟨spec.label⟩ := congrArg RelationName.mk (of_decide_eq_true same)
    exact contains_registryAt observes member (whole ▸ contains_of_listed rowMem)
  · unfold NewRelationSpec.Dropped at kept
    rw [not_or, not_or] at kept
    obtain ⟨proposable, fromParses, toParses⟩ := kept
    obtain ⟨fromCard, fromRead⟩ := Option.ne_none_iff_exists'.mp fromParses
    obtain ⟨toCard, toRead⟩ := Option.ne_none_iff_exists'.mp toParses
    have registers : registration context spec = some (.linkTypeRegistered ⟨spec.label⟩
        ⟨asciiLowercase spec.inverse⟩ fromCard toCard spec.symmetric spec.reflexive
        spec.description) := by
      unfold NewRelationSpec.label at proposable listed ⊢
      simp only [registration, if_neg proposable, if_neg listed, fromRead, toRead, Option.bind_some,
        Option.map_some]
    have emitted : EventPayload.linkTypeRegistered ⟨spec.label⟩ ⟨asciiLowercase spec.inverse⟩
        fromCard toCard spec.symmetric spec.reflexive spec.description ∈ reading.registrations := by
      cases reply : reading.reply with
      | args =>
        rw [Reading.proposals, reply] at proposed
        rw [Reading.registrations, seen, reply]
        exact List.mem_filterMap.mpr ⟨spec, proposed, registers⟩
      | failed | unusable =>
        rw [Reading.proposals, reply] at proposed
        cases proposed
    obtain ⟨ahead, behind, whole⟩ := List.append_of_mem emitted
    -- the registrations behind it overwrite a relation in place and take none away
    have stays : ∀ (payloads : List EventPayload) (relations : Table RelationRow.name),
        relations.contains ⟨spec.label⟩ = true →
          (payloads.foldl registryAfter relations).contains ⟨spec.label⟩ = true := by
      intro payloads
      induction payloads with
      | nil => exact fun _ there => there
      | cons payload rest ih =>
        intro relations there
        refine ih _ ?_
        unfold Graph.registryAfter
        split
        · exact Table.contains_upsert_of_contains there
        · exact there
    rw [registryAt, Reading.registers, whole, List.foldl_append, List.foldl_cons]
    refine stays _ _ ?_
    rw [Graph.registryAfter]
    exact Table.contains_upsert

theorem known_iff (observes : Observes start readings graph) (member : reading ∈ readings)
    (drafted : draft ∈ reading.drafts) :
    Filed.known ⟨registryAt graph earlier reading, draft⟩ = true ↔
      ¬RestsOnDropped graph earlier reading draft := by
  constructor
  · intro known rests
    obtain ⟨row, rowMem, carries⟩ := List.any_eq_true.mp known
    obtain ⟨name, inverse⟩ := rests.uncarried row rowMem
    simp [RelationRow.carries, name, inverse] at carries
  · intro backed
    by_contra unknown
    have absent : (registryAt graph earlier reading).contains draft.relation ≠ true :=
      fun there => unknown (resolvesLabel_of_contains there)
    refine backed ⟨?_, ?_, ?_⟩
    · rcases relation_of_draft drafted with snapshot | proposed
      · exact absurd (contains_registryAt observes member snapshot) absent
      · exact proposed
    · intro spec proposed same
      by_contra kept
      obtain ⟨context, _, seen, _⟩ := mem_drafts drafted
      have there := @contains_of_kept _ _ _ earlier _ _ observes member _ proposed kept seen
      rw [same] at there
      exact absent there
    · intro row rowMem
      have free := List.any_eq_false.mp (Bool.not_eq_true _ ▸ unknown) row rowMem
      simpa [RelationRow.carries] using free

/-! ### Folding whole -/

theorem mem_filedUnder_iff {filed : Filed} :
    filed ∈ filedUnder relations readings ↔
      ∃ earlier reading later, readings = earlier ++ reading :: later ∧
        ∃ draft ∈ reading.drafts,
          filed = ⟨reading.registers (registryWith relations earlier), draft⟩ := by
  induction readings generalizing relations with
  | nil => simp [filedUnder]
  | cons first rest ih =>
    rw [filedUnder, List.mem_append, ih]
    constructor
    · rintro (here | ⟨earlier, reading, later, rfl, taken⟩)
      · obtain ⟨draft, drafted, rfl⟩ := List.mem_map.mp here
        exact ⟨[], first, rest, rfl, draft, drafted, rfl⟩
      · exact ⟨first :: earlier, reading, later, rfl, taken⟩
    · rintro ⟨earlier, reading, later, split, draft, drafted, rfl⟩
      cases earlier with
      | nil =>
        obtain ⟨rfl, rfl⟩ := List.cons.inj split
        exact .inl (List.mem_map_of_mem drafted)
      | cons head tail =>
        obtain ⟨rfl, rfl⟩ := List.cons.inj split
        exact .inr ⟨tail, reading, later, rfl, draft, drafted, rfl⟩

theorem foldsWhole_iff (reachable : Reachable graph)
    (ofPass : ∀ payload ∈ payloads, OfPass graph payload) :
    FoldsWhole graph recordedAt payloads ↔
      ∃ after, commit recordedAt .orchestration payloads graph = .ok after := by
  refine ⟨FoldsWhole.folds, fun folds => ⟨folds, ?_⟩⟩
  rintro earlier payload later label middle rfl links committed
  have carried := (commit_iff_carried reachable ofPass).mp folds
  rw [relations_commit committed]
  refine contains_canonicalLabel ?_
  generalize graph.relations = relations at carried ⊢
  clear folds ofPass committed
  induction earlier generalizing relations with
  | nil => exact carried.1 label links
  | cons first rest ih => exact ih _ carried.2

end Folding

/-- What a pass appends folds whole exactly when no sentence it takes rests on a dropped
proposal, whatever it read and whoever else wrote meanwhile. -/
theorem inference_folds_iff {start graph : Graph} {readings : List Reading}
    (reachable : Reachable start) (observes : Observes start readings graph)
    (recordedAt : Timestamp) :
    FoldsWhole graph recordedAt (inferLinks readings) ↔
      ∀ earlier reading later, readings = earlier ++ reading :: later →
        ∀ draft ∈ reading.drafts, ¬RestsOnDropped graph earlier reading draft := by
  have ofPass := ofPass_inferLinks observes
  have there := observes.reachable reachable
  rw [foldsWhole_iff there ofPass, commit_iff_carried there ofPass, carried_inferLinks]
  constructor
  · rintro known earlier reading later rfl draft drafted
    refine (known_iff observes (List.mem_append_right _ List.mem_cons_self) drafted).mp ?_
    exact known _ (mem_filedUnder_iff.mpr ⟨earlier, reading, later, rfl, draft, drafted, rfl⟩)
  · intro backed filed member
    obtain ⟨earlier, reading, later, rfl, draft, drafted, rfl⟩ := mem_filedUnder_iff.mp member
    refine (known_iff observes (List.mem_append_right _ List.mem_cons_self) drafted).mpr ?_
    exact backed earlier reading later rfl draft drafted

/-! A reply about Dave coins a relation, and says who mentors him by it. -/

namespace Unregistered

/-- A reply that coins a relation with a cardinality and uses it. -/
def coining (cardinality : String) : List Reading :=
  still Mentors.told (Mentors.coining cardinality)

/-- A cardinality of several is none, and what the pass appends does not fold. -/
theorem coined_unfoldable :
    Reachable Mentors.told ∧ Observes Mentors.told (coining "several") Mentors.told ∧
      ¬FoldsWhole Mentors.told ⟨1⟩ (inferLinks (coining "several")) := by
  refine ⟨Mentors.told_reachable, still_observes, fun whole => ?_⟩
  obtain ⟨after, committed⟩ := whole.folds
  have refused : (commit ⟨1⟩ .orchestration (inferLinks (coining "several"))
      Mentors.told).toOption = none := rfl
  rw [committed] at refused
  cases refused

/-- With a cardinality that parses it folds. -/
theorem coined_folds : FoldsWhole Mentors.told ⟨1⟩ (inferLinks (coining "many")) := by
  refine (inference_folds_iff Mentors.told_reachable still_observes ⟨1⟩).mpr ?_
  intro earlier reading later split draft drafted rests
  have one : earlier = [] ∧ reading = (coining "many").head (by decide) := by
    cases earlier with
    | nil =>
      obtain ⟨rfl, _⟩ := List.cons.inj split
      exact ⟨rfl, rfl⟩
    | cons =>
      have rest := (List.cons.inj split).2
      simp at rest
  obtain ⟨rfl, rfl⟩ := one
  obtain ⟨spec, proposed, same⟩ := rests.proposed
  have kept := rests.dropped spec proposed same
  cases List.mem_singleton.mp proposed
  revert kept
  decide

end Unregistered

end Zuihitsu.Inference
