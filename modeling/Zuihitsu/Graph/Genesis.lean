/-
# Genesis

The seed vocabulary of a new agent, and the one append a complete rollout onto an
empty log makes. The prompt templates and the settings are events the projection
ignores, so their number is all that is kept of them.
-/

import Zuihitsu.Graph.Registry

namespace Zuihitsu.Graph

open Zuihitsu.Core Zuihitsu.Library

/-- A seed relation type. -/
def seedRelation (name inverse : String) (fromCard toCard : Cardinality) (symmetric : Bool)
    (description : String) : RelationRow :=
  ⟨⟨name⟩, ⟨inverse⟩, fromCard, toCard, symmetric, false, description⟩

/-- The structural universals the system itself leans on. -/
def seedRelations : List RelationRow :=
  [seedRelation "created_by" "created" .one .many false
      "A thing's historical origin — who created it. Distinct from current operatorship.",
    seedRelation "operator_of" "operated_by" .many .many false
      "Who currently operates or runs a thing — the present operator, not the originator.",
    seedRelation "knows" "known_by" .many .many false
      "One person knows another — a person-to-person relationship.",
    seedRelation "same_as" "same_as" .many .many true
      "Two platform stubs are the same person — cross-platform identity.",
    seedRelation "participates_in" "has_participant" .many .many false
      "A person is in an event — someone who will be there or took part.",
    seedRelation "part_of" "contains" .many .many false
      ("An event, entry-bearing memory, or sub-topic belongs to a topic, project, or workstream — " ++
        "membership or aboutness. Not for people, who participates_in an event instead."),
    seedRelation "located_at" "location_of" .many .one false
      ("Where a thing is held or found — an event's venue, a team's office, a thing's place. Many " ++
        "things can share one place."),
    seedRelation "member_of" "has_member" .many .many false
      ("A person belongs to an organization or group — an employer, a team, a board, a school. " ++
        "Standing membership, not attendance at an event (participates_in) and not composition of " ++
        "a topic (part_of).")]

/-- The event that registers a relation type. -/
def RelationRow.registration (row : RelationRow) : EventPayload :=
  .linkTypeRegistered row.name row.inverse row.fromCard row.toCard row.symmetric row.reflexive
    row.description

/-- The seed tags. -/
def seedTags : List TagRow :=
  [⟨.confidential,
    "Marks a context as confidential: asides told in a room carrying this tag are surfaced " ++
      "elsewhere flagged as confidential, and the tag is visible regardless of who is present."⟩]

/-- The events of a complete rollout: the templates, the seed vocabulary, the
settings, and `self` with its persona and seed entries. -/
def rollout (templates : Nat) (selfId : MemoryId) (persona : List (EntryId × String))
    (now : Timestamp) : List EventPayload :=
  List.replicate templates .promptTemplateRegistered ++
    seedRelations.map RelationRow.registration ++
    seedTags.map (fun row => .tagCreated row.name row.description) ++
    [.configSet, .memoryCreated selfId .selfHandle] ++
    persona.map (fun (entry, text) =>
      .memoryContentAppended selfId entry now none text .bootstrap none .public) ++
    [.genesisCompleted]

end Zuihitsu.Graph
