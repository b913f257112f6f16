/-
# Provenance markers

The markers a rendered entry or link carries: who told it, in which room, and
whether in confidence. They are assembled from the attestations the present
audience may see, so that a hidden one leaves no trace in them. The text of a turn
identifier is the identifier library's.
-/

import Zuihitsu.Visibility.Links

namespace Zuihitsu

open Zuihitsu.Core Zuihitsu.Graph Zuihitsu.Library

/-! ### Verdicts over a graph

A graph's class lookups never fail, so that the predicates always reach a verdict. -/

section Verdicts

variable (graph : Graph) (presentSet : List MemoryId)

/-- The verdict on an entry, read under a memory. -/
def entryDecision (memory : MemoryView) (entry : EntryView) : VisibilityDecision :=
  match explain (MemoryBlock.blockClassOf graph) entry memory presentSet with
  | .ok decision => decision
  | .error _ => .superseded

/-- Whether an entry may surface under a memory. -/
def entryShown (memory : MemoryView) (entry : EntryView) : Bool :=
  (entryDecision graph presentSet memory entry).isVisible

/-- The attestations of an entry the audience may see. -/
def shownAttestations (memory : MemoryView) (entry : EntryView) : List AttestationView :=
  match visibleAttestations (MemoryBlock.blockClassOf graph) entry memory presentSet with
  | .ok found => found
  | .error _ => []

/-- Whether a link may surface. -/
def linkShown (relation : RelationName) (link : LinkVis) : Bool :=
  match linkVisible (MemoryBlock.blockClassOf graph) link (relationSymmetric graph relation)
    presentSet with
  | .ok shown => shown
  | .error _ => false

variable {graph presentSet} {memory : MemoryView} {entry : EntryView}

theorem explain_eq :
    explain (MemoryBlock.blockClassOf graph) entry memory presentSet =
      .ok (entryDecision graph presentSet memory entry) := by
  have decided : ∃ decision,
      explain (MemoryBlock.blockClassOf graph) entry memory presentSet = .ok decision := by
    unfold explain
    split
    · exact ⟨_, rfl⟩
    · exact explainFrom_total fun attestation _ =>
        resolves_of_total (MemoryBlock.blockClassOf_total graph) _ presentSet attestation
  obtain ⟨decision, explained⟩ := decided
  rw [entryDecision, explained]

theorem entryShown_iff :
    entryShown graph presentSet memory entry = true ↔
      Surfaces (MemoryBlock.blockClassOf graph) entry memory presentSet := by
  simp [Surfaces, explain_eq, entryShown]

end Verdicts

/-! ### Markers -/

/-- The room a fact was told in, as a marker names it. -/
structure MarkerRoom where
  name : String
  confidential : Bool

/-- The turn a fact was told at and the room it was told in. -/
structure MarkerTurn where
  turnId : Option TurnId
  room : Option MarkerRoom

/-- One visible attestation, resolved for a marker. -/
structure MarkerAttestation where
  posture : Visibility
  teller : String
  isAgent : Bool
  marker : MarkerTurn

/-- The breadth of an attestation's own posture. -/
def postureRank : Visibility → Nat
  | .public => 3
  | .attributed => 2
  | .privateToTeller | .exclude _ => 1

/-- The display name of a room: its handle without the namespace. -/
def roomDisplay (contextName : String) : String :=
  "#" ++ (stripLeading Namespace.context.handlePrefix contextName).getD contextName

section Texts

variable (turnText : TurnId → String)

/-- Insert the turn's token before the closing bracket of a marker. -/
def formatTurn (marker : String) : Option TurnId → String
  | some id =>
    let chars := marker.toList
    let close := match chars.reverse.findIdx? (· = ']') with
      | some behind => chars.length - 1 - behind
      | none => chars.length
    String.ofList (chars.take close) ++ " [turn:" ++ turnText id ++ "]" ++
      String.ofList (chars.drop close)
  | none => marker

/-- The marker of a confidence. -/
def tellerPrivateMarker (teller : String) (marker : Option MarkerTurn) : String :=
  let body := match marker.bind (·.room) with
    | some ⟨name, true⟩ => "told by " ++ teller ++ " in " ++ name ++ " (confidential)"
    | some ⟨name, false⟩ => "told by " ++ teller ++ " in " ++ name
    | none => "told by " ++ teller
  formatTurn turnText ("[teller-private, " ++ body ++ "]") (marker.bind (·.turnId))

/-- The marker of an attributed fact. -/
def attributedMarker (teller : String) (marker : Option MarkerTurn) : String :=
  let body := match marker.bind (·.room) with
    | some room => "via " ++ teller ++ " in " ++ room.name
    | none => "via " ++ teller
  formatTurn turnText ("[" ++ body ++ "]") (marker.bind (·.turnId))

/-- The attesting tellers of an attributed entry, the agent left out. -/
def viaMarker (visible : List MarkerAttestation) : Option String :=
  match visible.filter fun shown => shown.posture = .attributed && !shown.isAgent with
  | [] => none
  | [only] => some (attributedMarker turnText only.teller (some only.marker))
  | [first, second] => some ("[via " ++ first.teller ++ ", " ++ second.teller ++ "]")
  | first :: second :: rest =>
    some ("[via " ++ first.teller ++ ", " ++ second.teller ++ ", +" ++ toString rest.length ++ "]")

/-- The further tellers of a public entry, beyond the founding one. -/
def alsoToldMarker (visible : List MarkerAttestation) : Option String :=
  match (visible.drop 1).filter fun shown => 2 ≤ postureRank shown.posture && !shown.isAgent with
  | [] => none
  | [only] => some ("[also told by " ++ only.teller ++ "]")
  | [first, second] => some ("[also told by " ++ first.teller ++ ", " ++ second.teller ++ "]")
  | more => some ("[also told by " ++ toString more.length ++ " others]")

/-- The marker of an entry, from its visible attestations: the register is the widest
visible posture. -/
def entryAttestationMarker (visible : List MarkerAttestation) : Option String :=
  match (visible.map fun shown => postureRank shown.posture).max? with
  | none => none
  | some 3 => alsoToldMarker visible
  | some 2 => viaMarker turnText visible
  | some _ =>
    (visible.find? fun shown => postureRank shown.posture = 1).map fun confidence =>
      tellerPrivateMarker turnText confidence.teller (some confidence.marker)

/-- The marker of a link. -/
def linkMarker (visibility : Visibility) (teller : String) (marker : Option MarkerTurn) :
    Option String :=
  match visibility with
  | .public => none
  | .attributed => some (attributedMarker turnText teller marker)
  | .privateToTeller | .exclude _ => some (tellerPrivateMarker turnText teller marker)

end Texts

namespace Graph

/-- The display name of a teller: a participant's class primary by its name. -/
def tellerDisplay (graph : Graph) : Teller → String
  | .participant id => ((graph.memoryById (graph.classOf id)).map (·.name.text)).getD "someone"
  | .agent => "the agent"
  | .bootstrap => "genesis"

/-- The turn and the room of a reference to a conversation. -/
def markerRef (graph : Graph) : Option ConversationRef → MarkerTurn
  | none => ⟨none, none⟩
  | some told =>
    ⟨told.turn, (graph.contextForConversation told.conversation).bind fun context =>
      (graph.memoryById context).map fun room =>
        ⟨roomDisplay room.name.text, room.tags.contains .confidential⟩⟩

/-- The marker an entry carries when it surfaces to an audience. -/
def entryProvenanceMarker (turnText : TurnId → String) (graph : Graph) (presentSet : List MemoryId)
    (memory : MemoryView) (entry : EntryView) : Option String :=
  let listed := { entry with attestations := effectiveAttestations entry }
  entryAttestationMarker turnText ((shownAttestations graph presentSet memory listed).map
    fun attestation =>
      ⟨attestation.posture, graph.tellerDisplay attestation.teller, attestation.teller = .agent,
        graph.markerRef attestation.toldIn⟩)

end Graph

example : formatTurn (fun _ => "01KX") "[via Erin]" (some ⟨7⟩) = "[via Erin [turn:01KX]]" := by
  decide

end Zuihitsu
