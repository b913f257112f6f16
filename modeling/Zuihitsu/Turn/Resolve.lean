/-
# Resolving a turn under the audience rule

A reference to a turn replays that moment and a few turns around it, to an
audience that was all party to it. Who was there is read off the log in one pass
that keeps the open session of each conversation; identities are compared by
their classes. Below the resolver stands what it is meant to compute: the moments
of a log, each with the events before it, and who is recorded in its session.
-/

import Zuihitsu.Graph.Reads
import Zuihitsu.Turn.Buffer

namespace Zuihitsu.Turn

open Zuihitsu.Core

/-! ### The log the resolver reads -/

/-- The payloads the resolver reads. -/
inductive TranscriptPayload where
  | sessionStarted (conversation : ConversationId) (id : SessionId) (participants : List MemoryId)
  | participantJoined (conversation : ConversationId) (session : SessionId)
      (participant : MemoryId)
  | sessionEnded (conversation : ConversationId) (id : SessionId)
  | conversationTurn (conversation : ConversationId) (turnId : TurnId) (role : TurnRole)
      (text : String) (participant : Option MemoryId) (producedBy : Option ProducedBy)
      (attachments : List Attachment)
  | other
  deriving DecidableEq

/-- A recorded event. -/
structure TranscriptEvent where
  seq : Nat
  recordedAt : Timestamp
  payload : TranscriptPayload
  deriving DecidableEq

/-! ### The resolver -/

/-- One turn as a reference to it is answered. -/
structure ResolvedTurn where
  turnId : TurnId
  role : TurnRole
  speaker : String
  text : String
  recordedAt : Timestamp
  reference : String
  deriving DecidableEq

/-- A resolved turn among the turns around it. -/
structure TurnWindow where
  turns : List ResolvedTurn
  focus : Nat
  deriving DecidableEq

/-- The outcome of resolving a reference. -/
inductive TurnResolution where
  | resolved (window : TurnWindow)
  | audienceMismatch
  | notFound
  deriving DecidableEq

/-- One turn with the session it was recorded in, if one was open, and the audience
that had gathered by then. -/
structure AudienceTurn where
  view : TurnView
  conversation : ConversationId
  session : Option SessionId
  audience : List MemoryId
  deriving DecidableEq

/-- The open session of each conversation with its audience, and the turns read so far. -/
structure AudienceScan where
  opened : ConversationId → Option (SessionId × List MemoryId) := fun _ => none
  turns : List AudienceTurn := []

/-- Read one event of the log. -/
def AudienceScan.read (scan : AudienceScan) (event : TranscriptEvent) : AudienceScan :=
  match event.payload with
  | .sessionStarted conversation id participants =>
    { scan with opened := Function.update scan.opened conversation (some (id, participants)) }
  | .participantJoined conversation session participant =>
    match scan.opened conversation with
    | some (openId, audience) =>
      if openId = session ∧ participant ∉ audience then
        { scan with
          opened := Function.update scan.opened conversation
            (some (openId, audience ++ [participant])) }
      else scan
    | none => scan
  | .sessionEnded conversation id =>
    if (scan.opened conversation).any (·.1 = id) then
      { scan with opened := Function.update scan.opened conversation none }
    else scan
  | .conversationTurn conversation turnId role text participant producedBy attachments =>
    { scan with
      turns := scan.turns ++
        [{ view :=
            { seq := event.seq, turnId, role, text, participant, recordedAt := event.recordedAt,
              producedBy, attachments }
           conversation
           session := (scan.opened conversation).map (·.1)
           audience := ((scan.opened conversation).map (·.2)).getD [] }] }
  | .other => scan

/-- Every turn of the log with the audience in effect when it was recorded. -/
def audienceTurns (log : List TranscriptEvent) : List AudienceTurn :=
  (log.foldl AudienceScan.read {}).turns

/-- Note the class of an id, unless one is noted or the graph has none. -/
def noteClass (graph : Graph) (known : MemoryId → Option MemoryId) (id : MemoryId) :
    MemoryId → Option MemoryId :=
  match known id with
  | some _ => known
  | none =>
    match graph.classId id with
    | some primary => Function.update known id (some primary)
    | none => known

/-- The classes of the ids the audience rule weighs. -/
def classMap (graph : Graph) (presentSet : List MemoryId) (turns : List AudienceTurn) :
    MemoryId → Option MemoryId :=
  (presentSet ++ turns.flatMap (·.audience)).foldl (noteClass graph) fun _ => none

/-- Whether everyone present was in an audience. An id without a class stands for itself. -/
def audienceAdmits (presentSet audience : List MemoryId) (classOf : MemoryId → Option MemoryId) :
    Bool :=
  presentSet.all fun member =>
    (audience.map fun id => (classOf id).getD id).contains ((classOf member).getD member)

/-- The names of the participants of some turns. -/
def participantNames (graph : Graph) (turns : List TurnView) (id : MemoryId) : Option String :=
  if some id ∈ turns.map (·.participant) then
    some (((graph.memoryById ((graph.classId id).getD id)).map (·.name.text)).getD "someone")
  else none

/-- Who a turn is by, as it is shown. -/
def turnSpeaker (turn : TurnView) (names : MemoryId → Option String) : String :=
  match turn.role with
  | .participant => (turn.participant.bind names).getD "someone"
  | .agent => MemoryName.selfHandle.text
  | .system => "system"

/-- The token a turn is cited by. -/
def turnRef (printUlid : TurnId → String) (turn : TurnId) : String := s!"[turn:{printUlid turn}]"

/-- A turn as it is answered. -/
def resolvedTurn (printUlid : TurnId → String) (names : MemoryId → Option String)
    (turn : TurnView) : ResolvedTurn where
  turnId := turn.turnId
  role := turn.role
  speaker := turnSpeaker turn names
  text := turn.text
  recordedAt := turn.recordedAt
  reference := turnRef printUlid turn.turnId

/-- The turns around one of its session that everyone present was party to. -/
def admittedAround (presentSet : List MemoryId) (classOf : MemoryId → Option MemoryId)
    (sessionTurns : List AudienceTurn) (turnId : TurnId) (before after : Nat) :
    List AudienceTurn :=
  let focusIdx := sessionTurns.findIdx (·.view.turnId = turnId)
  let start := focusIdx - before
  let stop := min (focusIdx + after + 1) sessionTurns.length
  ((sessionTurns.take stop).drop start).filter fun turn =>
    audienceAdmits presentSet turn.audience classOf

/-- Resolve a reference to a turn, with the turns around it. -/
def resolveTurn (printUlid : TurnId → String) (graph : Graph) (log : List TranscriptEvent)
    (presentSet : List MemoryId) (turnId : TurnId) (before after : Nat) : TurnResolution :=
  let turns := audienceTurns log
  match turns.find? (·.view.turnId = turnId) with
  | none => .notFound
  | some focus =>
    let classOf := classMap graph presentSet turns
    if audienceAdmits presentSet focus.audience classOf = false then .audienceMismatch
    else
      let sessionTurns := turns.filter fun turn =>
        turn.conversation = focus.conversation && turn.session = focus.session
      let admitted := admittedAround presentSet classOf sessionTurns turnId before after
      let views := admitted.map (·.view)
      .resolved
        { turns := views.map (resolvedTurn printUlid (participantNames graph views))
          focus := admitted.findIdx (·.view.turnId = turnId) }

/-! ### Who was there -/

/-- The session of a conversation that is open after some events: the last that was
started, unless it ended since. -/
structure OpenedIn (log : List TranscriptEvent) (conversation : ConversationId) (id : SessionId)
    (participants : List MemoryId) (since : List TranscriptEvent) : Prop where
  started : ∃ before event, log = before ++ event :: since ∧
    event.payload = .sessionStarted conversation id participants
  latest : ∀ event ∈ since, ∀ other participants,
    event.payload ≠ .sessionStarted conversation other participants
  running : ∀ event ∈ since, event.payload ≠ .sessionEnded conversation id

/-- A session is the one that is open in a conversation. -/
def InSession (log : List TranscriptEvent) (conversation : ConversationId) (id : SessionId) : Prop :=
  ∃ participants since, OpenedIn log conversation id participants since

/-- A memory is recorded in the open session of a conversation: it started with them, or
they joined it since. -/
def RecordedIn (log : List TranscriptEvent) (conversation : ConversationId) (member : MemoryId) :
    Prop :=
  ∃ id participants since, OpenedIn log conversation id participants since ∧
    (member ∈ participants ∨ ∃ event ∈ since, event.payload = .participantJoined conversation id member)

/-- A turn of the log, with the events before it. -/
structure Moment where
  earlier : List TranscriptEvent
  conversation : ConversationId
  view : TurnView

/-- The turn an event records, after some events. -/
def momentAt (earlier : List TranscriptEvent) (event : TranscriptEvent) : Option Moment :=
  match event.payload with
  | .conversationTurn conversation turnId role text participant producedBy attachments =>
    some
      { earlier
        conversation
        view :=
          { seq := event.seq, turnId, role, text, participant, recordedAt := event.recordedAt,
            producedBy, attachments } }
  | _ => none

/-- The turns that the rest of a log records. -/
def momentsFrom (earlier : List TranscriptEvent) : List TranscriptEvent → List Moment
  | [] => []
  | event :: rest => (momentAt earlier event).toList ++ momentsFrom (earlier ++ [event]) rest

/-- The turns of a log, in its order. -/
def moments (log : List TranscriptEvent) : List Moment := momentsFrom [] log

/-- Two turns were recorded in one session, or neither in any, of one conversation. -/
def Moment.SharesSession (focus other : Moment) : Prop :=
  other.conversation = focus.conversation ∧
    ∀ id, InSession other.earlier other.conversation id ↔ InSession focus.earlier focus.conversation id

/-- The audience rule: the class of everyone present has someone who was there. -/
def Moment.Shared (graph : Graph) (presentSet : List MemoryId) (moment : Moment) : Prop :=
  ∀ member ∈ presentSet, ∃ there, RecordedIn moment.earlier moment.conversation there ∧
    graph.classOf member = graph.classOf there

/-- How a turn is answered, by itself. -/
def Moment.shown (printUlid : TurnId → String) (graph : Graph) (moment : Moment) : ResolvedTurn :=
  resolvedTurn printUlid (participantNames graph [moment.view]) moment.view

/-! ### The pass over the log -/

section Scan

variable {log : List TranscriptEvent} {event : TranscriptEvent} {conversation : ConversationId}
variable {id : SessionId} {participants : List MemoryId} {since : List TranscriptEvent}

theorem openedIn_concat :
    OpenedIn (log ++ [event]) conversation id participants since ↔
      (event.payload = .sessionStarted conversation id participants ∧ since = []) ∨
        ∃ earlier, since = earlier ++ [event] ∧ OpenedIn log conversation id participants earlier ∧
          (∀ other participants, event.payload ≠ .sessionStarted conversation other participants) ∧
          event.payload ≠ .sessionEnded conversation id := by
  constructor
  · rintro ⟨⟨before, opening, split, starts⟩, latest, running⟩
    rcases List.eq_nil_or_concat since with rfl | ⟨earlier, last, rfl⟩
    · obtain rfl := List.singleton_inj.mp (List.append_inj' split rfl).2
      exact .inl ⟨starts, rfl⟩
    · rw [List.concat_eq_append, ← List.cons_append, ← List.append_assoc] at split
      obtain ⟨rfl, same⟩ := List.append_inj' split rfl
      obtain rfl := List.singleton_inj.mp same
      simp only [List.concat_eq_append, List.mem_append, List.mem_singleton] at latest running
      exact .inr ⟨earlier, List.concat_eq_append, ⟨⟨before, opening, rfl, starts⟩,
        fun other member => latest other (.inl member), fun other member =>
          running other (.inl member)⟩, latest event (.inr rfl), running event (.inr rfl)⟩
  · rintro (⟨starts, rfl⟩ | ⟨earlier, rfl, ⟨⟨before, opening, rfl, starts⟩, latest, running⟩,
      notStart, notEnd⟩)
    · exact ⟨⟨log, event, rfl, starts⟩, by simp, by simp⟩
    · refine ⟨⟨before, opening, by simp, starts⟩, fun other member => ?_, fun other member => ?_⟩
      · rcases List.mem_append.mp member with old | last
        · exact latest other old
        · exact List.mem_singleton.mp last ▸ notStart
      · rcases List.mem_append.mp member with old | last
        · exact running other old
        · exact List.mem_singleton.mp last ▸ notEnd

theorem OpenedIn.unique {otherId : SessionId} {otherParticipants : List MemoryId}
    {otherSince : List TranscriptEvent} (first : OpenedIn log conversation id participants since)
    (second : OpenedIn log conversation otherId otherParticipants otherSince) :
    id = otherId ∧ participants = otherParticipants ∧ since = otherSince := by
  induction log using List.reverseRecOn generalizing since otherSince with
  | nil =>
    obtain ⟨_, _, split, _⟩ := first.started
    simp at split
  | append_singleton log event ih =>
    rcases openedIn_concat.mp first with ⟨starts, rfl⟩ | ⟨earlier, rfl, opened, notStart, _⟩
    · rcases openedIn_concat.mp second with ⟨otherStarts, rfl⟩ | ⟨_, _, _, otherNotStart, _⟩
      · rw [starts] at otherStarts
        cases otherStarts
        exact ⟨rfl, rfl, rfl⟩
      · exact absurd starts (otherNotStart _ _)
    · rcases openedIn_concat.mp second with ⟨otherStarts, _⟩ | ⟨_, rfl, otherOpened, _, _⟩
      · exact absurd otherStarts (notStart _ _)
      · obtain ⟨rfl, rfl, rfl⟩ := ih opened otherOpened
        exact ⟨rfl, rfl, rfl⟩

/-- What the pass holds of a conversation is its open session, and who is recorded in it. -/
def Follows (log : List TranscriptEvent) (conversation : ConversationId) :
    Option (SessionId × List MemoryId) → Prop
  | some (id, audience) => ∃ participants since,
      OpenedIn log conversation id participants since ∧ ∀ member, member ∈ audience ↔
        member ∈ participants ∨
          ∃ event ∈ since, event.payload = .participantJoined conversation id member
  | none => ∀ id participants since, ¬ OpenedIn log conversation id participants since

theorem Follows.keep {held : Option (SessionId × List MemoryId)}
    (follows : Follows log conversation held)
    (notStart : ∀ id participants, event.payload ≠ .sessionStarted conversation id participants)
    (notEnd : ∀ pair ∈ held, event.payload ≠ .sessionEnded conversation pair.1)
    (known : ∀ pair ∈ held, ∀ member, event.payload = .participantJoined conversation pair.1 member →
      member ∈ pair.2) :
    Follows (log ++ [event]) conversation held := by
  cases held with
  | none =>
    intro id participants since opened
    rcases openedIn_concat.mp opened with ⟨starts, _⟩ | ⟨_, _, before, _⟩
    · exact notStart id participants starts
    · exact follows id participants _ before
  | some pair =>
    obtain ⟨id, audience⟩ := pair
    obtain ⟨participants, since, opened, members⟩ := follows
    refine ⟨participants, since ++ [event], openedIn_concat.mpr
      (.inr ⟨since, rfl, opened, notStart, notEnd _ rfl⟩), fun member => ?_⟩
    rw [members member]
    constructor
    · rintro (listed | ⟨other, inSince, joined⟩)
      · exact .inl listed
      · exact .inr ⟨other, List.mem_append_left _ inSince, joined⟩
    · rintro (listed | ⟨other, inSince, joined⟩)
      · exact .inl listed
      · rcases List.mem_append.mp inSince with old | last
        · exact .inr ⟨other, old, joined⟩
        · obtain rfl := List.mem_singleton.mp last
          exact (members member).mp (known _ rfl member joined)

theorem Follows.read {scan : AudienceScan}
    (follows : Follows log conversation (scan.opened conversation)) :
    Follows (log ++ [event]) conversation ((scan.read event).opened conversation) := by
  unfold AudienceScan.read
  split
  · -- a session starts
    rename_i startedIn started attending payload
    dsimp only
    by_cases here : startedIn = conversation
    · subst here
      rw [Function.update_self]
      exact ⟨attending, [], openedIn_concat.mpr (.inl ⟨payload, rfl⟩), by simp⟩
    · rw [Function.update_of_ne (Ne.symm here)]
      exact follows.keep (by simp [payload, here]) (by simp [payload]) (by simp [payload])
  · -- someone joins
    rename_i joinedIn session joiner payload
    by_cases here : joinedIn = conversation
    · subst here
      split
      · rename_i openId audience held
        rw [held] at follows
        split
        · rename_i joins
          obtain ⟨rfl, fresh⟩ := joins
          dsimp only
          rw [Function.update_self]
          obtain ⟨participants, since, opened, members⟩ := follows
          refine ⟨participants, since ++ [event], openedIn_concat.mpr
            (.inr ⟨since, rfl, opened, by simp [payload], by simp [payload]⟩), fun member => ?_⟩
          rw [List.mem_append, members member]
          simp only [List.mem_append, List.mem_singleton, or_assoc]
          refine or_congr_right ?_
          constructor
          · rintro (⟨other, old, joined⟩ | rfl)
            · exact ⟨other, .inl old, joined⟩
            · exact ⟨event, .inr rfl, payload⟩
          · rintro ⟨other, old | rfl, joined⟩
            · exact .inl ⟨other, old, joined⟩
            · rw [payload] at joined
              cases joined
              exact .inr rfl
        · rename_i stays
          rw [held]
          refine follows.keep (by simp [payload]) (by simp [payload]) ?_
          rintro _ ⟨⟩ member joined
          rw [payload] at joined
          cases joined
          exact not_not.mp fun absent => stays ⟨rfl, absent⟩
      · rename_i held
        rw [held] at follows ⊢
        exact follows.keep (by simp [payload]) (by simp) (by simp)
    · have elsewhere : Follows (log ++ [event]) conversation (scan.opened conversation) :=
        follows.keep (by simp [payload]) (by simp [payload]) (by simp [payload, here])
      split
      · split
        · dsimp only
          rw [Function.update_of_ne (Ne.symm here)]
          exact elsewhere
        · exact elsewhere
      · exact elsewhere
  · -- a session ends
    rename_i endedIn ended payload
    by_cases here : endedIn = conversation
    · subst here
      split
      · rename_i running
        dsimp only
        rw [Function.update_self]
        obtain ⟨⟨openId, audience⟩, held, same⟩ := (Option.any_eq_true _ _).mp running
        rw [held] at follows
        obtain ⟨_, _, opened, _⟩ := follows
        intro id participants since after
        rcases openedIn_concat.mp after with ⟨starts, _⟩ | ⟨_, _, before, _, notEnd⟩
        · rw [payload] at starts
          cases starts
        · obtain ⟨rfl, _, _⟩ := opened.unique before
          have named : openId = ended := of_decide_eq_true same
          exact notEnd (named ▸ payload)
      · rename_i other
        refine follows.keep (by simp [payload]) (fun pair held ends => other ?_) (by simp [payload])
        rw [payload] at ends
        cases ends
        exact (Option.any_eq_true _ _).mpr ⟨pair, held, by simp⟩
    · have elsewhere : Follows (log ++ [event]) conversation (scan.opened conversation) :=
        follows.keep (by simp [payload]) (by simp [payload, here]) (by simp [payload])
      split
      · dsimp only
        rw [Function.update_of_ne (Ne.symm here)]
        exact elsewhere
      · exact elsewhere
  · rename_i payload
    exact follows.keep (by simp [payload]) (by simp [payload]) (by simp [payload])
  · rename_i payload
    exact follows.keep (by simp [payload]) (by simp [payload]) (by simp [payload])

theorem follows_scan (log : List TranscriptEvent) (conversation : ConversationId) :
    Follows log conversation ((log.foldl AudienceScan.read {}).opened conversation) := by
  induction log using List.reverseRecOn with
  | nil =>
    rintro id participants since ⟨⟨before, event, split, _⟩, _⟩
    simp at split
  | append_singleton log event ih =>
    rw [List.foldl_concat]
    exact ih.read

/-- What the pass makes of a turn. -/
def Moment.scanned (moment : Moment) : AudienceTurn :=
  let held := (moment.earlier.foldl AudienceScan.read {}).opened moment.conversation
  { view := moment.view
    conversation := moment.conversation
    session := held.map (·.1)
    audience := (held.map (·.2)).getD [] }

theorem AudienceScan.read_turns {earlier : List TranscriptEvent} :
    ((earlier.foldl AudienceScan.read {}).read event).turns =
      (earlier.foldl AudienceScan.read {}).turns ++
        ((momentAt earlier event).map Moment.scanned).toList := by
  unfold AudienceScan.read momentAt
  cases event.payload with
  | conversationTurn => rfl
  | participantJoined =>
    dsimp only
    split
    · split <;> simp
    · simp
  | sessionEnded =>
    dsimp only
    split <;> simp
  | sessionStarted | other => simp

theorem foldl_read_moments (earlier rest : List TranscriptEvent) :
    (rest.foldl AudienceScan.read (earlier.foldl AudienceScan.read {})).turns =
      (earlier.foldl AudienceScan.read {}).turns ++
        (momentsFrom earlier rest).map Moment.scanned := by
  induction rest generalizing earlier with
  | nil => simp [momentsFrom]
  | cons event rest ih =>
    have next := ih (earlier ++ [event])
    rw [List.foldl_concat] at next
    rw [List.foldl_cons, next, AudienceScan.read_turns, momentsFrom, List.map_append, List.append_assoc]
    cases momentAt earlier event <;> rfl

theorem audienceTurns_eq (log : List TranscriptEvent) :
    audienceTurns log = (moments log).map Moment.scanned :=
  (foldl_read_moments [] log).trans (List.nil_append _)

theorem scanned_session {moment : Moment} :
    moment.scanned.session = some id ↔ InSession moment.earlier moment.conversation id := by
  have follows := follows_scan moment.earlier moment.conversation
  simp only [Moment.scanned]
  cases held : (moment.earlier.foldl AudienceScan.read {}).opened moment.conversation with
  | none =>
    rw [held] at follows
    simp only [Option.map_none, reduceCtorEq, false_iff]
    rintro ⟨participants, since, opened⟩
    exact follows id participants since opened
  | some =>
    rw [held] at follows
    obtain ⟨participants, since, opened, _⟩ := follows
    simp only [Option.map_some, Option.some.injEq]
    constructor
    · rintro rfl
      exact ⟨participants, since, opened⟩
    · rintro ⟨_, _, other⟩
      exact (opened.unique other).1

theorem mem_scanned_audience {moment : Moment} {member : MemoryId} :
    member ∈ moment.scanned.audience ↔ RecordedIn moment.earlier moment.conversation member := by
  have follows := follows_scan moment.earlier moment.conversation
  simp only [Moment.scanned]
  cases held : (moment.earlier.foldl AudienceScan.read {}).opened moment.conversation with
  | none =>
    rw [held] at follows
    simp only [Option.map_none, Option.getD_none, List.not_mem_nil, false_iff]
    rintro ⟨id, participants, since, opened, _⟩
    exact follows id participants since opened
  | some =>
    rw [held] at follows
    obtain ⟨participants, since, opened, members⟩ := follows
    simp only [Option.map_some, Option.getD_some, members member]
    constructor
    · intro recorded
      exact ⟨_, participants, since, opened, recorded⟩
    · rintro ⟨_, _, _, other, recorded⟩
      obtain ⟨rfl, rfl, rfl⟩ := opened.unique other
      exact recorded

theorem sharesSession_iff {focus other : Moment} :
    focus.SharesSession other ↔ (other.scanned.conversation = focus.scanned.conversation &&
      other.scanned.session = focus.scanned.session) = true := by
  simp only [Moment.SharesSession, ← scanned_session, Bool.and_eq_true, decide_eq_true_eq]
  refine and_congr Iff.rfl ⟨fun same => ?_, fun same id => by rw [same]⟩
  exact Option.ext fun id => same id

end Scan

/-! ### Classes -/

section Classes

variable {graph : Graph} {presentSet : List MemoryId}

theorem noteClass_spec {known : MemoryId → Option MemoryId}
    (sound : ∀ id, known id = none ∨ known id = graph.classId id) (noted id : MemoryId) :
    (noteClass graph known noted id = none ∨ noteClass graph known noted id = graph.classId id) ∧
      (known id = graph.classId id → noteClass graph known noted id = graph.classId id) ∧
      noteClass graph known noted noted = graph.classId noted := by
  unfold noteClass
  cases held : known noted with
  | some =>
    refine ⟨sound id, fun same => same, ?_⟩
    exact (sound noted).resolve_left (by simp [held])
  | none =>
    cases found : graph.classId noted with
    | none => exact ⟨sound id, fun same => same, held⟩
    | some =>
      dsimp only
      by_cases same : id = noted
      · subst same
        simp [found]
      · rw [Function.update_of_ne same]
        exact ⟨sound id, fun kept => kept, by simp⟩

theorem foldl_noteClass (ids : List MemoryId) {known : MemoryId → Option MemoryId}
    (sound : ∀ id, known id = none ∨ known id = graph.classId id) (id : MemoryId)
    (weighed : known id = graph.classId id ∨ id ∈ ids) :
    ids.foldl (noteClass graph) known id = graph.classId id := by
  induction ids generalizing known with
  | nil => exact weighed.resolve_right (by simp)
  | cons first rest ih =>
    rw [List.foldl_cons]
    refine ih (fun other => (noteClass_spec sound first other).1) ?_
    rcases weighed with noted | listed
    · exact .inl ((noteClass_spec sound first id).2.1 noted)
    · rcases List.mem_cons.mp listed with rfl | later
      · exact .inl (noteClass_spec sound id id).2.2
      · exact .inr later

theorem classMap_eq {turns : List AudienceTurn} {id : MemoryId}
    (weighed : id ∈ presentSet ∨ ∃ turn ∈ turns, id ∈ turn.audience) :
    classMap graph presentSet turns id = graph.classId id := by
  refine foldl_noteClass _ (fun _ => .inl rfl) id (.inr (List.mem_append.mpr ?_))
  exact weighed.imp_right List.mem_flatMap.mpr

theorem audienceAdmits_iff {log : List TranscriptEvent} {moment : Moment}
    (recorded : moment ∈ moments log) :
    audienceAdmits presentSet moment.scanned.audience
      (classMap graph presentSet (audienceTurns log)) = true ↔ moment.Shared graph presentSet := by
  simp only [audienceAdmits, List.all_eq_true, List.contains_iff_mem, List.mem_map, Moment.Shared]
  refine forall₂_congr fun member present => exists_congr fun there => ?_
  rw [mem_scanned_audience]
  refine and_congr_right fun heard => ?_
  have listed : moment.scanned ∈ audienceTurns log := by
    rw [audienceTurns_eq]
    exact List.mem_map_of_mem recorded
  rw [classMap_eq (.inl present), classMap_eq (.inr ⟨_, listed, mem_scanned_audience.mpr heard⟩),
    Graph.classOf, Graph.classOf, eq_comm]

end Classes

/-! ### The window -/

section Window

variable {α : Type} {holds : α → Bool} {earlier later : List α} {focus : α}

theorem findIdx_split (first : ∀ other ∈ earlier, holds other = false) (found : holds focus = true) :
    (earlier ++ focus :: later).findIdx holds = earlier.length := by
  rw [List.findIdx_append, List.findIdx_eq_length_of_false first, if_neg (lt_irrefl _),
    List.findIdx_cons, found, cond_true, Nat.zero_add]

theorem around_split (before after : Nat) :
    ((earlier ++ focus :: later).take
        (min (earlier.length + after + 1) (earlier ++ focus :: later).length)).drop
        (earlier.length - before) =
      earlier.drop (earlier.length - before) ++ focus :: later.take after := by
  rw [← List.take_eq_take_min, Nat.add_assoc, List.take_length_add_append, List.take_succ_cons,
    List.drop_append_of_le_length (Nat.sub_le _ _)]

end Window

/-! ### The audience rule -/

section Rule

variable {printUlid : TurnId → String} {graph : Graph} {log : List TranscriptEvent}
variable {presentSet : List MemoryId} {turnId : TurnId} {before after : Nat}

open Classical in
/-- The turns of a log that were recorded in the session of one of them. -/
noncomputable def sessionMoments (log : List TranscriptEvent) (focus : Moment) : List Moment :=
  (moments log).filter fun other => focus.SharesSession other

open Classical in
/-- The turns that meet the audience rule. -/
noncomputable def sharedMoments (graph : Graph) (presentSet : List MemoryId)
    (turns : List Moment) : List Moment :=
  turns.filter fun moment => moment.Shared graph presentSet

theorem mem_sharedMoments {turns : List Moment} {moment : Moment} :
    moment ∈ sharedMoments graph presentSet turns ↔
      moment ∈ turns ∧ moment.Shared graph presentSet := by
  simp [sharedMoments]

theorem filter_audienceAdmits {turns : List Moment} (recorded : ∀ moment ∈ turns, moment ∈ moments log) :
    (turns.map Moment.scanned).filter (fun turn => audienceAdmits presentSet turn.audience
        (classMap graph presentSet (audienceTurns log))) =
      (sharedMoments graph presentSet turns).map Moment.scanned := by
  rw [List.filter_map, sharedMoments]
  refine congrArg _ (List.filter_congr fun moment member => Bool.eq_iff_iff.mpr ?_)
  exact (audienceAdmits_iff (recorded moment member)).trans (by simp)

theorem resolvedTurn_participantNames {views : List TurnView} {turn : TurnView}
    (member : turn ∈ views) :
    resolvedTurn printUlid (participantNames graph views) turn =
      resolvedTurn printUlid (participantNames graph [turn]) turn := by
  have named : turnSpeaker turn (participantNames graph views) =
      turnSpeaker turn (participantNames graph [turn]) := by
    unfold turnSpeaker
    cases turn.role with
    | agent | system => rfl
    | participant =>
      cases speaker : turn.participant with
      | none => rfl
      | some id =>
        have listed : some id ∈ views.map (·.participant) :=
          speaker ▸ List.mem_map_of_mem member
        simp [participantNames, listed, speaker]
  simp only [resolvedTurn, named]

theorem findIdx_scanned {earlier later : List Moment} {focus : Moment}
    (named : focus.view.turnId = turnId) (first : ∀ other ∈ earlier, other.view.turnId ≠ turnId) :
    ((earlier ++ focus :: later).map Moment.scanned).findIdx (·.view.turnId = turnId) =
      earlier.length := by
  have others : ∀ other ∈ earlier.map Moment.scanned,
      decide (other.view.turnId = turnId) = false := by
    intro other member
    obtain ⟨moment, before, rfl⟩ := List.mem_map.mp member
    exact decide_eq_false (first moment before)
  have itself : decide (focus.scanned.view.turnId = turnId) = true := decide_eq_true named
  rw [List.map_append, List.map_cons]
  exact (findIdx_split others itself).trans (List.length_map _)

theorem admittedAround_eq {earlier later : List Moment} {focus : Moment}
    (recorded : ∀ moment ∈ earlier ++ focus :: later, moment ∈ moments log)
    (named : focus.view.turnId = turnId) (first : ∀ other ∈ earlier, other.view.turnId ≠ turnId)
    (shared : focus.Shared graph presentSet) :
    admittedAround presentSet (classMap graph presentSet (audienceTurns log))
        ((earlier ++ focus :: later).map Moment.scanned) turnId before after =
      (sharedMoments graph presentSet (earlier.drop (earlier.length - before)) ++ focus ::
        sharedMoments graph presentSet (later.take after)).map Moment.scanned := by
  have position : ((earlier ++ focus :: later).map Moment.scanned).findIdx
      (·.view.turnId = turnId) = earlier.length := findIdx_scanned named first
  simp only [admittedAround]
  rw [position, List.length_map, ← List.map_take, ← List.map_drop, around_split,
    filter_audienceAdmits]
  · simp [sharedMoments, shared]
  · intro moment member
    refine recorded moment ?_
    rw [← @around_split _ earlier later focus before after] at member
    exact List.mem_of_mem_take (List.mem_of_mem_drop member)

theorem mem_sessionMoments {focus moment : Moment} :
    moment ∈ sessionMoments log focus ↔ moment ∈ moments log ∧ focus.SharesSession moment := by
  simp [sessionMoments]

theorem sessionMoments_split {focus : Moment} {earliest latest : List Moment}
    (split : moments log = earliest ++ focus :: latest) :
    ∃ earlier later, sessionMoments log focus = earlier ++ focus :: later ∧
      ∀ other ∈ earlier, other ∈ earliest := by
  have own : focus.SharesSession focus := ⟨rfl, fun _ => Iff.rfl⟩
  rw [sessionMoments, split, List.filter_append, List.filter_cons_of_pos (by simpa using own)]
  exact ⟨_, _, rfl, fun _ member => List.mem_of_mem_filter member⟩

/-- A reference whose focus everyone present shared is answered by the turns of its session
that they shared: of the last few before it, itself, and of the first few after. -/
theorem resolveTurn_of_shared {focus : Moment}
    (found : (moments log).find? (·.view.turnId = turnId) = some focus)
    (shared : focus.Shared graph presentSet) :
    ∃ earlier later, sessionMoments log focus = earlier ++ focus :: later ∧
      (∀ other ∈ earlier, other.view.turnId ≠ turnId) ∧
      resolveTurn printUlid graph log presentSet turnId before after =
        .resolved
          { turns :=
              (sharedMoments graph presentSet (earlier.drop (earlier.length - before)) ++ focus ::
                sharedMoments graph presentSet (later.take after)).map
                (Moment.shown printUlid graph)
            focus :=
              (sharedMoments graph presentSet (earlier.drop (earlier.length - before))).length } := by
  obtain ⟨named, earliest, latest, split, first⟩ := List.find?_eq_some_iff_append.mp found
  have named : focus.view.turnId = turnId := of_decide_eq_true named
  have recorded : focus ∈ moments log := by simp [split]
  obtain ⟨earlier, later, session, fromEarliest⟩ := sessionMoments_split split
  have first : ∀ other ∈ earlier, other.view.turnId ≠ turnId := by
    intro other member
    simpa using first other (fromEarliest other member)
  refine ⟨earlier, later, session, first, ?_⟩
  have foundTurn : (audienceTurns log).find? (·.view.turnId = turnId) = some focus.scanned := by
    rw [audienceTurns_eq, List.find?_map]
    exact congrArg (Option.map Moment.scanned) found
  have admits : audienceAdmits presentSet focus.scanned.audience
      (classMap graph presentSet (audienceTurns log)) = true := (audienceAdmits_iff recorded).mpr shared
  have sessionTurns : (audienceTurns log).filter (fun turn =>
      turn.conversation = focus.scanned.conversation && turn.session = focus.scanned.session) =
        (earlier ++ focus :: later).map Moment.scanned := by
    rw [← session, sessionMoments, audienceTurns_eq, List.filter_map]
    refine congrArg _ (List.filter_congr fun other _ => Bool.eq_iff_iff.mpr ?_)
    exact sharesSession_iff.symm.trans (by simp)
  have inLog : ∀ moment ∈ earlier ++ focus :: later, moment ∈ moments log := by
    rw [← session]
    exact fun moment member => (mem_sessionMoments.mp member).1
  have around : admittedAround presentSet (classMap graph presentSet (audienceTurns log))
      ((earlier ++ focus :: later).map Moment.scanned) turnId before after = _ :=
    admittedAround_eq inLog named first shared
  -- the focus is the first of the kept turns with its id
  have position : ((sharedMoments graph presentSet (earlier.drop (earlier.length - before)) ++
      focus :: sharedMoments graph presentSet (later.take after)).map Moment.scanned).findIdx
        (·.view.turnId = turnId) =
      (sharedMoments graph presentSet (earlier.drop (earlier.length - before))).length := by
    refine findIdx_scanned named fun other member => first other ?_
    exact List.mem_of_mem_drop (mem_sharedMoments.mp member).1
  simp only [resolveTurn, foundTurn, admits, sessionTurns, around, position, Bool.true_eq_false,
    if_false]
  generalize sharedMoments graph presentSet (earlier.drop (earlier.length - before)) ++ focus ::
    sharedMoments graph presentSet (later.take after) = kept
  congr 2
  rw [List.map_map, List.map_map]
  refine List.map_congr_left fun moment member => ?_
  exact resolvedTurn_participantNames (List.mem_map_of_mem (List.mem_map_of_mem member))

theorem resolveTurn_of_not_shared
    (refused : ∀ focus, (moments log).find? (·.view.turnId = turnId) = some focus →
      ¬ focus.Shared graph presentSet) (window : TurnWindow) :
    resolveTurn printUlid graph log presentSet turnId before after ≠ .resolved window := by
  have focuses : (audienceTurns log).find? (·.view.turnId = turnId) =
      ((moments log).find? (·.view.turnId = turnId)).map Moment.scanned := by
    rw [audienceTurns_eq, List.find?_map]
    rfl
  simp only [resolveTurn]
  cases found : (moments log).find? (·.view.turnId = turnId) with
  | none =>
    rw [found] at focuses
    rw [focuses]
    simp
  | some focus =>
    rw [found] at focuses
    have denied : audienceAdmits presentSet focus.scanned.audience
        (classMap graph presentSet (audienceTurns log)) = false := by
      rw [Bool.eq_false_iff, ne_eq, audienceAdmits_iff (List.mem_of_find?_eq_some found)]
      exact refused focus found
    rw [focuses]
    simp [denied]

/-- The audience rule for transcripts: every turn of an answer was shared by everyone present;
a focus they shared is answered by the turns they shared among those around it in its own
session; and nothing else is answered. -/
theorem resolveTurn_audienceRule (printUlid : TurnId → String) (graph : Graph)
    (log : List TranscriptEvent) (presentSet : List MemoryId) (turnId : TurnId)
    (before after : Nat) :
    (∀ window, resolveTurn printUlid graph log presentSet turnId before after = .resolved window →
      ∀ turn ∈ window.turns, ∃ moment ∈ moments log,
        turn = moment.shown printUlid graph ∧ moment.Shared graph presentSet) ∧
    (∀ focus, (moments log).find? (·.view.turnId = turnId) = some focus →
      focus.Shared graph presentSet →
      ∃ earlier later, sessionMoments log focus = earlier ++ focus :: later ∧
        (∀ other ∈ earlier, other.view.turnId ≠ turnId) ∧
        resolveTurn printUlid graph log presentSet turnId before after =
          .resolved
            { turns :=
                (sharedMoments graph presentSet (earlier.drop (earlier.length - before)) ++ focus ::
                  sharedMoments graph presentSet (later.take after)).map
                  (Moment.shown printUlid graph)
              focus :=
                (sharedMoments graph presentSet (earlier.drop (earlier.length - before))).length }) ∧
    ((∀ focus, (moments log).find? (·.view.turnId = turnId) = some focus →
      ¬ focus.Shared graph presentSet) →
      ∀ window, resolveTurn printUlid graph log presentSet turnId before after ≠ .resolved window) := by
  refine ⟨fun window answered => ?_, fun focus found shared => resolveTurn_of_shared found shared,
    fun refused window => resolveTurn_of_not_shared refused window⟩
  by_contra leaks
  -- what is answered has a focus that everyone present shared
  refine resolveTurn_of_not_shared (fun focus found shared => leaks ?_) window answered
  obtain ⟨earlier, later, session, _, resolved⟩ :=
    @resolveTurn_of_shared printUlid graph log presentSet turnId before after focus found shared
  rw [answered, TurnResolution.resolved.injEq] at resolved
  subst resolved
  intro turn member
  obtain ⟨moment, kept, rfl⟩ := List.mem_map.mp member
  have inSession : ∀ other ∈ earlier ++ focus :: later, other ∈ moments log := fun other listed =>
    (mem_sessionMoments.mp (session ▸ listed)).1
  refine ⟨moment, ?_, rfl, ?_⟩
  · refine inSession moment (List.mem_append.mpr ?_)
    rcases List.mem_append.mp kept with prior | itself
    · exact .inl (List.mem_of_mem_drop (mem_sharedMoments.mp prior).1)
    · rcases List.mem_cons.mp itself with rfl | next
      · exact .inr List.mem_cons_self
      · exact .inr (List.mem_cons_of_mem _ (List.mem_of_mem_take (mem_sharedMoments.mp next).1))
  · rcases List.mem_append.mp kept with prior | itself
    · exact (mem_sharedMoments.mp prior).2
    · rcases List.mem_cons.mp itself with rfl | next
      · exact shared
      · exact (mem_sharedMoments.mp next).2

/-- Someone who joined during the session is not shown what was said before. -/
example :
    let room : ConversationId := ⟨0⟩
    let said : TurnId → TranscriptPayload := fun turnId =>
      .conversationTurn room turnId .agent "Hello." none none []
    let log := [TranscriptPayload.sessionStarted room ⟨0⟩ [⟨1⟩], said ⟨1⟩,
      .participantJoined room ⟨0⟩ ⟨2⟩, said ⟨2⟩, said ⟨3⟩].map (TranscriptEvent.mk 0 ⟨0⟩)
    resolveTurn (fun turn => toString turn.ulid) .fresh log [⟨1⟩, ⟨2⟩] ⟨3⟩ 2 2 =
      .resolved
        { turns :=
            [⟨⟨2⟩, .agent, "self", "Hello.", ⟨0⟩, "[turn:2]"⟩,
              ⟨⟨3⟩, .agent, "self", "Hello.", ⟨0⟩, "[turn:3]"⟩]
          focus := 1 } := by
  decide

end Rule

end Zuihitsu.Turn
