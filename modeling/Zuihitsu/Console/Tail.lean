/-
# The console's tail of the log

A console fetches the whole log, then follows it over the event stream, reopening a
stream that drops, and polls once the stream fails twice without opening. A poll
reads the head, awaits its answer, and appends it to two copies of the log: the
replica, which drops what is delivered again, and the list the views render, which
does not. The main result says that everything a connection publishes is the
committed log up to its head, if and only if every poll's answer that brings events
comes while the head is still the one the poll was sent from.
-/

import Zuihitsu.Console.Replica
import Zuihitsu.Console.Stream
import Zuihitsu.Library.Trace

namespace Zuihitsu.Console

open Zuihitsu.Core Zuihitsu.Graph Zuihitsu.Library Zuihitsu.Search

variable {π ρ ε : Type}

/-! ### Appending and publishing -/

/-- What the views are given. -/
structure LiveLog where
  replica : Replica
  events : List Event
  head : Nat

/-- A connection that has its replica, and what it has published, newest first, with whether
it was following the head. -/
structure Tail where
  replica : Replica
  events : List Event
  head : Nat
  streamFailures : Nat := 0
  published : List (LiveLog × Bool) := []

/-- Hand the committed state to the views. -/
def publish (following : Bool) (tail : Tail) : Tail :=
  { tail with published := (⟨tail.replica, tail.events, tail.head⟩, following) :: tail.published }

/-- Fold a committed tail into the replica, and whether anything arrived. A fold that throws
leaves the rendered events as they were. -/
def appendBatch (following : Bool) (batch : List Event) (tail : Tail) :
    Except Tail (Tail × Bool) :=
  if batch = [] then .ok (tail, false)
  else
    let appended :=
      { tail with
        replica := tail.replica.append batch
        head := headSeq (tail.replica.append batch).events }
    if following then
      match appended.replica.foldThrough appended.head with
      | .error _ => .error appended
      | .ok replica => .ok ({ appended with replica, events := tail.events ++ batch }, true)
    else .ok ({ appended with events := tail.events ++ batch }, true)

/-- Append what arrived, and publish if anything did. -/
def receive (following : Bool) (batch : List Event) (tail : Tail) : Except Tail Tail :=
  match appendBatch following batch tail with
  | .error left => .error left
  | .ok (appended, true) => .ok (publish following appended)
  | .ok (appended, false) => .ok appended

/-- Receive the batches of a chunk, in order. -/
def receiveAll (following : Bool) : List (List Event) → Tail → Except Tail Tail
  | [], tail => .ok tail
  | batch :: rest, tail =>
    match receive following batch tail with
    | .error left => .error left
    | .ok received => receiveAll following rest received

/-- The replica of the initial fetch is published as it is built. -/
def connected (following : Bool) (initial : List Event) (replica : Replica) : Tail :=
  publish following ⟨replica, initial, headSeq replica.events, 0, []⟩

/-! ### A connection -/

/-- The body of an open stream: how much of the log the server has written to it, and what of
that the console has not read. -/
structure Body where
  sent : Nat
  wire : List Char := []

/-- How a connected console follows the log. A poll is its position. -/
inductive Mode where
  | opening (start : Nat)
  | streaming (buffered : List Char) (body : Body)
  | retrying
  | polling (unanswered : List Nat)

/-- A console connection, from the initial fetch to the hang-up. -/
inductive Connection where
  | fetching
  | building (initial : List Event)
  | failed
  | tailing (tail : Tail) (mode : Mode)
  | cancelled

/-- The server, the console, and whether the operator follows the head. -/
structure System where
  server : Committed
  following : Bool
  connection : Connection

/-- A connection about to fetch. -/
def start (server : Committed) (following : Bool) : System := ⟨server, following, .fetching⟩

/-- What a connection has published. -/
def Connection.published : Connection → List (LiveLog × Bool)
  | .tailing tail _ => tail.published
  | _ => []

/-- A stream that ended cleanly is reopened; one that failed is reopened once. -/
def onClose (failed : Bool) (tail : Tail) : Connection :=
  if failed then
    let counted := { tail with streamFailures := tail.streamFailures + 1 }
    if 2 ≤ counted.streamFailures then .tailing counted (.polling [])
    else .tailing counted .retrying
  else .tailing tail .retrying

/-- Read a chunk of the stream. -/
def onChunk (parse : List Char → Except ε (StreamFrame π ρ)) (following : Bool)
    (buffered chunk : List Char) (body : Body) (tail : Tail) : Connection :=
  match push parse buffered chunk with
  | .error _ => onClose true tail
  | .ok (frames, kept) =>
    match receiveAll following (batches [] frames) tail with
    | .error left => onClose true left
    | .ok received => .tailing received (.streaming kept body)

/-- The answer to a request for the log from a position. -/
def answer (server : Committed) (start upTo : Nat) : List Event :=
  readFrom (server.log.take upTo) start

/-- What happens between the server, the console and its operator. -/
inductive Act where
  | commits
  | follows (value : Bool)
  | scrubs (upTo : Nat)
  | fetched (upTo : Nat)
  | fetchFails
  | built
  | opens
  | refused
  | sends
  | reads
  | closes (failed : Bool)
  | reopens
  | polls
  | answers (index upTo : Nat)
  | pollFails (index : Nat)
  | hangsUp

/-- The steps of a connection. An answer holds the committed events from its position up to
some head. -/
inductive Step (parse : List Char → Except ε (StreamFrame π ρ)) : System → Act → System → Prop
  | commits {system : System} (server : Committed) (grown : system.server.log <+: server.log) :
      Step parse system .commits { system with server }
  | follows (system : System) (value : Bool) :
      Step parse system (.follows value) { system with following := value }
  | scrubs {server : Committed} {following : Bool} {tail : Tail} {mode : Mode} {upTo : Nat}
      {replica : Replica} (folds : tail.replica.foldThrough upTo = .ok replica) :
      Step parse ⟨server, following, .tailing tail mode⟩ (.scrubs upTo)
        ⟨server, following, .tailing { tail with replica } mode⟩
  | fetched {server : Committed} {following : Bool} {upTo : Nat}
      (within : upTo ≤ server.log.length) :
      Step parse ⟨server, following, .fetching⟩ (.fetched upTo)
        ⟨server, following, .building (answer server 0 upTo)⟩
  | fetchFails (server : Committed) (following : Bool) :
      Step parse ⟨server, following, .fetching⟩ .fetchFails ⟨server, following, .failed⟩
  | built {server : Committed} {following : Bool} {initial : List Event} {replica : Replica}
      (builds : Replica.new initial = .ok replica) :
      Step parse ⟨server, following, .building initial⟩ .built
        ⟨server, following, .tailing (connected following initial replica)
          (.opening (headSeq replica.events + 1))⟩
  | buildFails {server : Committed} {following : Bool} {initial : List Event}
      {violation : Violation} (throws : Replica.new initial = .error violation) :
      Step parse ⟨server, following, .building initial⟩ .built ⟨server, following, .failed⟩
  | opens (server : Committed) (following : Bool) (tail : Tail) (start : Nat) :
      Step parse ⟨server, following, .tailing tail (.opening start)⟩ .opens
        ⟨server, following, .tailing { tail with streamFailures := 0 }
          (.streaming [] { sent := start - 1 })⟩
  | refused (server : Committed) (following : Bool) (tail : Tail) (start : Nat) :
      Step parse ⟨server, following, .tailing tail (.opening start)⟩ .refused
        ⟨server, following, onClose true tail⟩
  | sends {server : Committed} {following : Bool} {tail : Tail} {buffered : List Char} {body : Body}
      {event : Event} {json : List Char} (next : server.log[body.sent]? = some event)
      (line : OneLine json) (parses : parse json = .ok (.event event)) :
      Step parse ⟨server, following, .tailing tail (.streaming buffered body)⟩ .sends
        ⟨server, following, .tailing tail
          (.streaming buffered ⟨body.sent + 1, body.wire ++ dataEvent json⟩)⟩
  | sendsOther {server : Committed} {following : Bool} {tail : Tail} {buffered : List Char}
      {body : Body} {text : List Char} {frames : List (StreamFrame π ρ)}
      (spells : Spells parse text frames) (other : committedOf frames = []) :
      Step parse ⟨server, following, .tailing tail (.streaming buffered body)⟩ .sends
        ⟨server, following, .tailing tail
          (.streaming buffered { body with wire := body.wire ++ text })⟩
  | reads {server : Committed} {following : Bool} {tail : Tail} {buffered chunk rest : List Char}
      {body : Body} (cut : body.wire = chunk ++ rest) :
      Step parse ⟨server, following, .tailing tail (.streaming buffered body)⟩ .reads
        ⟨server, following, onChunk parse following buffered chunk { body with wire := rest } tail⟩
  | closes (server : Committed) (following : Bool) (tail : Tail) (buffered : List Char)
      (body : Body) (failed : Bool) :
      Step parse ⟨server, following, .tailing tail (.streaming buffered body)⟩ (.closes failed)
        ⟨server, following, onClose failed tail⟩
  | reopens (server : Committed) (following : Bool) (tail : Tail) :
      Step parse ⟨server, following, .tailing tail .retrying⟩ .reopens
        ⟨server, following, .tailing tail (.opening (tail.head + 1))⟩
  | polls (server : Committed) (following : Bool) (tail : Tail) (unanswered : List Nat) :
      Step parse ⟨server, following, .tailing tail (.polling unanswered)⟩ .polls
        ⟨server, following, .tailing tail (.polling (unanswered ++ [tail.head + 1]))⟩
  | answers {server : Committed} {following : Bool} {tail received : Tail} {unanswered : List Nat}
      {index start upTo : Nat} (sent : unanswered[index]? = some start)
      (within : upTo ≤ server.log.length)
      (receives : receive following (answer server start upTo) tail = .ok received ∨
        receive following (answer server start upTo) tail = .error received) :
      Step parse ⟨server, following, .tailing tail (.polling unanswered)⟩ (.answers index upTo)
        ⟨server, following, .tailing received (.polling (unanswered.eraseIdx index))⟩
  | pollFails (server : Committed) (following : Bool) (tail : Tail) (unanswered : List Nat)
      (index : Nat) :
      Step parse ⟨server, following, .tailing tail (.polling unanswered)⟩ (.pollFails index)
        ⟨server, following, .tailing tail (.polling (unanswered.eraseIdx index))⟩
  | hangsUp (system : System) :
      Step parse system .hangsUp { system with connection := .cancelled }

/-! ### What is published -/

/-- A published view is the committed log up to its head, in the rendered events and in the
replica, and the replica's graph is its fold if the console was following. -/
structure Faithful (server : Committed) (view : LiveLog) (following : Bool) : Prop where
  within : view.head ≤ server.log.length
  events : view.events = server.log.take view.head
  replica : view.replica.events = view.events
  graph : following = true → foldLog apply view.events Graph.fresh = .ok view.replica.graph

/-- Everything published is. -/
def AllFaithful (server : Committed) (published : List (LiveLog × Bool)) : Prop :=
  ∀ shown ∈ published, Faithful server shown.1 shown.2

/-- The answer to a poll brings nothing, or comes while the head is the one the poll was sent
from. -/
def Timely (system : System) : Act → Prop
  | .answers index upTo =>
    match system.connection with
    | .tailing tail (.polling unanswered) => ∀ start, unanswered[index]? = some start →
        answer system.server start upTo = [] ∨ start = tail.head + 1
    | _ => True
  | _ => True

/-- The replica holds the log up to the head, and the last view is the current one. -/
structure Level (server : Committed) (tail : Tail) : Prop where
  within : tail.head ≤ server.log.length
  held : tail.replica.events = server.log.take tail.head
  shown : ∃ view following, tail.published.head? = some (view, following) ∧
    view.events = tail.events ∧ view.head = tail.head

/-- Where a stream or the polls stand to the head. What a stream has not delivered spells the
log from the head to what was sent. -/
def InStep (parse : List Char → Except ε (StreamFrame π ρ)) (server : Committed) (head : Nat) :
    Mode → Prop
  | .opening start => start = head + 1
  | .streaming buffered body => head ≤ body.sent ∧ body.sent ≤ server.log.length ∧
      ∃ frames, Spells parse (buffered ++ body.wire) frames ∧
        committedOf frames = (server.log.take body.sent).drop head
  | .retrying => True
  | .polling unanswered => ∀ start ∈ unanswered, 0 < start ∧ start ≤ head + 1

/-- What holds of a connection whatever it publishes. -/
def Sound (parse : List Char → Except ε (StreamFrame π ρ)) (system : System) : Prop :=
  match system.connection with
  | .building initial =>
    ∃ upTo ≤ system.server.log.length, initial = system.server.log.take upTo
  | .tailing tail mode => Level system.server tail ∧ InStep parse system.server tail.head mode
  | _ => True

/-! ### The log grows -/

section Growth

variable {parse : List Char → Except ε (StreamFrame π ρ)} {server later : Committed} {tail : Tail}

theorem take_grown (grown : server.log <+: later.log) {upTo : Nat}
    (within : upTo ≤ server.log.length) : later.log.take upTo = server.log.take upTo := by
  obtain ⟨more, whole⟩ := grown
  rw [← whole, List.take_append_of_le_length within]

theorem Faithful.mono {view : LiveLog} {following : Bool} (faithful : Faithful server view following)
    (grown : server.log <+: later.log) : Faithful later view following :=
  ⟨faithful.within.trans grown.length_le, faithful.events.trans (take_grown grown faithful.within).symm,
    faithful.replica, faithful.graph⟩

theorem Level.mono (level : Level server tail) (grown : server.log <+: later.log) :
    Level later tail :=
  ⟨level.within.trans grown.length_le, level.held.trans (take_grown grown level.within).symm,
    level.shown⟩

theorem InStep.mono {head : Nat} {mode : Mode} (inStep : InStep parse server head mode)
    (grown : server.log <+: later.log) : InStep parse later head mode := by
  cases mode with
  | streaming =>
    obtain ⟨ahead, within, frames, spells, stretch⟩ := inStep
    refine ⟨ahead, within.trans grown.length_le, frames, spells, ?_⟩
    rw [stretch, take_grown grown within]
  | _ => exact inStep

end Growth

/-! ### Receiving -/

section Receiving

variable {server : Committed} {following : Bool} {tail received : Tail} {batch : List Event}
  {position upTo : Nat}

/-- What receiving a batch leaves. -/
structure Received (server : Committed) (following : Bool) (batch : List Event) (upTo : Nat)
    (tail received : Tail) : Prop where
  head : received.head = max tail.head upTo
  held : received.replica.events = server.log.take received.head
  events : received.events = tail.events ++ batch
  published : received.published =
    (⟨received.replica, received.events, received.head⟩, following) :: tail.published
  graph : following = true →
    foldLog apply (server.log.take received.head) Graph.fresh = .ok received.replica.graph

theorem receive_nil : receive following [] tail = .ok tail := rfl

/-- A stretch of the log that leaves no gap is received whole. -/
theorem exists_receive (level : Level server tail) (joins : position ≤ tail.head)
    (within : upTo ≤ server.log.length) (stretch : batch = (server.log.take upTo).drop position)
    (some' : batch ≠ []) :
    ∃ received, receive following batch tail = .ok received ∧
      Received server following batch upTo tail received := by
  have held := Committed.append_events level.held level.within joins upTo
  rw [← stretch] at held
  have furthest : max tail.head upTo ≤ server.log.length := Nat.max_le.mpr ⟨level.within, within⟩
  have head : headSeq (tail.replica.append batch).events = max tail.head upTo := by
    rw [held, headSeq_take server.numbered furthest]
  cases following with
  | false =>
    rw [← head] at held
    exact ⟨_, by rw [receive, appendBatch, if_neg some']; rfl, head, held, rfl, rfl, by simp⟩
  | true =>
    obtain ⟨graph, folds, same⟩ :=
      Committed.exists_foldThrough held (headSeq (tail.replica.append batch).events)
    rw [← head] at held
    rw [← head, Nat.min_self] at same
    refine ⟨publish true
      { tail with
        replica :=
          { tail.replica.append batch with
            graph, head := headSeq (tail.replica.append batch).events }
        head := headSeq (tail.replica.append batch).events
        events := tail.events ++ batch }, ?_, head, held, rfl, rfl, fun _ => same⟩
    rw [receive, appendBatch, if_neg some']
    simp only [if_true, folds]

theorem Received.level (done : Received server following batch upTo tail received)
    (level : Level server tail) (within : upTo ≤ server.log.length) : Level server received := by
  refine ⟨?_, done.held, ?_⟩
  · rw [done.head]
    exact Nat.max_le.mpr ⟨level.within, within⟩
  · exact ⟨_, following, by rw [done.published]; rfl, rfl, rfl⟩

theorem Level.events (level : Level server tail) (all : AllFaithful server tail.published) :
    tail.events = server.log.take tail.head := by
  obtain ⟨view, following, last, events, head⟩ := level.shown
  have faithful := all (view, following) (List.mem_of_head? last)
  rw [← events, ← head]
  exact faithful.events

theorem Received.faithful_iff (done : Received server following batch upTo tail received)
    (level : Level server received) (all : AllFaithful server tail.published) :
    AllFaithful server received.published ↔
      tail.events ++ batch = server.log.take received.head := by
  constructor
  · intro held
    rw [← done.events]
    exact level.events held
  · intro continues
    rw [← done.events] at continues
    intro shown member
    rw [done.published] at member
    rcases List.mem_cons.mp member with rfl | earlier
    · refine ⟨level.within, continues, done.held.trans continues.symm, fun follows => ?_⟩
      rw [continues]
      exact done.graph follows
    · exact all shown earlier

/-- An answer with events continues the rendered ones exactly when it starts at the head. -/
theorem continues_iff (level : Level server tail) (all : AllFaithful server tail.published)
    (joins : position ≤ tail.head) (within : upTo ≤ server.log.length) (brings : position < upTo) :
    tail.events ++ (server.log.take upTo).drop position = server.log.take (max tail.head upTo) ↔
      position = tail.head := by
  rw [level.events all]
  constructor
  · intro same
    have lengths := congrArg List.length same
    have bound := level.within
    simp only [List.length_append, List.length_take, List.length_drop] at lengths
    omega
  · rintro rfl
    exact take_append_stretch

/-- The batches of a chunk, continuing the log from the head, are received whole and keep
what is published faithful. -/
theorem exists_receiveAll {groups : List (List Event)} (level : Level server tail)
    (some' : ∀ batch ∈ groups, batch ≠ []) (ahead : tail.head ≤ upTo)
    (within : upTo ≤ server.log.length)
    (stretch : groups.flatten = (server.log.take upTo).drop tail.head) :
    ∃ received, receiveAll following groups tail = .ok received ∧ Level server received ∧
      received.head = upTo ∧
      (AllFaithful server tail.published → AllFaithful server received.published) := by
  induction groups generalizing tail with
  | nil =>
    refine ⟨tail, rfl, level, ?_, id⟩
    have lengths := congrArg List.length stretch
    simp only [List.flatten_nil, List.length_nil, List.length_drop, List.length_take] at lengths
    omega
  | cons batch rest ih =>
    rw [List.flatten_cons] at stretch
    have length := congrArg List.length stretch
    simp only [List.length_append, List.length_drop, List.length_take] at length
    have brings := List.length_pos_iff.mpr (some' batch (List.mem_cons_self ..))
    -- the first batch ends where the others go on
    have first : batch = (server.log.take (tail.head + batch.length)).drop tail.head := by
      have front := congrArg (List.take batch.length) stretch
      rw [List.take_left, List.take_drop, List.take_take, Nat.min_eq_left (by omega)] at front
      exact front
    have others : rest.flatten =
        (server.log.take upTo).drop (tail.head + batch.length) := by
      have back := congrArg (List.drop batch.length) stretch
      rwa [List.drop_left, List.drop_drop] at back
    have middle : tail.head + batch.length ≤ server.log.length := by omega
    obtain ⟨next, receives, done⟩ := @exists_receive server following tail batch tail.head
      (tail.head + batch.length) level le_rfl middle first (some' batch (List.mem_cons_self ..))
    have reached : next.head = tail.head + batch.length := by
      rw [done.head]
      omega
    obtain ⟨received, runs, standing, head, kept⟩ :=
      ih (done.level level middle) (fun other member => some' other (List.mem_cons_of_mem _ member))
        (by omega) (by rw [reached]; exact others)
    refine ⟨received, ?_, standing, head, fun all => kept ?_⟩
    · rw [receiveAll, receives]
      exact runs
    · have continues := (continues_iff level all le_rfl middle (by omega)).mpr rfl
      rw [← first, ← done.head] at continues
      exact (done.faithful_iff (done.level level middle) all).mpr continues

end Receiving

/-! ### One step -/

section Steps

variable {parse : List Char → Except ε (StreamFrame π ρ)} {server : Committed} {following : Bool}
  {tail received : Tail} {system other : System} {act : Act}

/-- The replica of the initial fetch is published faithfully. -/
theorem connected_faithful {upTo : Nat} {replica : Replica} (within : upTo ≤ server.log.length)
    (builds : Replica.new (server.log.take upTo) = .ok replica) :
    Level server (connected following (server.log.take upTo) replica) ∧
      AllFaithful server (connected following (server.log.take upTo) replica).published := by
  obtain ⟨graph, built, folds⟩ := Committed.exists_new within
  rw [built] at builds
  cases builds
  have head := headSeq_take server.numbered within
  refine ⟨⟨head.trans_le within, ?_, _, following, rfl, rfl, rfl⟩, ?_⟩
  · exact (congrArg (List.take · server.log) head).symm
  · intro shown member
    cases List.mem_singleton.mp member
    exact ⟨head.trans_le within, (congrArg (List.take · server.log) head).symm, rfl,
      fun _ => folds⟩

theorem onClose_sound {failed : Bool} (level : Level server tail) :
    Sound parse ⟨server, following, onClose failed tail⟩ ∧
      (onClose failed tail).published = tail.published := by
  have counted : Level server { tail with streamFailures := tail.streamFailures + 1 } :=
    ⟨level.within, level.held, level.shown⟩
  cases failed with
  | false => exact ⟨⟨level, trivial⟩, rfl⟩
  | true =>
    by_cases again : 2 ≤ tail.streamFailures + 1
    · simp only [onClose, if_true, again]
      exact ⟨⟨counted, by simp [InStep]⟩, rfl⟩
    · simp only [onClose, if_true, again, if_false]
      exact ⟨⟨counted, trivial⟩, rfl⟩

/-- A chunk read off an open stream is received whole. -/
theorem onChunk_sound {buffered chunk rest : List Char} {body : Body} (level : Level server tail)
    (inStep : InStep parse server tail.head (.streaming buffered body))
    (cut : body.wire = chunk ++ rest) :
    Sound parse ⟨server, following,
        onChunk parse following buffered chunk { body with wire := rest } tail⟩ ∧
      (AllFaithful server tail.published → AllFaithful server
        (onChunk parse following buffered chunk { body with wire := rest } tail).published) := by
  obtain ⟨ahead, within, frames, spells, stretch⟩ := inStep
  rw [cut, ← List.append_assoc] at spells
  obtain ⟨done, left, kept, pushed, rfl, later⟩ := spells.push
  rw [committedOf_append] at stretch
  have length := congrArg List.length stretch
  simp only [List.length_append, List.length_drop, List.length_take] at length
  -- the frames of this chunk are the front of what the stream still owes
  have first : (batches [] done).flatten =
      (server.log.take (tail.head + (committedOf done).length)).drop tail.head := by
    have front := congrArg (List.take (committedOf done).length) stretch
    rw [List.take_left, List.take_drop, List.take_take, Nat.min_eq_left (by omega)] at front
    rw [flatten_batches, List.nil_append]
    exact front
  have others : committedOf left =
      (server.log.take body.sent).drop (tail.head + (committedOf done).length) := by
    have back := congrArg (List.drop (committedOf done).length) stretch
    rwa [List.drop_left, List.drop_drop] at back
  obtain ⟨received, receives, standing, head, faithful⟩ :=
    @exists_receiveAll server following tail _ _ level (ne_nil_of_mem_batches [] done)
      (Nat.le_add_right ..) (by omega) first
  simp only [onChunk, pushed, receives]
  refine ⟨⟨standing, ?_, within, left, later, ?_⟩, faithful⟩
  · dsimp only
    omega
  · rw [head]
    exact others

/-- An answer to a poll is received, and keeps what is published faithful exactly when it is
timely. -/
theorem answers_sound {unanswered : List Nat} {index position upTo : Nat}
    (level : Level server tail) (inStep : InStep parse server tail.head (.polling unanswered))
    (sent : unanswered[index]? = some position) (within : upTo ≤ server.log.length)
    (receives : receive following (answer server position upTo) tail = .ok received ∨
      receive following (answer server position upTo) tail = .error received) :
    Sound parse ⟨server, following, .tailing received (.polling (unanswered.eraseIdx index))⟩ ∧
      (AllFaithful server tail.published → (AllFaithful server received.published ↔
        answer server position upTo = [] ∨ position = tail.head + 1)) := by
  obtain ⟨positive, bound⟩ := inStep position (List.mem_of_getElem? sent)
  obtain ⟨before, rfl⟩ : ∃ before, position = before + 1 := ⟨position - 1, by omega⟩
  have stretch : answer server (before + 1) upTo = (server.log.take upTo).drop before :=
    readFrom_take server.numbered before upTo
  have left : ∀ start ∈ unanswered.eraseIdx index, 0 < start ∧ start ≤ tail.head + 1 :=
    fun start member => inStep start (List.mem_of_mem_eraseIdx member)
  by_cases none' : answer server (before + 1) upTo = []
  · -- nothing arrived
    rw [none', receive_nil] at receives
    obtain rfl : tail = received := by simpa using receives
    exact ⟨⟨level, left⟩, fun all => iff_of_true all (.inl none')⟩
  · obtain ⟨whole, received', done⟩ :=
      @exists_receive server following tail _ before upTo level (by omega) within stretch none'
    rw [received'] at receives
    obtain rfl : whole = received := by simpa using receives
    have standing := done.level level within
    refine ⟨⟨standing, fun start member => ?_⟩, fun all => ?_⟩
    · have earlier := left start member
      have head := done.head
      omega
    · have brings : before < upTo := by
        rw [stretch] at none'
        have some' := List.length_pos_iff.mpr none'
        rw [List.length_drop, List.length_take] at some'
        omega
      rw [done.faithful_iff standing all, done.head, stretch,
        continues_iff level all (by omega) within brings]
      rw [stretch] at none'
      simp [none']

theorem Step.sound (step : Step parse system act other) (sound : Sound parse system) :
    Sound parse other ∧ (AllFaithful system.server system.connection.published →
      (AllFaithful other.server other.connection.published ↔ Timely system act)) := by
  have quiet : ∀ server, AllFaithful server [] := by simp [AllFaithful]
  cases step with
  | commits server grown =>
    obtain ⟨earlier, following, connection⟩ := system
    dsimp only at grown
    cases connection with
    | building =>
      obtain ⟨upTo, within, served⟩ := sound
      refine ⟨⟨upTo, within.trans grown.length_le, ?_⟩, fun _ => iff_of_true (quiet _) trivial⟩
      exact served.trans (take_grown grown within).symm
    | tailing =>
      refine ⟨⟨sound.1.mono grown, sound.2.mono grown⟩, fun all => iff_of_true ?_ trivial⟩
      exact fun shown member => (all shown member).mono grown
    | _ => exact ⟨trivial, fun _ => iff_of_true (quiet _) trivial⟩
  | follows => exact ⟨sound, fun all => iff_of_true all trivial⟩
  | @scrubs server following tail mode upTo replica folds =>
    obtain ⟨level, inStep⟩ := sound
    have same : replica.events = tail.replica.events := by
      obtain ⟨graph, folded, _⟩ := Committed.exists_foldThrough level.held upTo
      rw [folded] at folds
      cases folds
      rfl
    refine ⟨⟨⟨level.within, ?_, level.shown⟩, inStep⟩, fun all => iff_of_true all trivial⟩
    exact same.trans level.held
  | @fetched server following upTo within =>
    refine ⟨⟨upTo, within, ?_⟩, fun all => iff_of_true all trivial⟩
    exact readFrom_zero _
  | fetchFails | buildFails => exact ⟨trivial, fun all => iff_of_true all trivial⟩
  | @built server following initial replica builds =>
    obtain ⟨upTo, within, served⟩ := sound
    dsimp only at within served
    subst served
    obtain ⟨level, all⟩ := connected_faithful within builds
    exact ⟨⟨level, rfl⟩, fun _ => iff_of_true all trivial⟩
  | opens =>
    obtain ⟨level, rfl⟩ := sound
    refine ⟨⟨⟨level.within, level.held, level.shown⟩, ?_⟩, fun all => iff_of_true all trivial⟩
    refine ⟨le_rfl, level.within, [], .nil, ?_⟩
    simp
  | refused server following tail position =>
    obtain ⟨after, same⟩ := @onClose_sound _ _ _ parse server following tail true sound.1
    refine ⟨after, fun all => iff_of_true ?_ trivial⟩
    rw [same]
    exact all
  | @sends server following tail buffered body event json next line parses =>
    obtain ⟨level, ahead, within, frames, spells, stretch⟩ := sound
    refine ⟨⟨level, ?_⟩, fun all => iff_of_true all trivial⟩
    have more : body.sent < server.log.length := (List.getElem?_eq_some_iff.mp next).1
    refine ⟨by dsimp only; omega, more, frames ++ [.event event], ?_, ?_⟩
    · have last : Spells parse (dataEvent json) [.event event] := by
        simpa using Spells.frame line parses .nil
      rw [← List.append_assoc]
      exact spells.append last
    · rw [committedOf_append, stretch, List.take_add_one, next]
      exact (List.drop_append_of_le_length (by rw [List.length_take]; omega)).symm
  | @sendsOther server following tail buffered body text others spelled other =>
    obtain ⟨level, ahead, within, frames, spells, stretch⟩ := sound
    refine ⟨⟨level, ahead, within, frames ++ others, ?_, ?_⟩, fun all => iff_of_true all trivial⟩
    · rw [← List.append_assoc]
      exact spells.append spelled
    · rw [committedOf_append, other, List.append_nil, stretch]
  | @reads server following tail buffered chunk rest body cut =>
    obtain ⟨after, kept⟩ := @onChunk_sound _ _ _ parse server following tail buffered chunk rest body
      sound.1 sound.2 cut
    exact ⟨after, fun all => iff_of_true (kept all) trivial⟩
  | closes server following tail buffered body failed =>
    obtain ⟨after, same⟩ := @onClose_sound _ _ _ parse server following tail failed sound.1
    refine ⟨after, fun all => iff_of_true ?_ trivial⟩
    rw [same]
    exact all
  | reopens => exact ⟨⟨sound.1, rfl⟩, fun all => iff_of_true all trivial⟩
  | polls =>
    obtain ⟨level, inStep⟩ := sound
    refine ⟨⟨level, fun start member => ?_⟩, fun all => iff_of_true all trivial⟩
    rcases List.mem_append.mp member with earlier | new
    · exact inStep start earlier
    · rw [List.mem_singleton.mp new]
      omega
  | @answers server following tail received unanswered index position upTo sent within receives =>
    obtain ⟨after, faithful⟩ := @answers_sound _ _ _ parse server following tail received unanswered
      index position upTo sound.1 sound.2 sent within receives
    refine ⟨after, fun all => (faithful all).trans ?_⟩
    simp [Timely, sent]
  | pollFails =>
    refine ⟨⟨sound.1, fun start member => ?_⟩, fun all => iff_of_true all trivial⟩
    exact sound.2 start (List.mem_of_mem_eraseIdx member)
  | hangsUp => exact ⟨trivial, fun _ => iff_of_true (quiet _) trivial⟩

end Steps

/-- Everything a connection publishes is the committed log up to its head, and its fold while
following, in every state of a run, if and only if every poll's answer that brings events
comes while the head is the one the poll was sent from. -/
theorem tail_is_log_iff :
    ∀ (π ρ ε : Type) (parse : List Char → Except ε (StreamFrame π ρ)) (server : Committed)
      (following : Bool) (acts : List Act) (final : System),
      (∀ system, Trace.Visits (Step parse) (start server following) acts final system →
          AllFaithful system.server system.connection.published) ↔
        ∀ system act other,
          Trace.Takes (Step parse) (start server following) acts final system act other →
            Timely system act := by
  intro π ρ ε parse server following acts final
  refine Trace.visited_iff_taken (Sound parse)
    (fun system => AllFaithful system.server system.connection.published) Timely trivial ?_ ?_ ?_
  · simp [start, Connection.published, AllFaithful]
  · exact fun _ _ _ step sound => (step.sound sound).1
  · exact fun _ _ _ step sound => (step.sound sound).2

/-- Whatever is polled, answered, dropped or reopened, the replica of a connection is the committed
log up to its head, and with what an open stream still carries it is what was sent. -/
theorem replica_is_log {parse : List Char → Except ε (StreamFrame π ρ)} {server : Committed}
    {following : Bool} {acts : List Act} {final : System}
    (run : Trace (Step parse) (start server following) acts final) {tail : Tail} {mode : Mode}
    (tailing : final.connection = .tailing tail mode) :
    tail.head ≤ final.server.log.length ∧
      tail.replica.events = final.server.log.take tail.head ∧
      ∀ buffered body, mode = .streaming buffered body → ∃ frames,
        Spells parse (buffered ++ body.wire) frames ∧
          tail.replica.events ++ committedOf frames = final.server.log.take body.sent := by
  have sound : Sound parse final :=
    run.invariant (Sound parse) (fun _ _ _ step sound => (step.sound sound).1) trivial
  obtain ⟨later, _, _⟩ := final
  subst tailing
  obtain ⟨level, inStep⟩ := sound
  refine ⟨level.within, level.held, ?_⟩
  rintro buffered body rfl
  obtain ⟨ahead, _, frames, spells, stretch⟩ := inStep
  have whole := List.take_append_drop tail.head (later.log.take body.sent)
  rw [List.take_take, Nat.min_eq_left ahead] at whole
  refine ⟨frames, spells, ?_⟩
  rw [stretch, level.held]
  exact whole

/-! Two polls sent from the empty log, both answered once its first event is committed. -/

namespace Overlap

def server : Committed := ⟨[creation], fullyCreated, ⟨rfl, trivial⟩, rfl⟩

/-- No stream opens, so nothing is parsed. -/
def unread : List Char → Except Unit (StreamFrame Unit Unit) := fun _ => .error ()

def demoted : Tail :=
  { connected true [] ⟨[], Graph.fresh, 0⟩ with streamFailures := 2 }

def once : Tail :=
  publish true
    { demoted with replica := ⟨[creation], fullyCreated, 1⟩, events := [creation], head := 1 }

def twice : Tail := publish true { once with events := [creation, creation] }

theorem sortBySeq_nil : sortBySeq [] = [] := List.mergeSort_nil

theorem new_nil : Replica.new [] = .ok ⟨[], Graph.fresh, 0⟩ := by
  rw [Replica.new, sortBySeq_nil]
  rfl

theorem receive_once : receive true [creation] demoted = .ok once := by
  have sorted : sortBySeq [creation] = [creation] := List.mergeSort_singleton _
  have appended : demoted.replica.append [creation] = ⟨[creation], Graph.fresh, 0⟩ := by
    rw [Replica.append]
    exact congrArg (fun events => Replica.mk events Graph.fresh 0) sorted
  rw [receive, appendBatch, if_neg (by simp)]
  simp only [if_true, appended]
  rfl

theorem receive_twice : receive true [creation] once = .ok twice := by
  have appended : once.replica.append [creation] = once.replica := by
    rw [Replica.append]
    exact congrArg (fun events => Replica.mk ([creation] ++ events) fullyCreated 1) sortBySeq_nil
  rw [receive, appendBatch, if_neg (by simp)]
  simp only [if_true, appended]
  rfl

/-- A console that has fetched one event holds it. -/
theorem fetched_replica : 1 ≤ server.log.length ∧ [creation] = server.log.take 1 := by
  obtain ⟨graph, built, _⟩ := @Committed.exists_new server 1 le_rfl
  have run : Trace (Step unread) (start server true) [.fetched 1, .built] _ :=
    .cons (Step.fetched le_rfl) (.single (Step.built built))
  have held := replica_is_log run rfl
  exact ⟨held.1, held.2.1⟩

/-- Demoted to polling, the console polls twice before it is answered, and publishes the one
committed event twice. -/
theorem polled_twice :
    ∃ acts final, Trace (Step unread) (start Committed.fresh true) acts final ∧
      ¬AllFaithful final.server final.connection.published := by
  refine ⟨[.fetched 0, .built, .refused, .reopens, .refused, .commits, .polls, .polls,
    .answers 0 1, .answers 0 1], ⟨server, true, .tailing twice (.polling [])⟩, ?_, ?_⟩
  · refine .cons (Step.fetched le_rfl) ?_
    refine .cons (Step.built new_nil) ?_
    refine .cons (Step.refused ..) ?_
    refine .cons (Step.reopens ..) ?_
    refine .cons (Step.refused ..) ?_
    refine .cons (Step.commits server (List.nil_prefix ..)) ?_
    refine .cons (Step.polls ..) ?_
    refine .cons (Step.polls ..) ?_
    refine .cons (Step.answers rfl le_rfl (.inl receive_once)) ?_
    exact .cons (Step.answers rfl le_rfl (.inl receive_twice)) (.nil _)
  · intro all
    have shown := (all _ (List.mem_cons_self ..)).events
    have lengths := congrArg List.length shown
    exact absurd lengths (by decide)

end Overlap

end Zuihitsu.Console
