/-
# How long a burst can supersede

A turn that newer batches overtake gives way, so the deadline after which it no
longer does counts from the oldest batch nobody has answered. What is owed an
answer is read off the acts of a run; the entry keeps the same arrivals as long as
no ticket is dropped while an older batch is owed.
-/

import Zuihitsu.Turn.Admission

namespace Zuihitsu.Turn

open Zuihitsu.Core Zuihitsu.Library

/-! ### What is owed, and the clock -/

/-- A turn answers a batch when it is the batch's own or a later one of the conversation. -/
def TurnAdmission.answers (admission : TurnAdmission) (batch : TurnTicket) : Bool :=
  batch.conversation = admission.conversation ∧
    (batch.channel < admission.channel ∨
      (batch.channel = admission.channel ∧ batch.epoch ≤ admission.epoch))

/-- A batch came to its conversation before another. -/
def TurnTicket.Before (earlier later : TurnTicket) : Prop :=
  earlier.conversation = later.conversation ∧
    (earlier.channel < later.channel ∨
      (earlier.channel = later.channel ∧ earlier.epoch < later.epoch))

/-- The batches owed an answer after an act. A completed turn answers its batch and every
earlier one, a superseded turn answers none, and a dropped ticket gives up its own. -/
def Act.owe (owed : List TurnTicket) : Act → List TurnTicket
  | .arrive ticket => owed ++ [ticket]
  | .abandon ticket => owed.filter fun batch => batch ≠ ticket
  | .finish turn false => owed.filter fun batch => !turn.admission.answers batch
  | .finish _ true | .admits _ _ | .check _ _ _ => owed

/-- The reading of the clock an act takes. -/
def Act.reading : Act → Option Timestamp
  | .arrive ticket => some ticket.arrivedAt
  | .check _ now _ => some now
  | .admits _ _ | .abandon _ | .finish _ _ => none

/-- The ledger under a clock, with the batches nobody has answered, in order of arrival. -/
structure Clocked where
  line : Line := {}
  owed : List TurnTicket := []
  clock : Timestamp

namespace Clocked

/-- The batches of a conversation nobody has answered. -/
def owedOf (state : Clocked) (conversation : ConversationId) : List TurnTicket :=
  state.owed.filter fun batch => batch.conversation = conversation

/-- A step of the ledger under a clock that does not go back. A turn is marked superseded
only when its handle said so. -/
structure Step (before : Clocked) (act : Act) (after : Clocked) : Prop where
  line : before.line.Step act after.line
  owed : after.owed = act.owe before.owed
  time : before.clock.millis ≤ after.clock.millis
  reading : ∀ now, act.reading = some now → after.clock = now
  marked : ∀ turn, act = .finish turn true → turn.overtaken = true

/-- The oldest batch of a conversation nobody has answered arrived at the instant. -/
def OldestAt (state : Clocked) (conversation : ConversationId) (instant : Timestamp) : Prop :=
  ∃ batch ∈ state.owedOf conversation, batch.arrivedAt = instant ∧
    ∀ other ∈ state.owedOf conversation,
      ¬ other.Before batch ∧ batch.arrivedAt.millis ≤ other.arrivedAt.millis

/-- The deadline counts from the oldest batch owed: an admitted turn is given its arrival,
no turn is found superseded more than the window past the arrival of a batch it would
answer, and none at all with a zero window. -/
def Bounded (before : Clocked) : Act → Prop
  | .admits _ admission => before.OldestAt admission.conversation admission.burstStartedAt
  | .check turn now true =>
    turn.admission.window.isZero = false ∧
      ∀ batch ∈ before.owed, turn.admission.answers batch = true →
        (now.millis - batch.arrivedAt.millis) * 1_000_000 ≤ turn.admission.window.nanos
  | _ => True

/-- A ticket is dropped only when no older batch of its conversation is owed an answer. -/
def DropsOldest (before : Clocked) : Act → Prop
  | .abandon ticket => ∀ batch ∈ before.owed, ¬ batch.Before ticket
  | _ => True

end Clocked

/-! ### One conversation's arrivals -/

/-- A turn under way is anchored at the batches owed when it was admitted. -/
structure InFlight.Anchored (turn : InFlight) (supersede : Nat) (owed : List TurnTicket) :
    Prop where
  own : ∃ batch ∈ owed, batch.epoch = turn.admission.epoch
  burst : ∀ batch ∈ owed, batch.epoch ≤ turn.admission.epoch →
    turn.admission.burstStartedAt.millis ≤ batch.arrivedAt.millis
  overtaken : turn.overtaken = true → turn.admission.epoch < supersede
  armed : turn.handle.armed = true → turn.admission.window.isZero = false

/-- An entry's arrivals are the batches owed, each holder's among them, and nobody has left
the line before an earlier holder. -/
structure ConversationTurns.Owes (entry : ConversationTurns) (tickets : List TurnTicket)
    (turns : List InFlight) (owed : List TurnTicket) : Prop where
  finished : entry.finished = ∅
  arrivals : entry.arrivals = owed.map fun batch => ⟨batch.epoch, batch.arrivedAt⟩
  channel : ∀ batch ∈ owed, batch.channel = entry.channel
  next : ∀ batch ∈ owed, batch.epoch < entry.nextEpoch
  ordered : owed.Pairwise fun earlier later =>
    earlier.epoch < later.epoch ∧ earlier.arrivedAt.millis ≤ later.arrivedAt.millis
  tickets : ∀ ticket ∈ tickets, ticket ∈ owed
  turns : ∀ turn ∈ turns, turn.Anchored entry.supersede owed

section Owes

variable {entry : ConversationTurns} {tickets tickets' : List TurnTicket}
variable {turns turns' : List InFlight} {owed : List TurnTicket} {ticket batch : TurnTicket}
variable {turn : InFlight}

theorem ConversationTurns.leave_finished {epoch : Nat} {how : Exit}
    (serves : entry.serving = epoch) (none : entry.finished = ∅) :
    (entry.leave epoch how).finished = ∅ := by
  have advanced : ((entry.discount how).advance epoch).finished = ∅ := by
    rw [ConversationTurns.advance,
      if_pos (show (entry.discount how).serving = epoch from serves)]
    simp [ConversationTurns.discount, none, drain, drainWith]
  unfold ConversationTurns.leave
  split
  · exact advanced
  · exact advanced

namespace ConversationTurns.Owes

theorem subset (owes : entry.Owes tickets turns owed) (first : tickets' ⊆ tickets)
    (second : turns' ⊆ turns) : entry.Owes tickets' turns' owed where
  finished := owes.finished
  arrivals := owes.arrivals
  channel := owes.channel
  next := owes.next
  ordered := owes.ordered
  tickets := fun ticket member => owes.tickets ticket (first member)
  turns := fun turn member => owes.turns turn (second member)

theorem join (owes : entry.Owes tickets turns owed) (level : entry.supersede + 1 = entry.nextEpoch)
    (channel : ticket.channel = entry.channel) (epoch : ticket.epoch = entry.nextEpoch)
    (late : ∀ batch ∈ owed, batch.arrivedAt.millis ≤ ticket.arrivedAt.millis)
    (running : ∀ turn ∈ turns, turn.admission.epoch < entry.nextEpoch) :
    (entry.join ticket.arrivedAt).Owes (ticket :: tickets) turns (owed ++ [ticket]) where
  finished := owes.finished
  arrivals := by
    rw [List.map_append, ← owes.arrivals, List.map_singleton, epoch]
    rfl
  channel := by
    intro batch member
    rcases List.mem_append.mp member with before | last
    · exact owes.channel batch before
    · exact List.mem_singleton.mp last ▸ channel
  next := by
    intro batch member
    rcases List.mem_append.mp member with before | last
    · exact Nat.lt_succ_of_lt (owes.next batch before)
    · rw [List.mem_singleton.mp last, epoch]
      exact Nat.lt_succ_self _
  ordered := by
    refine List.pairwise_append.mpr ⟨owes.ordered, List.pairwise_singleton _ _, ?_⟩
    intro batch before later last
    rw [List.mem_singleton.mp last, epoch]
    exact ⟨owes.next batch before, late batch before⟩
  tickets := by
    intro other member
    rcases List.mem_cons.mp member with rfl | before
    · exact List.mem_append_right _ List.mem_cons_self
    · exact List.mem_append_left _ (owes.tickets other before)
  turns := by
    intro turn member
    have anchored := owes.turns turn member
    refine ⟨?_, ?_, fun overtaken => ?_, anchored.armed⟩
    · obtain ⟨batch, within, same⟩ := anchored.own
      exact ⟨batch, List.mem_append_left _ within, same⟩
    · intro batch within upTo
      rcases List.mem_append.mp within with before | last
      · exact anchored.burst batch before upTo
      · -- the new batch comes after every turn under way
        rw [List.mem_singleton.mp last, epoch] at upTo
        exact absurd (running turn member) (Nat.not_lt_of_le upTo)
    · have below := anchored.overtaken overtaken
      simp only [ConversationTurns.join]
      omega

theorem first (epoch : ticket.epoch = 0) :
    (({ channel := ticket.channel } : ConversationTurns).join ticket.arrivedAt).Owes
      [ticket] [] [ticket] where
  finished := rfl
  arrivals := by simp [ConversationTurns.join, epoch]
  channel := by simp [ConversationTurns.join]
  next := by simp [ConversationTurns.join, epoch]
  ordered := List.pairwise_singleton _ _
  tickets := fun _ member => member
  turns := fun _ member => nomatch member

theorem oldest (owes : entry.Owes tickets turns owed) (some : batch ∈ owed) (own : Timestamp) :
    ∃ oldest ∈ owed, oldest.arrivedAt = entry.burstStart own ∧ ∀ other ∈ owed,
      oldest.epoch ≤ other.epoch ∧ oldest.arrivedAt.millis ≤ other.arrivedAt.millis := by
  have arrivals := owes.arrivals
  have ordered := owes.ordered
  cases owed with
  | nil => cases some
  | cons oldest rest =>
    refine ⟨oldest, List.mem_cons_self, by rw [ConversationTurns.burstStart, arrivals]; rfl, ?_⟩
    intro other member
    rcases List.mem_cons.mp member with rfl | later
    · exact ⟨Nat.le_refl _, Int.le_refl _⟩
    · obtain ⟨epochs, instants⟩ := List.rel_of_pairwise_cons ordered later
      exact ⟨Nat.le_of_lt epochs, instants⟩

theorem enter (owes : entry.Owes (ticket :: tickets) turns owed) (window : Duration) :
    entry.enter.Owes tickets
      (TurnAdmission.start ⟨ticket.conversation, ticket.channel, ticket.epoch,
        entry.burstStart ticket.arrivedAt, window⟩ :: turns) owed where
  finished := owes.finished
  arrivals := owes.arrivals
  channel := owes.channel
  next := owes.next
  ordered := owes.ordered
  tickets := fun other member => owes.tickets other (List.mem_cons_of_mem _ member)
  turns := by
    intro turn member
    rcases List.mem_cons.mp member with rfl | before
    · have own := owes.tickets ticket List.mem_cons_self
      obtain ⟨oldest, _, start, least⟩ := owes.oldest own ticket.arrivedAt
      refine ⟨⟨ticket, own, rfl⟩, fun batch within _ => ?_, (fun no => nomatch no),
        fun armed => ?_⟩
      · have early := (least batch within).2
        rwa [start] at early
      · exact Bool.not_eq_eq_eq_not.mp armed
    · exact owes.turns turn before

theorem leave (owes : entry.Owes tickets turns owed) {epoch : Nat} (serves : entry.serving = epoch)
    {how : Exit} (others : tickets' ⊆ tickets) (after : ∀ ticket ∈ tickets', epoch < ticket.epoch) :
    (entry.leave epoch how).Owes tickets' []
      (if how.isSuperseded then owed else owed.filter fun batch => epoch < batch.epoch) := by
  have fewer : (if how.isSuperseded then owed else owed.filter fun batch => epoch < batch.epoch).Sublist
      owed := by
    split
    · exact List.Sublist.refl _
    · exact List.filter_sublist
  refine ⟨leave_finished serves owes.finished, ?_, ?_, ?_, owes.ordered.sublist fewer, ?_, ?_⟩
  · rw [leave_arrivals, owes.arrivals]
    split
    · rfl
    · rw [List.filter_map]
      rfl
  · intro batch member
    rw [leave_channel]
    exact owes.channel batch (fewer.subset member)
  · intro batch member
    rw [leave_nextEpoch]
    exact owes.next batch (fewer.subset member)
  · intro ticket member
    have before := owes.tickets ticket (others member)
    split
    · exact before
    · exact List.mem_filter.mpr ⟨before, by simpa using after ticket member⟩
  · exact fun _ impossible => nomatch impossible

theorem check (owes : entry.Owes tickets (turn :: turns) owed) {armed answer : Bool}
    (latched : armed = true → turn.handle.armed = true)
    (saw : answer = true → turn.admission.epoch < entry.supersede) :
    entry.Owes tickets ({ turn with
      handle := { turn.handle with armed }, overtaken := turn.overtaken || answer } :: turns)
      owed where
  finished := owes.finished
  arrivals := owes.arrivals
  channel := owes.channel
  next := owes.next
  ordered := owes.ordered
  tickets := owes.tickets
  turns := by
    intro other member
    rcases List.mem_cons.mp member with rfl | before
    · have anchored := owes.turns turn List.mem_cons_self
      refine ⟨anchored.own, anchored.burst, fun overtaken => ?_, fun still => ?_⟩
      · rcases Bool.or_eq_true_iff.mp overtaken with already | now
        · exact anchored.overtaken already
        · exact saw now
      · exact anchored.armed (latched still)
    · exact owes.turns other (List.mem_cons_of_mem _ before)

theorem next_of_last (owes : entry.Owes tickets turns owed)
    (fits : entry.Fits tickets turns) {epoch : Nat} (last : epochsOf tickets turns = [epoch]) :
    entry.nextEpoch = epoch + 1 := by
  have tracks := fits.tracks
  rw [last] at tracks
  have held : epoch ∈ [epoch].toFinset := by simp
  obtain ⟨from_, below⟩ := tracks.range epoch held
  by_contra more
  have further : epoch + 1 ∈ [epoch].toFinset := by
    refine (tracks.held_iff (epoch + 1) (Nat.le_succ_of_le from_) ?_).mpr ?_
    · change epoch + 1 < entry.nextEpoch
      have : epoch < entry.nextEpoch := below
      omega
    · change epoch + 1 ∉ entry.finished
      rw [owes.finished]
      exact Finset.notMem_empty _
  simp at further

end ConversationTurns.Owes

end Owes

/-! ### Runs under a clock -/

namespace Clocked

/-- Every conversation's entry keeps the arrivals owed, and goes when nothing is owed. -/
structure Kept (state : Clocked) : Prop where
  sound : state.line.Sound
  clock : ∀ batch ∈ state.owed, batch.arrivedAt.millis ≤ state.clock.millis
  absent : ∀ conversation, state.line.ledger.conversations conversation = none →
    state.owedOf conversation = []
  present : ∀ conversation entry, state.line.ledger.conversations conversation = some entry →
    entry.Owes (state.line.ticketsOf conversation) (state.line.turnsOf conversation)
      (state.owedOf conversation)

section Kept

variable {before after : Clocked} {act : Act} {ticket batch : TurnTicket} {turn : InFlight}
variable {conversation other : ConversationId}

theorem mem_owedOf :
    batch ∈ before.owedOf conversation ↔
      batch ∈ before.owed ∧ batch.conversation = conversation := by
  simp [owedOf]

theorem start (clock : Timestamp) : Kept { clock } where
  sound := Line.Sound.start
  clock := fun _ impossible => nomatch impossible
  absent := fun _ _ => rfl
  present := fun _ _ impossible => nomatch impossible

theorem Step.mem_owed (taken : Step before act after) (owed : batch ∈ after.owed) :
    batch ∈ before.owed ∨ act = .arrive batch := by
  rw [taken.owed] at owed
  cases act with
  | arrive =>
    rcases List.mem_append.mp owed with still | new
    · exact .inl still
    · rw [List.mem_singleton.mp new]
      exact .inr rfl
  | abandon => exact .inl (List.mem_of_mem_filter owed)
  | finish turn superseded =>
    cases superseded with
    | true => exact .inl owed
    | false => exact .inl (List.mem_of_mem_filter owed)
  | admits | check => exact .inl owed

theorem Step.clock (taken : Step before act after) (kept : before.Kept) :
    ∀ batch ∈ after.owed, batch.arrivedAt.millis ≤ after.clock.millis := by
  intro batch owed
  rcases taken.mem_owed owed with still | new
  · exact Int.le_trans (kept.clock batch still) taken.time
  · rw [taken.reading batch.arrivedAt (by rw [new]; rfl)]

/-- What a step does to one conversation, and spares of the others. -/
theorem Kept.update (kept : before.Kept) (taken : Step before act after)
    (conversation : ConversationId)
    (others : ∀ other, other ≠ conversation →
      after.line.ledger.conversations other = before.line.ledger.conversations other ∧
      after.line.ticketsOf other ⊆ before.line.ticketsOf other ∧
      after.line.turnsOf other ⊆ before.line.turnsOf other ∧
      after.owedOf other = before.owedOf other)
    (absent : after.line.ledger.conversations conversation = none →
      after.owedOf conversation = [])
    (present : ∀ entry, after.line.ledger.conversations conversation = some entry →
      entry.Owes (after.line.ticketsOf conversation) (after.line.turnsOf conversation)
        (after.owedOf conversation)) : after.Kept where
  sound := kept.sound.step taken.line
  clock := taken.clock kept
  absent := by
    intro other gone
    by_cases same : other = conversation
    · subst same
      exact absent gone
    · obtain ⟨unchanged, _, _, owed⟩ := others other same
      rw [owed]
      exact kept.absent other (unchanged.symm.trans gone)
  present := by
    intro other entry found
    by_cases same : other = conversation
    · subst same
      exact present entry found
    · obtain ⟨unchanged, tickets, turns, owed⟩ := others other same
      rw [owed]
      exact (kept.present other entry (unchanged.symm.trans found)).subset tickets turns

theorem owedOf_of_owed {owed : List TurnTicket} (same : after.owed = owed) :
    after.owedOf conversation = owed.filter fun batch => batch.conversation = conversation := by
  rw [owedOf, same]

theorem owedOf_filter {spared : TurnTicket → Bool}
    (owed : after.owed = before.owed.filter spared)
    (others : ∀ batch ∈ before.owedOf conversation, spared batch = true) :
    after.owedOf conversation = before.owedOf conversation := by
  rw [owedOf_of_owed owed, List.filter_comm]
  exact List.filter_eq_self.mpr others

/-- What a check of a handle tells: the latch only closes, and a turn is found superseded
while its window is open and a newer epoch has been handed out. -/
theorem superseded_answer {line : Line} {entry : ConversationTurns} {handle : Supersession}
    {now : Timestamp} {answer : Bool}
    (held : turn.admission.channel = entry.channel ∧ turn.admission.epoch = entry.serving ∧
      ∃ armed, turn.handle = { turn.admission.supersession with armed })
    (found : line.ledger.conversations turn.admission.conversation = some entry)
    (checked : turn.handle.superseded line.ledger now = some (handle, answer)) :
    ∃ armed, handle = { turn.handle with armed } ∧
      (armed = true → turn.handle.armed = true) ∧
      (answer = true → turn.handle.armed = true ∧
        now.millis - turn.admission.burstStartedAt.millis ≤
          turn.admission.window.asMillisSigned ∧
        turn.admission.epoch < entry.supersede) := by
  obtain ⟨channel, _, armed, same⟩ := held
  have subscribed : line.ledger.subscribed turn.handle.conversation turn.handle.channel =
      some entry := by
    rw [same]
    exact TurnLedger.subscribed_eq_some.mpr ⟨found, channel.symm⟩
  rw [Supersession.superseded, subscribed, Option.map_some, Option.some_inj] at checked
  split at checked
  · rename_i open_
    split at checked
    · cases checked
      exact ⟨false, rfl, (fun impossible => nomatch impossible), fun no => nomatch no⟩
    · rename_i within
      cases checked
      refine ⟨_, rfl, fun _ => open_, fun newer => ⟨open_, ?_, ?_⟩⟩
      · rw [same] at within
        exact Int.not_lt.mp within
      · have level := of_decide_eq_true newer
        rwa [same] at level
  · cases checked
    exact ⟨_, rfl, fun still => still, fun no => nomatch no⟩

theorem Kept.arrive (kept : before.Kept) (taken : Step before (.arrive ticket) after) :
    after.Kept := by
  have owed : after.owed = before.owed ++ [ticket] := taken.owed
  have line := taken.line
  generalize named : after.line = reached at line
  cases line with
  | @arrive ledger _ arrives =>
  have other : ∀ other, other ≠ ticket.conversation →
      after.owedOf other = before.owedOf other := by
    intro other apart
    have elsewhere : [ticket].filter (fun batch => batch.conversation = other) = [] := by
      simp [Ne.symm apart]
    rw [owedOf_of_owed owed, List.filter_append, elsewhere, List.append_nil]
    rfl
  have here : after.owedOf ticket.conversation = before.owedOf ticket.conversation ++ [ticket] := by
    rw [owedOf_of_owed owed, List.filter_append, List.filter_cons_of_pos (by simp),
      List.filter_nil]
    rfl
  have tickets : after.line.ticketsOf ticket.conversation =
      ticket :: before.line.ticketsOf ticket.conversation := by
    rw [named]
    exact List.filter_cons_of_pos (by simp)
  have turns : after.line.turnsOf ticket.conversation =
      before.line.turnsOf ticket.conversation := by rw [named]; rfl
  have fits : ∃ entry, ledger.conversations ticket.conversation = some entry ∧
      entry.Owes (ticket :: before.line.ticketsOf ticket.conversation)
        (before.line.turnsOf ticket.conversation)
        (before.owedOf ticket.conversation ++ [ticket]) := by
    cases found : before.line.ledger.conversations ticket.conversation with
    | some entry =>
      rw [TurnLedger.arrive_some found] at arrives
      obtain ⟨rfl, handed⟩ := Prod.mk.inj arrives
      have channel : ticket.channel = entry.channel := by rw [← handed]
      have epoch : ticket.epoch = entry.nextEpoch := by rw [← handed]
      have fits := kept.sound.present _ entry found
      refine ⟨_, TurnLedger.put_same, (kept.present _ entry found).join fits.level channel epoch
        ?_ ?_⟩
      · intro batch member
        have before := kept.clock batch (mem_owedOf.mp member).1
        have now := taken.reading ticket.arrivedAt rfl
        exact Int.le_trans before (now ▸ taken.time)
      · intro turn member
        exact (fits.tracks.range _ (List.mem_toFinset.mpr
          (mem_epochsOf.mpr (.inr ⟨turn, member, rfl⟩)))).2
    | none =>
      rw [TurnLedger.arrive_none found] at arrives
      obtain ⟨rfl, handed⟩ := Prod.mk.inj arrives
      obtain ⟨noTicket, noTurn⟩ := kept.sound.absent _ found
      rw [noTicket, noTurn, kept.absent _ found]
      have channel : ticket.channel = before.line.ledger.made := by rw [← handed]
      have epoch : ticket.epoch = 0 := by rw [← handed]
      exact ⟨_, TurnLedger.put_same, channel ▸ ConversationTurns.Owes.first epoch⟩
  obtain ⟨entry, found, owes⟩ := fits
  refine kept.update taken ticket.conversation ?_ ?_ ?_
  · intro conversation apart
    have unchanged := @TurnLedger.arrive_other before.line.ledger _ _ ticket.arrivedAt apart
    rw [arrives] at unchanged
    refine ⟨by rw [named]; exact unchanged, ?_, by rw [named]; exact List.Subset.refl _,
      other conversation apart⟩
    rw [named, Line.ticketsOf, List.filter_cons_of_neg (by simpa using Ne.symm apart)]
    exact List.Subset.refl _
  · intro gone
    rw [named] at gone
    exact absurd (gone.symm.trans found) (by simp)
  · intro same present
    rw [named] at present
    cases found.symm.trans present
    rw [here, tickets, turns]
    exact owes

theorem Kept.admits (kept : before.Kept) {admission : TurnAdmission}
    (taken : Step before (.admits ticket admission) after) : after.Kept := by
  have owed : ∀ conversation, after.owedOf conversation = before.owedOf conversation :=
    fun _ => owedOf_of_owed taken.owed
  have line := taken.line
  generalize named : after.line = reached at line
  cases line with
  | @admits ledger _ window _ waits admits =>
  obtain ⟨entry, found, channel, serves, rfl, rfl⟩ := TurnTicket.admits_eq_some.mp admits
  have owes := (kept.present _ entry found).subset
    (Line.ticketsOf_erase waits).symm.subset (List.Subset.refl _)
  refine kept.update taken ticket.conversation ?_ ?_ ?_
  · intro other apart
    refine ⟨by rw [named]; exact TurnLedger.put_other apart, ?_, ?_, owed other⟩
    · rw [named]
      exact (Line.ticketsOf_erase_other waits apart).symm.subset
    · rw [named, Line.turnsOf, List.filter_cons_of_neg]
      · exact List.Subset.refl _
      · exact fun same => apart (of_decide_eq_true same).symm
  · intro gone
    rw [named] at gone
    exact absurd (gone.symm.trans TurnLedger.put_same) (by simp)
  · intro other present
    rw [named] at present
    cases TurnLedger.put_same.symm.trans present
    rw [owed, named]
    refine (owes.enter window).subset (List.Subset.refl _) ?_
    rw [Line.turnsOf, List.filter_cons_of_pos (by simp [TurnAdmission.start])]
    exact List.Subset.refl _

theorem Kept.check (kept : before.Kept) {now : Timestamp} {answer : Bool}
    (taken : Step before (.check turn now answer) after) : after.Kept := by
  have owed : ∀ conversation, after.owedOf conversation = before.owedOf conversation :=
    fun _ => owedOf_of_owed taken.owed
  have line := taken.line
  generalize named : after.line = reached at line
  cases line with
  | @check _ _ handle _ runs checked =>
  obtain ⟨entry, found⟩ := kept.sound.entry_of_turn runs
  have owes := (kept.present _ entry found).subset (List.Subset.refl _)
    (Line.turnsOf_erase runs).symm.subset
  have subscribed := (kept.sound.present _ entry found).turns turn
    (List.mem_filter.mpr ⟨runs, by simp⟩)
  obtain ⟨armed, rfl, latched, saw⟩ := superseded_answer subscribed found checked
  refine kept.update taken turn.admission.conversation ?_ ?_ ?_
  · intro other apart
    refine ⟨by rw [named], by rw [named]; exact List.Subset.refl _, ?_, owed other⟩
    rw [named, Line.turnsOf, List.filter_cons_of_neg (by simpa using Ne.symm apart)]
    exact (Line.turnsOf_erase_other runs apart).symm.subset
  · intro gone
    rw [named] at gone
    exact absurd (gone.symm.trans found) (by simp)
  · intro same present
    rw [named] at present
    cases found.symm.trans present
    rw [owed, named]
    refine (owes.check latched fun yes => (saw yes).2.2).subset (List.Subset.refl _) ?_
    rw [Line.turnsOf, List.filter_cons_of_pos (by simp)]
    exact List.Subset.refl _

/-- The holder being served leaves its conversation. -/
theorem Kept.exit (kept : before.Kept) (taken : Step before act after)
    {entry : ConversationTurns} {epoch : Nat} (how : Exit)
    (found : before.line.ledger.conversations conversation = some entry)
    (left : after.line.ledger = before.line.ledger.exit conversation epoch how)
    (others : ∀ other, other ≠ conversation →
      after.line.ticketsOf other ⊆ before.line.ticketsOf other ∧
      after.line.turnsOf other ⊆ before.line.turnsOf other ∧
      after.owedOf other = before.owedOf other)
    (holders : (epochsOf (before.line.ticketsOf conversation)
      (before.line.turnsOf conversation)).Perm
        (epoch :: (after.line.ticketsOf conversation).map (·.epoch)))
    (tickets : after.line.ticketsOf conversation ⊆ before.line.ticketsOf conversation)
    (turns : after.line.turnsOf conversation = []) (serves : entry.serving = epoch)
    (owed : after.owedOf conversation = if how.isSuperseded then before.owedOf conversation
      else (before.owedOf conversation).filter fun batch => epoch < batch.epoch)
    (overtaken : how.isSuperseded = true → epoch < entry.supersede) : after.Kept := by
  have fits := kept.sound.present _ entry found
  have owes := kept.present _ entry found
  have here : after.line.ledger.conversations conversation =
      if entry.outstanding - 1 = 0 then none else some (entry.leave epoch how) := by
    rw [left]
    exact TurnLedger.exit_some found
  refine kept.update taken conversation ?_ ?_ ?_
  · intro other apart
    refine ⟨?_, others other apart⟩
    rw [left]
    exact TurnLedger.exit_other apart
  · intro gone
    rw [here] at gone
    split at gone
    · rename_i last
      have counted := fits.outstanding
      have total := holders.length_eq
      simp only [epochsOf, List.length_append, List.length_map, List.length_cons] at total
      have alone : (after.line.ticketsOf conversation).map (·.epoch) = [] :=
        List.eq_nil_of_length_eq_zero (by rw [List.length_map]; omega)
      rw [alone] at holders
      have next := owes.next_of_last fits (List.perm_singleton.mp holders)
      rw [owed]
      split
      · -- a newer batch handed out would still be held
        rename_i superseded
        have newer := overtaken superseded
        have level := fits.level
        omega
      · refine List.filter_eq_nil_iff.mpr fun batch member => ?_
        have below := owes.next batch member
        simp only [decide_eq_true_eq]
        omega
    · cases gone
  · intro remaining present
    rw [here] at present
    split at present
    · cases present
    · cases present
      rw [owed, turns]
      refine owes.leave serves tickets fun ticket member => ?_
      have distinct := (List.nodup_cons.mp (holders.nodup_iff.mp fits.nodup)).1
      have least := (kept.sound.isLeast found).2
      have held : ticket.epoch ∈ before.line.epochs conversation :=
        mem_epochsOf.mpr (.inl ⟨ticket, tickets member, rfl⟩)
      have from_ : entry.serving ≤ ticket.epoch := least held
      refine Nat.lt_of_le_of_ne (serves ▸ from_) fun same => distinct ?_
      exact List.mem_map.mpr ⟨ticket, member, same.symm⟩

theorem eq_of_epoch {owed : List TurnTicket} {first second : TurnTicket}
    (ordered : owed.Pairwise fun earlier later =>
      earlier.epoch < later.epoch ∧ earlier.arrivedAt.millis ≤ later.arrivedAt.millis)
    (one : first ∈ owed) (two : second ∈ owed) (same : first.epoch = second.epoch) :
    first = second := by
  have distinct : (owed.map (·.epoch)).Nodup :=
    List.pairwise_map.mpr (ordered.imp fun both => Nat.ne_of_lt both.1)
  exact List.inj_on_of_nodup_map distinct one two same

theorem Kept.held (kept : before.Kept) {entry : ConversationTurns}
    (found : before.line.ledger.conversations conversation = some entry) {epoch : Nat}
    (holds : epoch ∈ before.line.epochs conversation) :
    ∃ batch ∈ before.owedOf conversation, batch.epoch = epoch := by
  have owes := kept.present _ entry found
  rcases mem_epochsOf.mp holds with ⟨ticket, member, same⟩ | ⟨turn, member, same⟩
  · exact ⟨ticket, owes.tickets ticket member, same⟩
  · obtain ⟨batch, owed, own⟩ := (owes.turns turn member).own
    exact ⟨batch, owed, own.trans same⟩

theorem Kept.serves (kept : before.Kept) {entry : ConversationTurns}
    (found : before.line.ledger.conversations ticket.conversation = some entry)
    (waits : ticket ∈ before.line.tickets) (oldest : before.DropsOldest (.abandon ticket)) :
    entry.serving = ticket.epoch := by
  have fits := kept.sound.present _ entry found
  have member : ticket ∈ before.line.ticketsOf ticket.conversation :=
    List.mem_filter.mpr ⟨waits, by simp⟩
  have held : ticket.epoch ∈ before.line.epochs ticket.conversation :=
    mem_epochsOf.mpr (.inl ⟨ticket, member, rfl⟩)
  obtain ⟨served, least⟩ := kept.sound.isLeast found
  obtain ⟨batch, owed, epoch⟩ := kept.held found served
  obtain ⟨within, named⟩ := mem_owedOf.mp owed
  have channel : batch.channel = ticket.channel :=
    ((kept.present _ entry found).channel batch owed).trans (fits.tickets ticket member).symm
  have before_ : entry.serving ≤ ticket.epoch := least held
  refine Nat.le_antisymm before_ (Nat.le_of_not_lt fun older => ?_)
  exact oldest batch within ⟨named, .inr ⟨channel, epoch ▸ older⟩⟩

theorem Kept.abandon (kept : before.Kept) (taken : Step before (.abandon ticket) after)
    (oldest : before.DropsOldest (.abandon ticket)) : after.Kept := by
  have owed : after.owed = before.owed.filter fun batch => batch ≠ ticket := taken.owed
  have line := taken.line
  generalize named : after.line = reached at line
  cases line with
  | abandon waits =>
  obtain ⟨entry, found⟩ := kept.sound.entry_of_ticket waits
  have serves := kept.serves found waits oldest
  have fits := kept.sound.present _ entry found
  have owes := kept.present _ entry found
  have remaining := Line.ticketsOf_erase waits
  have idle : before.line.turnsOf ticket.conversation = [] :=
    (fits.perm remaining (List.Perm.refl _)).turns_eq_nil serves
  have tickets : after.line.ticketsOf ticket.conversation =
      (before.line.tickets.erase ticket).filter fun other =>
        other.conversation = ticket.conversation := by rw [named]; rfl
  refine kept.exit taken .ticket found (by rw [named]) ?_ ?_ ?_ ?_ serves ?_ ?_
  · intro other apart
    rw [named]
    refine ⟨(Line.ticketsOf_erase_other waits apart).symm.subset, List.Subset.refl _,
      owedOf_filter owed fun batch member => ?_⟩
    have elsewhere := (mem_owedOf.mp member).2
    exact decide_eq_true fun same => apart (same ▸ elsewhere.symm)
  · rw [idle, tickets]
    exact epochsOf_perm remaining (List.Perm.refl _) |>.trans (List.Perm.of_eq (by simp [epochsOf]))
  · rw [tickets]
    exact fun other member => remaining.symm.subset (List.mem_cons_of_mem _ member)
  · rw [named]
    exact idle
  · rw [owedOf_of_owed owed, List.filter_comm]
    refine List.filter_congr fun batch member => ?_
    have mine : ticket ∈ before.owedOf ticket.conversation :=
      owes.tickets ticket (List.mem_filter.mpr ⟨waits, by simp⟩)
    have channel : batch.channel = ticket.channel :=
      (owes.channel batch member).trans (owes.channel ticket mine).symm
    obtain ⟨within, here⟩ := mem_owedOf.mp member
    refine decide_eq_decide.mpr ⟨fun different => ?_, fun later same => ?_⟩
    · refine Nat.lt_of_le_of_ne (Nat.le_of_not_lt fun older => ?_) fun same => ?_
      · exact oldest batch within ⟨here, .inr ⟨channel, older⟩⟩
      · exact different (eq_of_epoch owes.ordered member mine same.symm)
    · exact Nat.lt_irrefl _ (same ▸ later)
  · rintro ⟨⟩

theorem Kept.finish (kept : before.Kept) {superseded : Bool}
    (taken : Step before (.finish turn superseded) after) : after.Kept := by
  have line := taken.line
  generalize named : after.line = reached at line
  cases line with
  | finish runs =>
  obtain ⟨entry, found⟩ := kept.sound.entry_of_turn runs
  have fits := kept.sound.present _ entry found
  have owes := kept.present _ entry found
  have remaining := Line.turnsOf_erase runs
  have member : turn ∈ before.line.turnsOf turn.admission.conversation :=
    List.mem_filter.mpr ⟨runs, by simp⟩
  obtain ⟨channel, serves, _⟩ := fits.turns turn member
  have alone : (before.line.turns.erase turn).filter (fun other =>
      other.admission.conversation = turn.admission.conversation) = [] := by
    have most := fits.turns_length
    have total := remaining.length_eq
    rw [List.length_cons] at total
    exact List.eq_nil_of_length_eq_zero (by omega)
  have tickets : after.line.ticketsOf turn.admission.conversation =
      before.line.ticketsOf turn.admission.conversation := by rw [named]; rfl
  have idle : after.line.turnsOf turn.admission.conversation = [] := by
    rw [named]
    exact alone
  rw [alone] at remaining
  refine kept.exit taken (.admission superseded) found (by rw [named]) ?_ ?_ ?_ idle
    serves.symm ?_ ?_
  · intro other apart
    refine ⟨by rw [named]; exact List.Subset.refl _, ?_, ?_⟩
    · rw [named]
      exact (Line.turnsOf_erase_other runs apart).symm.subset
    · cases superseded with
      | true => exact owedOf_of_owed taken.owed
      | false =>
        refine owedOf_filter taken.owed fun batch within => ?_
        have elsewhere := (mem_owedOf.mp within).2
        simp [TurnAdmission.answers, elsewhere, apart]
  · rw [tickets]
    refine (epochsOf_perm (List.Perm.refl _) remaining).trans (epochsOf_turn.trans ?_)
    exact List.Perm.of_eq (by simp [epochsOf])
  · rw [tickets]
    exact List.Subset.refl _
  · cases superseded with
    | true => exact owedOf_of_owed taken.owed
    | false =>
      rw [owedOf_of_owed taken.owed, Act.owe, List.filter_comm]
      refine List.filter_congr fun batch within => ?_
      have here := (mem_owedOf.mp within).2
      have same := (owes.channel batch within).trans channel.symm
      simp only [TurnAdmission.answers, here, same, true_and, Nat.lt_irrefl, false_or]
      rw [← decide_not]
      exact decide_eq_decide.mpr Nat.not_le
  · intro marked
    have overtaken := taken.marked turn (by rw [show superseded = true from marked])
    exact (owes.turns turn member).overtaken overtaken

theorem Kept.step (kept : before.Kept) (taken : Step before act after)
    (oldest : before.DropsOldest act) : after.Kept := by
  cases act with
  | arrive => exact kept.arrive taken
  | admits => exact kept.admits taken
  | abandon => exact kept.abandon taken oldest
  | check => exact kept.check taken
  | finish => exact kept.finish taken

theorem Kept.oldestAt (kept : before.Kept) {admission : TurnAdmission}
    (taken : Step before (.admits ticket admission) after) :
    before.OldestAt admission.conversation admission.burstStartedAt := by
  have line := taken.line
  generalize after.line = reached at line
  cases line with
  | admits waits admits =>
  obtain ⟨entry, found, _, _, _, rfl⟩ := TurnTicket.admits_eq_some.mp admits
  have owes := kept.present _ entry found
  have mine := owes.tickets ticket (List.mem_filter.mpr ⟨waits, by simp⟩)
  obtain ⟨oldest, owed, start, least⟩ := owes.oldest mine ticket.arrivedAt
  refine ⟨oldest, owed, start, fun other within => ⟨fun older => ?_, (least other within).2⟩⟩
  have same : other.channel = oldest.channel :=
    (owes.channel other within).trans (owes.channel oldest owed).symm
  rcases older.2 with lower | ⟨_, earlier⟩
  · exact Nat.lt_irrefl _ (same ▸ lower)
  · exact Nat.not_le_of_lt earlier (least other within).1

theorem Kept.within_window (kept : before.Kept) {now : Timestamp}
    (taken : Step before (.check turn now true) after) :
    turn.admission.window.isZero = false ∧
      ∀ batch ∈ before.owed, turn.admission.answers batch = true →
        (now.millis - batch.arrivedAt.millis) * 1_000_000 ≤ turn.admission.window.nanos := by
  have line := taken.line
  generalize after.line = reached at line
  cases line with
  | check runs checked =>
  obtain ⟨entry, found⟩ := kept.sound.entry_of_turn runs
  have member : turn ∈ before.line.turnsOf turn.admission.conversation :=
    List.mem_filter.mpr ⟨runs, by simp⟩
  have holds := (kept.sound.present _ entry found).turns turn member
  obtain ⟨_, _, _, saw⟩ := superseded_answer holds found checked
  obtain ⟨armed, elapsed, _⟩ := saw rfl
  have owes := kept.present _ entry found
  have anchored := owes.turns turn member
  refine ⟨anchored.armed armed, fun batch owed answers => ?_⟩
  obtain ⟨here, order⟩ := of_decide_eq_true answers
  have within := mem_owedOf.mpr ⟨owed, here⟩
  have same : batch.channel = turn.admission.channel :=
    (owes.channel batch within).trans holds.1.symm
  have upTo : batch.epoch ≤ turn.admission.epoch := by
    rcases order with lower | ⟨_, upTo⟩
    · exact absurd (same ▸ lower) (Nat.lt_irrefl _)
    · exact upTo
  have started := anchored.burst batch within upTo
  have shorter := turn.admission.window.asMillisSigned_le
  have whole : turn.admission.window.asMillis * 1_000_000 ≤ turn.admission.window.nanos :=
    Nat.div_mul_le_self _ _
  omega

/-! The steps of the ledger, taken under the clock. -/
theorem step_arrive {ledger : TurnLedger}
    (arrives : before.line.ledger.arrive ticket.conversation ticket.arrivedAt = (ledger, ticket))
    (late : before.clock.millis ≤ ticket.arrivedAt.millis) :
    Step before (.arrive ticket)
      { line := { before.line with ledger, tickets := ticket :: before.line.tickets }
        owed := before.owed ++ [ticket], clock := ticket.arrivedAt } where
  line := .arrive arrives
  owed := rfl
  time := late
  reading := fun _ read => Option.some.inj read
  marked := fun _ no => nomatch no

theorem step_abandon (waits : ticket ∈ before.line.tickets) :
    Step before (.abandon ticket)
      { line := { before.line with
          ledger := before.line.ledger.exit ticket.conversation ticket.epoch .ticket
          tickets := before.line.tickets.erase ticket }
        owed := before.owed.filter fun batch => batch ≠ ticket, clock := before.clock } where
  line := .abandon waits
  owed := rfl
  time := Int.le_refl _
  reading := fun _ no => nomatch no
  marked := fun _ no => nomatch no

theorem step_admits {ledger : TurnLedger} {window : Duration} {admission : TurnAdmission}
    (waits : ticket ∈ before.line.tickets)
    (admits : ticket.admits before.line.ledger window = some (ledger, admission)) :
    Step before (.admits ticket admission)
      { line := { ledger, tickets := before.line.tickets.erase ticket,
                  turns := admission.start :: before.line.turns }
        owed := before.owed, clock := before.clock } where
  line := .admits waits admits
  owed := rfl
  time := Int.le_refl _
  reading := fun _ no => nomatch no
  marked := fun _ no => nomatch no

theorem step_check {now : Timestamp} {handle : Supersession} {answer : Bool}
    (runs : turn ∈ before.line.turns)
    (checked : turn.handle.superseded before.line.ledger now = some (handle, answer))
    (late : before.clock.millis ≤ now.millis) :
    Step before (.check turn now answer)
      { line := { before.line with
          turns := { turn with handle, overtaken := turn.overtaken || answer } ::
            before.line.turns.erase turn }
        owed := before.owed, clock := now } where
  line := .check runs checked
  owed := rfl
  time := late
  reading := fun _ read => Option.some.inj read
  marked := fun _ no => nomatch no

/-- While a first batch waits, a second one's connection drops and a third arrives: the
first's deadline counts from the third's arrival. -/
theorem burst_from_newer : ∃ acts after before one,
    Trace.Takes Step { clock := ⟨0⟩ } acts after before
      (.admits ⟨⟨1⟩, 0, 0, ⟨0⟩⟩ ⟨⟨1⟩, 0, 0, ⟨20⟩, ⟨60_000_000_000⟩⟩) one ∧
    ¬ before.Bounded (.admits ⟨⟨1⟩, 0, 0, ⟨0⟩⟩ ⟨⟨1⟩, 0, 0, ⟨20⟩, ⟨60_000_000_000⟩⟩) := by
  refine ⟨_, _, _, _, ⟨[.arrive ⟨⟨1⟩, 0, 0, ⟨0⟩⟩, .arrive ⟨⟨1⟩, 0, 1, ⟨10⟩⟩,
    .abandon ⟨⟨1⟩, 0, 1, ⟨10⟩⟩, .arrive ⟨⟨1⟩, 0, 2, ⟨20⟩⟩], [], rfl,
    .cons (step_arrive rfl (by decide)) (.cons (step_arrive rfl (by decide))
      (.cons (step_abandon (by decide)) (.cons (step_arrive rfl (by decide)) (.nil _)))),
    step_admits (by decide) rfl, .nil _⟩, ?_⟩
  rintro ⟨batch, _, arrived, least⟩
  have first := (least ⟨⟨1⟩, 0, 0, ⟨0⟩⟩ (by decide)).2
  rw [arrived] at first
  exact absurd first (by decide)

/-- In a run where no ticket is dropped before an older batch is answered, the deadline
counts from the oldest batch owed. -/
theorem bounded_of_run {acts : List Act} {clock : Timestamp}
    (oldest : ∀ one act two, Trace.Takes Step { clock } acts after one act two →
      one.DropsOldest act) :
    ∀ one act two, Trace.Takes Step { clock } acts after one act two → one.Bounded act := by
  intro one act two takes
  have kept : one.Kept := @Trace.visited_of_taken _ _ _ _ _ _ Kept DropsOldest (start clock)
    (fun _ _ _ taken kept oldest => kept.step taken oldest) oldest one takes.visits.1
  obtain ⟨_, _, _, _, taken, _⟩ := takes
  cases act with
  | admits => exact kept.oldestAt taken
  | check turn now answer =>
    cases answer with
    | true => exact kept.within_window taken
    | false => trivial
  | arrive | abandon | finish => trivial

/-- A first turn is found superseded by a second batch ten milliseconds after its own. -/
theorem bounded_of_overtaken : ∃ (before : Clocked) (turn : InFlight),
    turn.admission = (⟨⟨1⟩, 0, 0, ⟨0⟩, ⟨60_000_000_000⟩⟩ : TurnAdmission) ∧
    before.owed = [⟨⟨1⟩, 0, 0, ⟨0⟩⟩, ⟨⟨1⟩, 0, 1, ⟨10⟩⟩] ∧
    before.Bounded (.check turn ⟨20⟩ true) := by
  have takes : ∃ after before one, Trace.Takes Step { clock := ⟨0⟩ }
      [.arrive ⟨⟨1⟩, 0, 0, ⟨0⟩⟩,
        .admits ⟨⟨1⟩, 0, 0, ⟨0⟩⟩ ⟨⟨1⟩, 0, 0, ⟨0⟩, ⟨60_000_000_000⟩⟩,
        .arrive ⟨⟨1⟩, 0, 1, ⟨10⟩⟩,
        .check (TurnAdmission.start ⟨⟨1⟩, 0, 0, ⟨0⟩, ⟨60_000_000_000⟩⟩) ⟨20⟩ true]
      after before
      (.check (TurnAdmission.start ⟨⟨1⟩, 0, 0, ⟨0⟩, ⟨60_000_000_000⟩⟩) ⟨20⟩ true) one ∧
      before.owed = [⟨⟨1⟩, 0, 0, ⟨0⟩⟩, ⟨⟨1⟩, 0, 1, ⟨10⟩⟩] :=
    ⟨_, _, _, ⟨[_, _, _], [], rfl, .cons (step_arrive rfl (by decide))
      (.cons (step_admits (by decide) rfl) (.cons (step_arrive rfl (by decide)) (.nil _))),
      step_check (by decide) rfl (by decide), .nil _⟩, rfl⟩
  obtain ⟨after, before, one, takes, owed⟩ := takes
  refine ⟨before, _, rfl, owed, bounded_of_run ?_ before _ one takes⟩
  rintro state act next ⟨earlier, later, same, _⟩
  have member : act ∈ earlier ++ act :: later := List.mem_append_right _ List.mem_cons_self
  rw [← same] at member
  simp only [List.mem_cons, List.not_mem_nil, or_false] at member
  rcases member with rfl | rfl | rfl | rfl <;> trivial

end Kept

end Clocked

end Zuihitsu.Turn
