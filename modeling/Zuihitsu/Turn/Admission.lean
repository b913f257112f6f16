/-
# Runs of the turn ledger

Any number of batches arrive in any number of conversations, wait, are admitted,
abandon their tickets or finish their turns, in every order. What one
conversation's entry says of its holders is one invariant, kept by what each kind
of step does to the entry; the ledger's is that every conversation's holds.
-/

import Zuihitsu.Library.Trace
import Zuihitsu.Turn.Ledger

namespace Zuihitsu.Turn

open Zuihitsu.Core Zuihitsu.Library

/-! ### The line and its steps -/

/-- A turn under way: its hold on the conversation, its handle, and whether a check of the
handle has found it superseded. -/
structure InFlight where
  admission : TurnAdmission
  handle : Supersession
  overtaken : Bool := false
  deriving DecidableEq, Repr

/-- The turn an admission starts. -/
def TurnAdmission.start (admission : TurnAdmission) : InFlight :=
  { admission, handle := admission.supersession }

/-- The ledger with the live tickets and the turns under way. -/
structure Line where
  ledger : TurnLedger := {}
  tickets : List TurnTicket := []
  turns : List InFlight := []

/-- What happens at the ledger. -/
inductive Act where
  | arrive (ticket : TurnTicket)
  | admits (ticket : TurnTicket) (admission : TurnAdmission)
  | abandon (ticket : TurnTicket)
  | check (turn : InFlight) (now : Timestamp) (answer : Bool)
  | finish (turn : InFlight) (superseded : Bool)
  deriving DecidableEq

namespace Line

/-- One step: a batch arrives, a waiting ticket is admitted or dropped, a turn checks its
handle, or a turn ends. -/
inductive Step : Line → Act → Line → Prop
  | arrive {line : Line} {ledger : TurnLedger} {ticket : TurnTicket}
      (arrives : line.ledger.arrive ticket.conversation ticket.arrivedAt = (ledger, ticket)) :
      Step line (.arrive ticket) { line with ledger, tickets := ticket :: line.tickets }
  | admits {line : Line} {ledger : TurnLedger} {ticket : TurnTicket} {window : Duration}
      {admission : TurnAdmission} (waits : ticket ∈ line.tickets)
      (admits : ticket.admits line.ledger window = some (ledger, admission)) :
      Step line (.admits ticket admission)
        { ledger, tickets := line.tickets.erase ticket, turns := admission.start :: line.turns }
  | abandon {line : Line} {ticket : TurnTicket} (waits : ticket ∈ line.tickets) :
      Step line (.abandon ticket)
        { line with
          ledger := line.ledger.exit ticket.conversation ticket.epoch .ticket
          tickets := line.tickets.erase ticket }
  | check {line : Line} {turn : InFlight} {now : Timestamp} {handle : Supersession}
      {answer : Bool} (runs : turn ∈ line.turns)
      (checked : turn.handle.superseded line.ledger now = some (handle, answer)) :
      Step line (.check turn now answer)
        { line with
          turns := { turn with handle, overtaken := turn.overtaken || answer } ::
            line.turns.erase turn }
  | finish {line : Line} {turn : InFlight} {superseded : Bool} (runs : turn ∈ line.turns) :
      Step line (.finish turn superseded)
        { line with
          ledger := line.ledger.exit turn.admission.conversation turn.admission.epoch
            (.admission superseded)
          turns := line.turns.erase turn }

/-- The live tickets of a conversation. -/
def ticketsOf (line : Line) (conversation : ConversationId) : List TurnTicket :=
  line.tickets.filter fun ticket => ticket.conversation = conversation

/-- The live turns of a conversation. -/
def turnsOf (line : Line) (conversation : ConversationId) : List InFlight :=
  line.turns.filter fun turn => turn.admission.conversation = conversation

end Line

/-! ### One conversation's entry and its holders -/

/-- The epochs that tickets and turns hold. -/
def epochsOf (tickets : List TurnTicket) (turns : List InFlight) : List Nat :=
  tickets.map (·.epoch) ++ turns.map (·.admission.epoch)

/-- An entry agrees with the holders of its conversation. -/
structure ConversationTurns.Fits (entry : ConversationTurns) (tickets : List TurnTicket)
    (turns : List InFlight) : Prop where
  outstanding : entry.outstanding = tickets.length + turns.length
  admitted : entry.admitted = turns.length
  held : 0 < tickets.length + turns.length
  nodup : (epochsOf tickets turns).Nodup
  tracks : entry.counter.Tracks (epochsOf tickets turns).toFinset
  tickets : ∀ ticket ∈ tickets, ticket.channel = entry.channel
  turns : ∀ turn ∈ turns, turn.admission.channel = entry.channel ∧
    turn.admission.epoch = entry.serving ∧
    ∃ armed, turn.handle = { turn.admission.supersession with armed }
  level : entry.supersede + 1 = entry.nextEpoch

section Fits

variable {entry : ConversationTurns} {tickets tickets' : List TurnTicket}
variable {turns turns' : List InFlight} {ticket : TurnTicket} {turn : InFlight}

theorem mem_epochsOf {epoch : Nat} :
    epoch ∈ epochsOf tickets turns ↔
      (∃ ticket ∈ tickets, ticket.epoch = epoch) ∨
        ∃ turn ∈ turns, turn.admission.epoch = epoch := by
  simp [epochsOf]

@[simp] theorem epochsOf_cons :
    epochsOf (ticket :: tickets) turns = ticket.epoch :: epochsOf tickets turns := rfl

theorem epochsOf_perm (first : tickets.Perm tickets') (second : turns.Perm turns') :
    (epochsOf tickets turns).Perm (epochsOf tickets' turns') :=
  (first.map _).append (second.map _)

theorem epochsOf_turn :
    (epochsOf tickets (turn :: turns)).Perm (turn.admission.epoch :: epochsOf tickets turns) :=
  List.perm_middle

namespace ConversationTurns.Fits

theorem perm (fits : entry.Fits tickets turns) (first : tickets.Perm tickets')
    (second : turns.Perm turns') : entry.Fits tickets' turns' where
  outstanding := by rw [← first.length_eq, ← second.length_eq]; exact fits.outstanding
  admitted := by rw [← second.length_eq]; exact fits.admitted
  held := by rw [← first.length_eq, ← second.length_eq]; exact fits.held
  nodup := (epochsOf_perm first second).nodup_iff.mp fits.nodup
  tracks := by
    rw [← List.toFinset_eq_of_perm _ _ (epochsOf_perm first second)]
    exact fits.tracks
  tickets := fun ticket member => fits.tickets ticket (first.mem_iff.mpr member)
  turns := fun turn member => fits.turns turn (second.mem_iff.mpr member)
  level := fits.level

theorem join (fits : entry.Fits tickets turns) (channel : ticket.channel = entry.channel)
    (epoch : ticket.epoch = entry.nextEpoch) (now : Timestamp) :
    (entry.join now).Fits (ticket :: tickets) turns where
  outstanding := by
    rw [List.length_cons]
    have counted := fits.outstanding
    simp only [ConversationTurns.join]
    omega
  admitted := fits.admitted
  held := by rw [List.length_cons]; omega
  nodup := by
    rw [epochsOf_cons, epoch]
    refine List.nodup_cons.mpr ⟨fun member => ?_, fits.nodup⟩
    exact fits.tracks.next_notMem (List.mem_toFinset.mpr member)
  tracks := by
    rw [counter_join, epochsOf_cons, epoch, List.toFinset_cons]
    exact fits.tracks.take
  tickets := by
    intro other member
    rcases List.mem_cons.mp member with rfl | before
    · exact channel
    · exact fits.tickets other before
  turns := fits.turns
  level := rfl

theorem first (epoch : ticket.epoch = 0) (now : Timestamp) :
    (({ channel := ticket.channel } : ConversationTurns).join now).Fits [ticket] [] where
  outstanding := rfl
  admitted := rfl
  held := Nat.one_pos
  nodup := List.nodup_singleton _
  tracks := by
    rw [counter_join, epochsOf_cons, epoch, List.toFinset_cons]
    exact Counter.tracks_fresh.take
  tickets := by simp [ConversationTurns.join]
  turns := fun turn member => nomatch member
  level := rfl

theorem turns_eq_nil (fits : entry.Fits (ticket :: tickets) turns)
    (serves : entry.serving = ticket.epoch) : turns = [] := by
  cases turns with
  | nil => rfl
  | cons turn rest =>
    have epoch := (fits.turns turn List.mem_cons_self).2.1
    have fresh := (List.nodup_cons.mp fits.nodup).1
    exact absurd (List.mem_append_right _ (by simp [epoch, serves])) fresh

theorem turns_length (fits : entry.Fits tickets turns) : turns.length ≤ 1 := by
  cases turns with
  | nil => exact Nat.zero_le _
  | cons turn rest =>
    cases rest with
    | nil => exact Nat.le_refl _
    | cons other rest =>
      -- two turns would hold the epoch that is served
      have here := (fits.turns turn List.mem_cons_self).2.1
      have there := (fits.turns other (List.mem_cons_of_mem _ List.mem_cons_self)).2.1
      have apart := (List.nodup_append.mp fits.nodup).2.1
      have fresh := (List.nodup_cons.mp apart).1
      exact absurd (by simp [here, there]) fresh

theorem enter (fits : entry.Fits (ticket :: tickets) turns)
    (serves : entry.serving = ticket.epoch) {admission : TurnAdmission}
    (channel : admission.channel = entry.channel) (epoch : admission.epoch = ticket.epoch) :
    entry.enter.Fits tickets (admission.start :: turns) where
  outstanding := by
    have counted := fits.outstanding
    rw [List.length_cons] at counted ⊢
    simp only [ConversationTurns.enter]
    omega
  admitted := by
    rw [List.length_cons]
    exact congrArg (· + 1) fits.admitted
  held := by rw [List.length_cons]; omega
  nodup := by
    refine epochsOf_turn.nodup_iff.mpr ?_
    rw [show admission.start.admission.epoch = ticket.epoch from epoch]
    exact fits.nodup
  tracks := by
    rw [counter_enter, List.toFinset_eq_of_perm _ _ epochsOf_turn,
      show admission.start.admission.epoch = ticket.epoch from epoch]
    exact fits.tracks
  tickets := fun other member => fits.tickets other (List.mem_cons_of_mem _ member)
  turns := by
    intro other member
    rcases List.mem_cons.mp member with rfl | before
    · exact ⟨channel, epoch.trans serves.symm, _, rfl⟩
    · exact fits.turns other before
  level := fits.level

theorem leave (fits : entry.Fits tickets turns) {epoch : Nat} {how : Exit}
    (left : (epochsOf tickets turns).Perm (epoch :: epochsOf tickets' turns'))
    (others : 0 < tickets'.length + turns'.length)
    (count : turns'.length = if how.wasAdmitted then turns.length - 1 else turns.length)
    (first : tickets' ⊆ tickets) (second : turns' ⊆ turns)
    (ahead : turns' ≠ [] → entry.serving ≠ epoch) :
    (entry.leave epoch how).Fits tickets' turns' where
  outstanding := by
    have total := left.length_eq
    simp only [epochsOf, List.length_append, List.length_map, List.length_cons] at total
    rw [leave_outstanding, fits.outstanding, total]
    omega
  admitted := by rw [leave_admitted, fits.admitted, count]
  held := others
  nodup := (List.nodup_cons.mp (left.nodup_iff.mp fits.nodup)).2
  tracks := by
    have apart := (List.nodup_cons.mp (left.nodup_iff.mp fits.nodup)).1
    have member : epoch ∈ (epochsOf tickets turns).toFinset :=
      List.mem_toFinset.mpr (left.mem_iff.mpr List.mem_cons_self)
    have tracked := fits.tracks.leave member
    rwa [List.toFinset_eq_of_perm _ _ left, List.toFinset_cons,
      Finset.erase_insert (fun within => apart (List.mem_toFinset.mp within)),
      ← counter_leave] at tracked
  tickets := by
    intro ticket member
    rw [leave_channel]
    exact fits.tickets ticket (first member)
  turns := by
    intro turn member
    rw [leave_channel, leave_serving (ahead (List.ne_nil_of_mem member))]
    exact fits.turns turn (second member)
  level := by
    rw [leave_supersede, leave_nextEpoch]
    exact fits.level

theorem leaveTicket (fits : entry.Fits (ticket :: tickets) turns)
    (others : 0 < tickets.length + turns.length) :
    (entry.leave ticket.epoch .ticket).Fits tickets turns := by
  refine fits.leave (List.Perm.refl _) others rfl (List.subset_cons_self _ _)
    (List.Subset.refl _) fun running serves => ?_
  exact running (fits.turns_eq_nil serves)

theorem leaveTurn (fits : entry.Fits tickets (turn :: turns)) {superseded : Bool}
    (others : 0 < tickets.length + turns.length) :
    (entry.leave turn.admission.epoch (.admission superseded)).Fits tickets turns := by
  refine fits.leave epochsOf_turn others rfl (List.Subset.refl _) (List.subset_cons_self _ _)
    fun running => ?_
  -- nobody else was under way
  have alone := fits.turns_length
  rw [List.length_cons] at alone
  exact absurd (List.eq_nil_of_length_eq_zero (by omega)) running

theorem check (fits : entry.Fits tickets (turn :: turns)) {armed overtaken : Bool} :
    entry.Fits tickets
      ({ turn with handle := { turn.handle with armed }, overtaken } :: turns) where
  outstanding := fits.outstanding
  admitted := fits.admitted
  held := fits.held
  nodup := fits.nodup
  tracks := fits.tracks
  tickets := fits.tickets
  turns := by
    intro other member
    rcases List.mem_cons.mp member with rfl | before
    · obtain ⟨channel, epoch, before, handle⟩ := fits.turns turn List.mem_cons_self
      refine ⟨channel, epoch, armed, ?_⟩
      dsimp only
      rw [handle]
    · exact fits.turns other (List.mem_cons_of_mem _ before)
  level := fits.level

end ConversationTurns.Fits

end Fits

/-! ### The ledger over a run -/

namespace Line

/-- Every conversation's entry agrees with its holders, and has some. -/
structure Sound (line : Line) : Prop where
  absent : ∀ conversation, line.ledger.conversations conversation = none →
    line.ticketsOf conversation = [] ∧ line.turnsOf conversation = []
  present : ∀ conversation entry, line.ledger.conversations conversation = some entry →
    entry.Fits (line.ticketsOf conversation) (line.turnsOf conversation)

section Steps

variable {line after : Line} {act : Act} {ticket : TurnTicket} {turn : InFlight}
variable {conversation : ConversationId} {ledger : TurnLedger}

theorem ticketsOf_erase (waits : ticket ∈ line.tickets) :
    (line.ticketsOf ticket.conversation).Perm
      (ticket :: (line.tickets.erase ticket).filter fun other =>
        other.conversation = ticket.conversation) := by
  have split := (List.perm_cons_erase waits).filter fun other =>
    other.conversation = ticket.conversation
  rwa [List.filter_cons_of_pos (by simp)] at split

theorem ticketsOf_erase_other (waits : ticket ∈ line.tickets)
    (apart : conversation ≠ ticket.conversation) :
    (line.ticketsOf conversation).Perm
      ((line.tickets.erase ticket).filter fun other => other.conversation = conversation) := by
  have split := (List.perm_cons_erase waits).filter fun other =>
    other.conversation = conversation
  rwa [List.filter_cons_of_neg (by simpa using Ne.symm apart)] at split

theorem turnsOf_erase (runs : turn ∈ line.turns) :
    (line.turnsOf turn.admission.conversation).Perm
      (turn :: (line.turns.erase turn).filter fun other =>
        other.admission.conversation = turn.admission.conversation) := by
  have split := (List.perm_cons_erase runs).filter fun other =>
    other.admission.conversation = turn.admission.conversation
  rwa [List.filter_cons_of_pos (by simp)] at split

theorem turnsOf_erase_other (runs : turn ∈ line.turns)
    (apart : conversation ≠ turn.admission.conversation) :
    (line.turnsOf conversation).Perm
      ((line.turns.erase turn).filter fun other =>
        other.admission.conversation = conversation) := by
  have split := (List.perm_cons_erase runs).filter fun other =>
    other.admission.conversation = conversation
  rwa [List.filter_cons_of_neg (by simpa using Ne.symm apart)] at split

namespace Sound

theorem start : Sound {} where
  absent := fun _ _ => ⟨rfl, rfl⟩
  present := fun _ _ impossible => nomatch impossible

theorem entry_of_ticket (sound : line.Sound) (waits : ticket ∈ line.tickets) :
    ∃ entry, line.ledger.conversations ticket.conversation = some entry := by
  cases found : line.ledger.conversations ticket.conversation with
  | some entry => exact ⟨entry, rfl⟩
  | none =>
    have none := (sound.absent _ found).1
    exact absurd (List.mem_filter.mpr ⟨waits, by simp⟩) (none ▸ List.not_mem_nil)

theorem entry_of_turn (sound : line.Sound) (runs : turn ∈ line.turns) :
    ∃ entry, line.ledger.conversations turn.admission.conversation = some entry := by
  cases found : line.ledger.conversations turn.admission.conversation with
  | some entry => exact ⟨entry, rfl⟩
  | none =>
    have none := (sound.absent _ found).2
    exact absurd (List.mem_filter.mpr ⟨runs, by simp⟩) (none ▸ List.not_mem_nil)

theorem update (sound : line.Sound) (conversation : ConversationId)
    (others : ∀ other, other ≠ conversation →
      after.ledger.conversations other = line.ledger.conversations other ∧
      (line.ticketsOf other).Perm (after.ticketsOf other) ∧
      (line.turnsOf other).Perm (after.turnsOf other))
    (absent : after.ledger.conversations conversation = none →
      after.ticketsOf conversation = [] ∧ after.turnsOf conversation = [])
    (present : ∀ entry, after.ledger.conversations conversation = some entry →
      entry.Fits (after.ticketsOf conversation) (after.turnsOf conversation)) : after.Sound where
  absent := by
    intro other gone
    by_cases same : other = conversation
    · subst same
      exact absent gone
    · obtain ⟨kept, tickets, turns⟩ := others other same
      obtain ⟨noTicket, noTurn⟩ := sound.absent other (kept.symm.trans gone)
      rw [noTicket] at tickets
      rw [noTurn] at turns
      exact ⟨tickets.nil_eq.symm, turns.nil_eq.symm⟩
  present := by
    intro other entry found
    by_cases same : other = conversation
    · subst same
      exact present entry found
    · obtain ⟨kept, tickets, turns⟩ := others other same
      exact (sound.present other entry (kept.symm.trans found)).perm tickets turns

theorem arrive (sound : line.Sound)
    (arrives : line.ledger.arrive ticket.conversation ticket.arrivedAt = (ledger, ticket)) :
    Sound { line with ledger, tickets := ticket :: line.tickets } := by
  have tickets : Line.ticketsOf { line with ledger, tickets := ticket :: line.tickets }
      ticket.conversation = ticket :: line.ticketsOf ticket.conversation :=
    List.filter_cons_of_pos (by simp)
  have fits : ∃ entry, ledger.conversations ticket.conversation = some entry ∧
      entry.Fits (ticket :: line.ticketsOf ticket.conversation)
        (line.turnsOf ticket.conversation) := by
    cases found : line.ledger.conversations ticket.conversation with
    | some entry =>
      rw [TurnLedger.arrive_some found] at arrives
      obtain ⟨rfl, taken⟩ := Prod.mk.inj arrives
      have channel : ticket.channel = entry.channel := by rw [← taken]
      have epoch : ticket.epoch = entry.nextEpoch := by rw [← taken]
      exact ⟨_, TurnLedger.put_same, (sound.present _ entry found).join channel epoch _⟩
    | none =>
      rw [TurnLedger.arrive_none found] at arrives
      obtain ⟨rfl, taken⟩ := Prod.mk.inj arrives
      obtain ⟨noTicket, noTurn⟩ := sound.absent _ found
      rw [noTicket, noTurn]
      have channel : ticket.channel = line.ledger.made := by rw [← taken]
      have epoch : ticket.epoch = 0 := by rw [← taken]
      exact ⟨_, TurnLedger.put_same, channel ▸ ConversationTurns.Fits.first epoch _⟩
  obtain ⟨entry, found, fits⟩ := fits
  refine sound.update ticket.conversation ?_ ?_ ?_
  · intro other apart
    have kept := @TurnLedger.arrive_other line.ledger _ _ ticket.arrivedAt apart
    rw [arrives] at kept
    refine ⟨kept, ?_, List.Perm.refl _⟩
    rw [show Line.ticketsOf { line with ledger, tickets := ticket :: line.tickets } other =
      line.ticketsOf other from
        List.filter_cons_of_neg (by simpa using Ne.symm apart)]
  · intro gone
    exact absurd (gone.symm.trans found) (by simp)
  · intro other present
    cases found.symm.trans present
    rw [tickets]
    exact fits

theorem admits (sound : line.Sound) {window : Duration} {admission : TurnAdmission}
    (waits : ticket ∈ line.tickets)
    (admits : ticket.admits line.ledger window = some (ledger, admission)) :
    Sound { ledger, tickets := line.tickets.erase ticket,
            turns := admission.start :: line.turns } := by
  obtain ⟨entry, found, channel, serves, rfl, rfl⟩ := TurnTicket.admits_eq_some.mp admits
  have fits := (sound.present _ entry found).perm (ticketsOf_erase waits) (List.Perm.refl _)
  refine sound.update ticket.conversation ?_ ?_ ?_
  · intro other apart
    refine ⟨TurnLedger.put_other apart, ticketsOf_erase_other waits apart, ?_⟩
    refine List.Perm.of_eq (Eq.symm (List.filter_cons_of_neg fun same => ?_))
    exact apart (of_decide_eq_true same).symm
  · intro gone
    exact absurd (gone.symm.trans TurnLedger.put_same) (by simp)
  · intro other present
    cases TurnLedger.put_same.symm.trans present
    let admission : TurnAdmission := ⟨ticket.conversation, ticket.channel, ticket.epoch,
      entry.burstStart ticket.arrivedAt, window⟩
    have entered : entry.enter.Fits _ (admission.start :: _) := fits.enter serves channel.symm rfl
    refine entered.perm (List.Perm.refl _) (List.Perm.of_eq (Eq.symm ?_))
    exact List.filter_cons_of_pos (by simp [TurnAdmission.start])

/-- A holder of a conversation exits: the entry goes with the last one, and agrees with the
others otherwise. -/
theorem exit (sound : line.Sound) {entry : ConversationTurns} {epoch : Nat} {how : Exit}
    (found : line.ledger.conversations conversation = some entry)
    (left : after.ledger = line.ledger.exit conversation epoch how)
    (others : ∀ other, other ≠ conversation →
      (line.ticketsOf other).Perm (after.ticketsOf other) ∧
      (line.turnsOf other).Perm (after.turnsOf other))
    (count : entry.outstanding =
      (after.ticketsOf conversation).length + (after.turnsOf conversation).length + 1)
    (rest : 0 < (after.ticketsOf conversation).length + (after.turnsOf conversation).length →
      (entry.leave epoch how).Fits (after.ticketsOf conversation) (after.turnsOf conversation)) :
    after.Sound := by
  have here : after.ledger.conversations conversation =
      if entry.outstanding - 1 = 0 then none else some (entry.leave epoch how) := by
    rw [left]
    exact TurnLedger.exit_some found
  refine sound.update conversation ?_ ?_ ?_
  · intro other apart
    refine ⟨?_, others other apart⟩
    rw [left]
    exact TurnLedger.exit_other apart
  · intro gone
    rw [here] at gone
    split at gone
    · exact ⟨List.eq_nil_of_length_eq_zero (by omega), List.eq_nil_of_length_eq_zero (by omega)⟩
    · cases gone
  · intro remaining present
    rw [here] at present
    split at present
    · cases present
    · cases present
      exact rest (by omega)

theorem abandon (sound : line.Sound) (waits : ticket ∈ line.tickets) :
    Sound { line with
            ledger := line.ledger.exit ticket.conversation ticket.epoch .ticket
            tickets := line.tickets.erase ticket } := by
  obtain ⟨entry, found⟩ := sound.entry_of_ticket waits
  have fits := (sound.present _ entry found).perm (ticketsOf_erase waits) (List.Perm.refl _)
  refine sound.exit found rfl ?_ ?_ ?_
  · exact fun other apart => ⟨ticketsOf_erase_other waits apart, List.Perm.refl _⟩
  · have counted := fits.outstanding
    rw [List.length_cons] at counted
    exact counted.trans (Nat.add_right_comm _ _ _)
  · exact fits.leaveTicket

theorem finish (sound : line.Sound) (runs : turn ∈ line.turns) (superseded : Bool) :
    Sound { line with
            ledger := line.ledger.exit turn.admission.conversation turn.admission.epoch
              (.admission superseded)
            turns := line.turns.erase turn } := by
  obtain ⟨entry, found⟩ := sound.entry_of_turn runs
  have fits := (sound.present _ entry found).perm (List.Perm.refl _) (turnsOf_erase runs)
  refine sound.exit found rfl ?_ ?_ ?_
  · exact fun other apart => ⟨List.Perm.refl _, turnsOf_erase_other runs apart⟩
  · exact fits.outstanding
  · exact fits.leaveTurn

theorem check (sound : line.Sound) {armed overtaken : Bool} (runs : turn ∈ line.turns) :
    Sound { line with
            turns := { turn with handle := { turn.handle with armed }, overtaken } ::
              line.turns.erase turn } := by
  obtain ⟨entry, found⟩ := sound.entry_of_turn runs
  have fits := (sound.present _ entry found).perm (List.Perm.refl _) (turnsOf_erase runs)
  refine sound.update turn.admission.conversation ?_ ?_ ?_
  · intro other apart
    refine ⟨rfl, List.Perm.refl _, ?_⟩
    refine (turnsOf_erase_other runs apart).trans (List.Perm.of_eq (Eq.symm ?_))
    exact List.filter_cons_of_neg (by simpa using Ne.symm apart)
  · intro gone
    exact absurd (gone.symm.trans found) (by simp)
  · intro same present
    cases found.symm.trans present
    have turns : Line.turnsOf { line with
        turns := { turn with handle := { turn.handle with armed }, overtaken } ::
          line.turns.erase turn } turn.admission.conversation = _ :=
      List.filter_cons_of_pos (by simp)
    rw [turns]
    exact fits.check

end Sound

theorem superseded_handle {handle checked : Supersession} {now : Timestamp} {answer : Bool}
    (done : handle.superseded ledger now = some (checked, answer)) :
    ∃ armed, checked = { handle with armed } := by
  obtain ⟨entry, _, same⟩ := Option.map_eq_some_iff.mp done
  split at same
  · split at same
    · cases same
      exact ⟨false, rfl⟩
    · cases same
      exact ⟨handle.armed, rfl⟩
  · cases same
    exact ⟨handle.armed, rfl⟩

theorem Sound.step (sound : line.Sound) (taken : Step line act after) : after.Sound := by
  cases taken with
  | arrive arrives => exact sound.arrive arrives
  | admits waits admits => exact sound.admits waits admits
  | abandon waits => exact sound.abandon waits
  | check runs checked =>
    obtain ⟨armed, rfl⟩ := superseded_handle checked
    exact sound.check runs
  | finish runs => exact sound.finish runs _

end Steps

/-! ### Serialization -/

/-- The epochs held in a conversation. -/
def epochs (line : Line) (conversation : ConversationId) : List Nat :=
  epochsOf (line.ticketsOf conversation) (line.turnsOf conversation)

/-- The ledger runs one turn of a conversation at a time, counts its holders, serves the
earliest of them, keeps an entry exactly for the conversations that have some, and never
leaves a waiting line unserved. -/
structure Serial (line : Line) : Prop where
  alone : ∀ conversation, (line.turnsOf conversation).length ≤ 1
  counts : ∀ conversation entry, line.ledger.conversations conversation = some entry →
    entry.outstanding =
        (line.ticketsOf conversation).length + (line.turnsOf conversation).length ∧
      entry.admitted = (line.turnsOf conversation).length
  ticketCounted : ∀ ticket ∈ line.tickets, ∃ entry,
    line.ledger.conversations ticket.conversation = some entry ∧ 0 < entry.outstanding
  turnCounted : ∀ turn ∈ line.turns, ∃ entry,
    line.ledger.conversations turn.admission.conversation = some entry ∧
      0 < entry.outstanding ∧ 0 < entry.admitted
  serves : ∀ conversation entry, line.ledger.conversations conversation = some entry →
    if line.epochs conversation = [] then entry.serving = entry.nextEpoch
    else IsLeast {epoch | epoch ∈ line.epochs conversation} entry.serving
  present : ∀ conversation,
    (line.ledger.conversations conversation).isSome = true ↔ line.epochs conversation ≠ []
  moves : ∀ ticket ∈ line.tickets, line.turnsOf ticket.conversation = [] →
    ∃ next ∈ line.ticketsOf ticket.conversation,
      ∀ window, (next.admits line.ledger window).isSome = true

section Serial

variable {line : Line} {conversation : ConversationId}

theorem epochs_eq_nil :
    line.epochs conversation = [] ↔
      line.ticketsOf conversation = [] ∧ line.turnsOf conversation = [] := by
  simp [epochs, epochsOf]

namespace Sound

theorem epochs_ne_nil (sound : line.Sound) {entry : ConversationTurns}
    (found : line.ledger.conversations conversation = some entry) :
    line.epochs conversation ≠ [] := by
  intro none
  have held := (sound.present conversation entry found).held
  obtain ⟨noTicket, noTurn⟩ := epochs_eq_nil.mp none
  rw [noTicket, noTurn] at held
  exact absurd held (Nat.lt_irrefl 0)

theorem isLeast (sound : line.Sound) {entry : ConversationTurns}
    (found : line.ledger.conversations conversation = some entry) :
    IsLeast {epoch | epoch ∈ line.epochs conversation} entry.serving := by
  have least := (sound.present conversation entry found).tracks.isLeast
    (List.toFinset_nonempty_iff _ |>.mpr (sound.epochs_ne_nil found))
  simp only [List.mem_toFinset] at least
  exact least

theorem moves (sound : line.Sound) {ticket : TurnTicket} (waits : ticket ∈ line.tickets)
    (idle : line.turnsOf ticket.conversation = []) :
    ∃ next ∈ line.ticketsOf ticket.conversation,
      ∀ window, (next.admits line.ledger window).isSome = true := by
  obtain ⟨entry, found⟩ := sound.entry_of_ticket waits
  have fits := sound.present _ entry found
  have served := (sound.isLeast found).1
  rcases mem_epochsOf.mp served with ⟨next, member, epoch⟩ | ⟨turn, member, _⟩
  · refine ⟨next, member, fun window => ?_⟩
    have named : next.conversation = ticket.conversation := by
      simpa using (List.mem_filter.mp member).2
    rw [Option.isSome_iff_exists]
    exact ⟨_, TurnTicket.admits_eq_some.mpr
      ⟨entry, named ▸ found, (fits.tickets next member).symm, epoch.symm, rfl, rfl⟩⟩
  · rw [idle] at member
    cases member

theorem serial (sound : line.Sound) : line.Serial where
  alone := by
    intro conversation
    cases found : line.ledger.conversations conversation with
    | some entry => exact (sound.present conversation entry found).turns_length
    | none => rw [(sound.absent conversation found).2]; exact Nat.zero_le 1
  counts := fun conversation entry found =>
    ⟨(sound.present conversation entry found).outstanding,
      (sound.present conversation entry found).admitted⟩
  ticketCounted := by
    intro ticket waits
    obtain ⟨entry, found⟩ := sound.entry_of_ticket waits
    have fits := sound.present _ entry found
    exact ⟨entry, found, fits.outstanding ▸ fits.held⟩
  turnCounted := by
    intro turn runs
    obtain ⟨entry, found⟩ := sound.entry_of_turn runs
    have fits := sound.present _ entry found
    have member : turn ∈ line.turnsOf turn.admission.conversation :=
      List.mem_filter.mpr ⟨runs, by simp⟩
    exact ⟨entry, found, fits.outstanding ▸ fits.held,
      fits.admitted ▸ List.length_pos_of_mem member⟩
  serves := by
    intro conversation entry found
    rw [if_neg (sound.epochs_ne_nil found)]
    exact sound.isLeast found
  present := by
    intro conversation
    cases found : line.ledger.conversations conversation with
    | some => exact iff_of_true rfl (sound.epochs_ne_nil found)
    | none =>
      have none := epochs_eq_nil.mpr (sound.absent conversation found)
      exact iff_of_false (by simp) (fun some => some none)
  moves := fun _ waits idle => sound.moves waits idle

end Sound

end Serial

end Line

/-! ### The order of admissions -/

/-- The turn an act admits. -/
def Act.admitted : Act → Option TurnAdmission
  | .admits _ admission => some admission
  | _ => none

/-- An admission comes before another of its conversation: in an earlier entry, or at an
earlier epoch of the same one. -/
def TurnAdmission.Precedes (earlier later : TurnAdmission) : Prop :=
  earlier.conversation = later.conversation →
    earlier.channel < later.channel ∨
      (earlier.channel = later.channel ∧ earlier.epoch < later.epoch)

/-- The line has moved past an admission: what its conversation still waits for came after. -/
structure TurnAdmission.Past (admission : TurnAdmission) (line : Line) : Prop where
  made : admission.channel < line.ledger.made
  behind : ∀ entry, line.ledger.conversations admission.conversation = some entry →
    admission.channel < entry.channel ∨
      (admission.channel = entry.channel ∧ admission.epoch < entry.nextEpoch ∧
        ∀ ticket ∈ line.ticketsOf admission.conversation, admission.epoch < ticket.epoch)

section Order

open Line

variable {line after : Line} {act : Act} {conversation : ConversationId}
variable {admission : TurnAdmission}

theorem Line.Step.made_le (taken : Step line act after) : line.ledger.made ≤ after.ledger.made := by
  cases taken with
  | @arrive ledger ticket arrives =>
    cases found : line.ledger.conversations ticket.conversation with
    | some =>
      rw [TurnLedger.arrive_some found] at arrives
      obtain ⟨rfl, _⟩ := Prod.mk.inj arrives
      exact Nat.le_refl _
    | none =>
      rw [TurnLedger.arrive_none found] at arrives
      obtain ⟨rfl, _⟩ := Prod.mk.inj arrives
      exact Nat.le_succ _
  | admits waits admits =>
    obtain ⟨entry, _, _, _, rfl, _⟩ := TurnTicket.admits_eq_some.mp admits
    exact Nat.le_refl _
  | abandon | finish => exact (Nat.le_of_eq TurnLedger.exit_made.symm)
  | check => exact Nat.le_refl _

theorem mem_ticketsOf {ticket : TurnTicket} :
    ticket ∈ line.ticketsOf conversation ↔
      ticket ∈ line.tickets ∧ ticket.conversation = conversation := by
  simp [Line.ticketsOf]

theorem Line.Step.entry_after (taken : Step line act after) {entry : ConversationTurns}
    (found : after.ledger.conversations conversation = some entry) :
    (∃ before, line.ledger.conversations conversation = some before ∧
      entry.channel = before.channel ∧ before.nextEpoch ≤ entry.nextEpoch ∧
      ∀ ticket ∈ after.ticketsOf conversation,
        ticket ∈ line.ticketsOf conversation ∨ ticket.epoch = before.nextEpoch) ∨
    entry.channel = line.ledger.made ∧ line.ledger.made < after.ledger.made := by
  -- a step that puts no ticket in line, and keeps channels and epochs where an entry stays
  have fewer : ∀ {before : ConversationTurns}, after.tickets ⊆ line.tickets →
      line.ledger.conversations conversation = some before → entry.channel = before.channel →
      entry.nextEpoch = before.nextEpoch → ∃ before,
        line.ledger.conversations conversation = some before ∧
        entry.channel = before.channel ∧ before.nextEpoch ≤ entry.nextEpoch ∧
        ∀ ticket ∈ after.ticketsOf conversation,
          ticket ∈ line.ticketsOf conversation ∨ ticket.epoch = before.nextEpoch := by
    intro before subset present channel next
    refine ⟨before, present, channel, Nat.le_of_eq next.symm, fun ticket member => .inl ?_⟩
    obtain ⟨waits, named⟩ := mem_ticketsOf.mp member
    exact mem_ticketsOf.mpr ⟨subset waits, named⟩
  have exits : ∀ {holder : ConversationId} {epoch : Nat} {how : Exit},
      (line.ledger.exit holder epoch how).conversations conversation = some entry →
      ∃ before, line.ledger.conversations conversation = some before ∧
        entry.channel = before.channel ∧ entry.nextEpoch = before.nextEpoch := by
    intro holder epoch how remains
    by_cases same : conversation = holder
    · subst same
      cases present : line.ledger.conversations conversation with
      | none =>
        simp only [TurnLedger.exit, present] at remains
        cases remains
      | some before =>
        rw [TurnLedger.exit_some present] at remains
        split at remains
        · cases remains
        · cases remains
          exact ⟨before, rfl, by simp, by simp⟩
    · rw [TurnLedger.exit_other same] at remains
      exact ⟨entry, remains, rfl, rfl⟩
  cases taken with
  | @arrive ledger ticket arrives =>
    by_cases same : conversation = ticket.conversation
    · subst same
      cases present : line.ledger.conversations ticket.conversation with
      | some before =>
        rw [TurnLedger.arrive_some present] at arrives
        obtain ⟨rfl, handed⟩ := Prod.mk.inj arrives
        cases TurnLedger.put_same.symm.trans found
        refine .inl ⟨before, rfl, rfl, Nat.le_succ _, fun other member => ?_⟩
        obtain ⟨waits, named⟩ := mem_ticketsOf.mp member
        rcases List.mem_cons.mp waits with rfl | waited
        · exact .inr (congrArg TurnTicket.epoch handed).symm
        · exact .inl (mem_ticketsOf.mpr ⟨waited, named⟩)
      | none =>
        rw [TurnLedger.arrive_none present] at arrives
        obtain ⟨rfl, _⟩ := Prod.mk.inj arrives
        cases TurnLedger.put_same.symm.trans found
        exact .inr ⟨rfl, Nat.lt_succ_self _⟩
    · have kept := @TurnLedger.arrive_other line.ledger _ _ ticket.arrivedAt same
      rw [arrives] at kept
      refine .inl ⟨entry, kept.symm.trans found, rfl, Nat.le_refl _, fun other member => ?_⟩
      obtain ⟨waits, named⟩ := mem_ticketsOf.mp member
      rcases List.mem_cons.mp waits with rfl | waited
      · exact absurd named.symm same
      · exact .inl (mem_ticketsOf.mpr ⟨waited, named⟩)
  | @admits ledger ticket window admission waits admits =>
    refine .inl ?_
    obtain ⟨before, present, _, _, rfl, _⟩ := TurnTicket.admits_eq_some.mp admits
    by_cases same : conversation = ticket.conversation
    · subst same
      cases TurnLedger.put_same.symm.trans found
      exact fewer (List.erase_subset) present rfl rfl
    · exact fewer (List.erase_subset) ((TurnLedger.put_other same).symm.trans found) rfl rfl
  | abandon =>
    obtain ⟨before, present, channel, next⟩ := exits found
    exact .inl (fewer (List.erase_subset) present channel next)
  | check => exact .inl (fewer (List.Subset.refl _) found rfl rfl)
  | finish =>
    obtain ⟨before, present, channel, next⟩ := exits found
    exact .inl (fewer (List.Subset.refl _) present channel next)

theorem TurnAdmission.Past.step (past : admission.Past line) (taken : Step line act after) :
    admission.Past after where
  made := Nat.lt_of_lt_of_le past.made taken.made_le
  behind := by
    intro entry found
    rcases taken.entry_after found with ⟨before, present, channel, next, tickets⟩ | ⟨fresh, _⟩
    · rw [channel]
      rcases past.behind before present with earlier | ⟨same, handed, waiting⟩
      · exact .inl earlier
      · refine .inr ⟨same, Nat.lt_of_lt_of_le handed next, fun ticket member => ?_⟩
        rcases tickets ticket member with waited | latest
        · exact waiting ticket waited
        · exact latest ▸ handed
    · exact .inl (fresh ▸ past.made)

/-- Every entry was made. -/
def Line.Made (line : Line) : Prop :=
  ∀ conversation entry, line.ledger.conversations conversation = some entry →
    entry.channel < line.ledger.made

theorem Line.Made.step (made : line.Made) (taken : Step line act after) : after.Made := by
  intro conversation entry found
  rcases taken.entry_after found with ⟨before, present, channel, _, _⟩ | ⟨fresh, more⟩
  · rw [channel]
    exact Nat.lt_of_lt_of_le (made conversation before present) taken.made_le
  · rw [fresh]
    exact more

theorem Line.Sound.past_of_admits (sound : line.Sound) (made : line.Made) {ledger : TurnLedger}
    {ticket : TurnTicket} {window : Duration} (waits : ticket ∈ line.tickets)
    (admits : ticket.admits line.ledger window = some (ledger, admission)) :
    admission.Past
      { ledger, tickets := line.tickets.erase ticket,
        turns := admission.start :: line.turns } where
  made := by
    obtain ⟨entry, found, channel, _, rfl, rfl⟩ := TurnTicket.admits_eq_some.mp admits
    exact channel ▸ made _ entry found
  behind := by
    obtain ⟨entry, found, channel, serves, rfl, rfl⟩ := TurnTicket.admits_eq_some.mp admits
    intro entered present
    cases TurnLedger.put_same.symm.trans present
    have fits := (sound.present _ entry found).perm (ticketsOf_erase waits) (List.Perm.refl _)
    have least := (sound.isLeast found).2
    refine .inr ⟨channel.symm, ?_, fun other member => ?_⟩
    · exact (fits.tracks.range ticket.epoch (by simp)).2
    · have held : other.epoch ∈ line.epochs ticket.conversation := by
        obtain ⟨still, named⟩ := mem_ticketsOf.mp member
        exact mem_epochsOf.mpr (.inl ⟨other,
          mem_ticketsOf.mpr ⟨List.erase_subset still, named⟩, rfl⟩)
      have above : entry.serving ≤ other.epoch := least held
      have apart : ticket.epoch ≠ other.epoch := by
        intro same
        have fresh := (List.nodup_cons.mp fits.nodup).1
        exact fresh (mem_epochsOf.mpr (.inl ⟨other, member, same.symm⟩))
      exact Nat.lt_of_le_of_ne (serves ▸ above) apart

/-- The admissions of a run so far came in order, and the line has moved past them. -/
structure Line.InOrder (acts : List Act) (line : Line) : Prop where
  sound : line.Sound
  made : line.Made
  ordered : (acts.filterMap Act.admitted).Pairwise TurnAdmission.Precedes
  past : ∀ admission ∈ acts.filterMap Act.admitted, admission.Past line

theorem Line.inOrder_start : Line.InOrder [] {} where
  sound := Sound.start
  made := fun _ _ impossible => nomatch impossible
  ordered := List.Pairwise.nil
  past := fun _ member => nomatch member

theorem Line.InOrder.step {acts : List Act} (inOrder : line.InOrder acts)
    (taken : Step line act after) : after.InOrder (acts ++ [act]) := by
  have still : ∀ admission ∈ acts.filterMap Act.admitted, admission.Past after :=
    fun admission member => (inOrder.past admission member).step taken
  refine ⟨inOrder.sound.step taken, inOrder.made.step taken, ?_, ?_⟩
  · rw [List.filterMap_append]
    refine List.pairwise_append.mpr ⟨inOrder.ordered, ?_, ?_⟩
    · cases act with
      | admits => exact List.pairwise_singleton _ _
      | arrive | abandon | check | finish => exact List.Pairwise.nil
    · intro earlier member later last same
      cases taken with
      | @admits ledger ticket window admission waits admits =>
        obtain rfl : later = admission := by simpa [Act.admitted] using last
        obtain ⟨entry, found, channel, _, _, rfl⟩ := TurnTicket.admits_eq_some.mp admits
        have before := (inOrder.past earlier member).behind entry (same ▸ found)
        rcases before with lower | ⟨equal, _, waiting⟩
        · exact .inl (channel ▸ lower)
        · have ahead := waiting ticket (mem_ticketsOf.mpr ⟨waits, same.symm⟩)
          exact .inr ⟨equal.trans channel, ahead⟩
      | arrive | abandon | check | finish => simp [Act.admitted] at last
  · intro admission member
    rw [List.filterMap_append] at member
    rcases List.mem_append.mp member with before | last
    · exact still admission before
    · cases taken with
      | @admits ledger ticket window started waits admits =>
        obtain rfl : admission = started := by simpa [Act.admitted] using last
        exact inOrder.sound.past_of_admits inOrder.made waits admits
      | arrive | abandon | check | finish => simp [Act.admitted] at last

theorem inOrder_of_run {acts : List Act} (run : Trace Step {} acts line) : line.InOrder acts :=
  run.history (fun acts line => line.InOrder acts) Line.inOrder_start
    fun _ _ _ _ _ taken inOrder => inOrder.step taken

/-- In every run the line is served one turn at a time, and in the order of arrival. -/
theorem serial_of_run {acts : List Act} (run : Trace Step {} acts line) :
    line.Serial ∧ (acts.filterMap Act.admitted).Pairwise TurnAdmission.Precedes :=
  ⟨(inOrder_of_run run).sound.serial, (inOrder_of_run run).ordered⟩

theorem served_alone {line : Line} (absent : line.ledger.conversations conversation = none)
    (now : Timestamp) (window : Duration) :
    ∃ after, Trace Step line
        [.arrive ⟨conversation, line.ledger.made, 0, now⟩,
          .admits ⟨conversation, line.ledger.made, 0, now⟩
            ⟨conversation, line.ledger.made, 0, now, window⟩,
          .finish (TurnAdmission.start ⟨conversation, line.ledger.made, 0, now, window⟩) false]
        after ∧
      after.ledger.conversations conversation = none ∧
      after.ledger.made = line.ledger.made + 1 := by
  let joined := ({ channel := line.ledger.made } : ConversationTurns).join now
  let ledger := ({ line.ledger with made := line.ledger.made + 1 } : TurnLedger).put conversation
    (some joined)
  have arrives : line.ledger.arrive conversation now =
      (ledger, ⟨conversation, line.ledger.made, 0, now⟩) := TurnLedger.arrive_none absent
  have admits : TurnTicket.admits ⟨conversation, line.ledger.made, 0, now⟩ ledger window =
      some (ledger.put conversation (some joined.enter),
        ⟨conversation, line.ledger.made, 0, now, window⟩) :=
    TurnTicket.admits_eq_some.mpr ⟨joined, TurnLedger.put_same, rfl, rfl, rfl, rfl⟩
  refine ⟨_, .cons (.arrive arrives) (.cons (.admits List.mem_cons_self admits)
    (.cons (.finish List.mem_cons_self) (.nil _))), ?_, TurnLedger.exit_made⟩
  exact TurnLedger.exit_some TurnLedger.put_same

/-- Epochs repeat across the entries of one conversation. -/
theorem epochs_not_increasing : ∃ acts line, Trace Step {} acts line ∧
    ¬ (acts.filterMap Act.admitted).Pairwise fun earlier later =>
      earlier.conversation = later.conversation → earlier.epoch < later.epoch := by
  obtain ⟨first, run, absent, made⟩ := @served_alone ⟨1⟩ {} rfl ⟨0⟩ ⟨0⟩
  obtain ⟨second, more, _, _⟩ := served_alone absent ⟨5⟩ ⟨0⟩
  refine ⟨_, second, run.append more, fun ordered => ?_⟩
  exact absurd (List.rel_of_pairwise_cons ordered List.mem_cons_self rfl) (Nat.lt_irrefl 0)

theorem serial_of_served : ∃ line : Line, line.Serial ∧
    ([.arrive ⟨⟨1⟩, 0, 0, ⟨0⟩⟩, .admits ⟨⟨1⟩, 0, 0, ⟨0⟩⟩ ⟨⟨1⟩, 0, 0, ⟨0⟩, ⟨0⟩⟩,
      .finish (TurnAdmission.start ⟨⟨1⟩, 0, 0, ⟨0⟩, ⟨0⟩⟩) false].filterMap
        Act.admitted).Pairwise TurnAdmission.Precedes := by
  obtain ⟨line, run, _, _⟩ := @served_alone ⟨1⟩ {} rfl ⟨0⟩ ⟨0⟩
  exact ⟨line, serial_of_run run⟩

end Order

end Zuihitsu.Turn
