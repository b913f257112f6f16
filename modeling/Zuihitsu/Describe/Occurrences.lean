/-
# The bounds of an occurrence

The materializer computes instants from a reference as it folds: noon and the end of a day,
the ends of an approximation, the hour before or after an anchor. An instant past the range of
the date library stops it, and a reference that asks for one is stored as readily as any
other. So a log folds exactly where each reference in turn stays in the range; the bounds the
fold then stores are in order, whatever anchors they were drawn from.
-/

import Zuihitsu.Block.DateCalls

namespace Zuihitsu.Describe

open Zuihitsu.Core Zuihitsu.Graph Zuihitsu.Library Zuihitsu.Schedule

/-! ### Bounds computed -/

/-- `Timestamp::from_millis`: `none` is a stopped thread. The sums it is given are of instants in
the range and of 32-bit numbers of days, which fit 64 bits. -/
def fromMillis (millis : Int) : Option Timestamp :=
  if inRange ⟨millis⟩ then some ⟨millis⟩ else none

/-- Move an instant, when there is one. -/
def shiftedChecked (instant : Option Timestamp) (shift : Int) : Option (Option Timestamp) :=
  match instant with
  | none => some none
  | some present => (fromMillis (present.millis + shift)).map some

/-- The bounds of a reference, as the machine computes them. -/
def boundsChecked (reference : TemporalRef) (anchor : Option OccurrenceBounds)
    (epsilonMillis : Int) : Option OccurrenceBounds :=
  match reference with
  | .instant present => some (OccurrenceBounds.point present)
  | .day date =>
    match date.midnightMillis with
    | some midnight => do
      let sort ← fromMillis (midnight + millisPerDay / 2)
      let lo ← fromMillis midnight
      let hi ← fromMillis (midnight + millisPerDay - 1)
      return ⟨some sort, some lo, some hi⟩
    | none => some OccurrenceBounds.unbounded
  | .range start finish => do
    let (lo, hi) := if start.millis ≤ finish.millis then (start, finish) else (finish, start)
    let sort ← fromMillis ((lo.millis + hi.millis).tdiv 2)
    return ⟨some sort, some lo, some hi⟩
  | .approx center fuzzDays => do
    let lo ← fromMillis (center.millis - (fuzzDays : Int) * millisPerDay)
    let hi ← fromMillis (center.millis + (fuzzDays : Int) * millisPerDay)
    return ⟨some center, some lo, some hi⟩
  | .recurring _ => some OccurrenceBounds.unbounded
  | .beforeAfter dir _ =>
    match anchor with
    | none => some OccurrenceBounds.unbounded
    | some anchor =>
      match anchor.sort with
      | none => some OccurrenceBounds.unbounded
      | some anchorSort => do
        let shift := dir.shift epsilonMillis
        let sort ← fromMillis (anchorSort.millis + shift)
        if anchor.lo ≠ anchor.hi then
          let lo ← shiftedChecked anchor.lo shift
          let hi ← shiftedChecked anchor.hi shift
          return ⟨some sort, lo, hi⟩
        else return ⟨some sort, some sort, some sort⟩

/-- What a reference asks for is in the range. -/
def InReach (reference : TemporalRef) (anchor : Option OccurrenceBounds) (epsilonMillis : Int) :
    Prop :=
  match reference with
  | .day date => ∀ midnight, date.midnightMillis = some midnight →
      inRange ⟨midnight + millisPerDay - 1⟩ = true
  | .approx center fuzzDays => inRange ⟨center.millis - (fuzzDays : Int) * millisPerDay⟩ = true ∧
      inRange ⟨center.millis + (fuzzDays : Int) * millisPerDay⟩ = true
  | .beforeAfter dir _ => ∀ bounds sort, anchor = some bounds → bounds.sort = some sort →
      inRange ⟨sort.millis + dir.shift epsilonMillis⟩ = true ∧
        (bounds.lo ≠ bounds.hi → ∀ instant, bounds.lo = some instant ∨ bounds.hi = some instant →
          inRange ⟨instant.millis + dir.shift epsilonMillis⟩ = true)
  | _ => True

/-- What the types of a reference hold: instants in the range, and a day as the date library
reads it. -/
def Held (library : DateLibrary) : TemporalRef → Prop
  | .instant present => inRange present = true
  | .day date => date.midnightMillis = library.civil date.text
  | .range start finish => inRange start = true ∧ inRange finish = true
  | .approx center _ => inRange center = true
  | _ => True

/-- The instant of some bounds lies between their ends, and all three in the range. -/
structure Sound (bounds : OccurrenceBounds) : Prop where
  between : ∀ sort, bounds.sort = some sort → ∃ lo hi, bounds.lo = some lo ∧ bounds.hi = some hi ∧
    lo.millis ≤ sort.millis ∧ sort.millis ≤ hi.millis
  held : ∀ instant, bounds.sort = some instant ∨ bounds.lo = some instant ∨
    bounds.hi = some instant → inRange instant = true

section Bounds

variable {library : DateLibrary} {reference : TemporalRef} {anchor : Option OccurrenceBounds}
variable {bounds : OccurrenceBounds} {epsilonMillis millis : Int} {instant lo hi : Timestamp}

theorem fromMillis_of_inRange (within : inRange ⟨millis⟩ = true) :
    fromMillis millis = some ⟨millis⟩ := if_pos within

theorem fromMillis_isSome : (fromMillis millis).isSome = true ↔ inRange ⟨millis⟩ = true := by
  unfold fromMillis
  split <;> simp_all

theorem inRange_between (first : inRange lo = true) (last : inRange hi = true)
    (above : lo.millis ≤ millis) (below : millis ≤ hi.millis) : inRange ⟨millis⟩ = true := by
  simp only [inRange, Bool.and_eq_true, decide_eq_true_eq] at *
  omega

theorem sound_unbounded : Sound OccurrenceBounds.unbounded where
  between sort none := by cases none
  held instant among := by simp [OccurrenceBounds.unbounded] at among

theorem sound_of_between {sort : Timestamp} (first : inRange lo = true) (last : inRange hi = true)
    (above : lo.millis ≤ sort.millis) (below : sort.millis ≤ hi.millis) :
    Sound ⟨some sort, some lo, some hi⟩ where
  between other here := by
    cases here
    exact ⟨lo, hi, rfl, rfl, above, below⟩
  held other among := by
    rcases among with here | here | here
    · cases here
      exact inRange_between first last above below
    · cases here
      exact first
    · cases here
      exact last

theorem halfway (ordered : lo.millis ≤ hi.millis) :
    lo.millis ≤ (lo.millis + hi.millis).tdiv 2 ∧ (lo.millis + hi.millis).tdiv 2 ≤ hi.millis := by
  rw [Int.tdiv_eq_ediv]
  split_ifs
  · omega
  · have sign : Int.sign 2 = 1 := rfl
    omega

/-- A reference has some bounds, computed as they are meant to be, and in order. -/
def Bounds (reference : TemporalRef) (anchor : Option OccurrenceBounds) (epsilonMillis : Int)
    (bounds : OccurrenceBounds) : Prop :=
  boundsChecked reference anchor epsilonMillis = some bounds ∧
    reference.bounds anchor epsilonMillis = bounds ∧ Sound bounds

theorem bounds_day {date : CivilDate} {midnight : Int} (read : date.midnightMillis = some midnight)
    (first : inRange ⟨midnight⟩ = true) (last : inRange ⟨midnight + millisPerDay - 1⟩ = true) :
    Bounds (.day date) anchor epsilonMillis
      ⟨some ⟨midnight + millisPerDay / 2⟩, some ⟨midnight⟩, some ⟨midnight + millisPerDay - 1⟩⟩ := by
  have day : millisPerDay = 86400000 := by decide
  have noon : inRange ⟨midnight + millisPerDay / 2⟩ = true :=
    inRange_between first last (by simp only; omega) (by simp only; omega)
  refine ⟨?_, ?_, sound_of_between first last (by simp only; omega) (by simp only; omega)⟩
  · simp [boundsChecked, read, fromMillis_of_inRange first, fromMillis_of_inRange last,
      fromMillis_of_inRange noon]
  · simp [TemporalRef.bounds, read]

theorem bounds_range {start finish : Timestamp} (first : inRange start = true)
    (last : inRange finish = true) :
    ∃ bounds, Bounds (.range start finish) anchor epsilonMillis bounds := by
  have ordered : ∀ lo hi : Timestamp, inRange lo = true → inRange hi = true →
      lo.millis ≤ hi.millis → inRange ⟨(lo.millis + hi.millis).tdiv 2⟩ = true ∧
        Sound ⟨some ⟨(lo.millis + hi.millis).tdiv 2⟩, some lo, some hi⟩ := by
    intro lo hi first last le
    have ⟨above, below⟩ := halfway le
    exact ⟨inRange_between first last above below, sound_of_between first last above below⟩
  by_cases le : start.millis ≤ finish.millis
  · obtain ⟨within, sound⟩ := ordered start finish first last le
    refine ⟨_, ?_, ?_, sound⟩
    · simp [boundsChecked, le, fromMillis_of_inRange within]
    · simp [TemporalRef.bounds, le]
  · obtain ⟨within, sound⟩ := ordered finish start last first (by omega)
    refine ⟨_, ?_, ?_, sound⟩
    · simp [boundsChecked, le, fromMillis_of_inRange within]
    · simp [TemporalRef.bounds, le]

theorem bounds_approx {center : Timestamp} {fuzzDays : Nat}
    (first : inRange ⟨center.millis - (fuzzDays : Int) * millisPerDay⟩ = true)
    (last : inRange ⟨center.millis + (fuzzDays : Int) * millisPerDay⟩ = true) :
    Bounds (.approx center fuzzDays) anchor epsilonMillis
      ⟨some center, some ⟨center.millis - (fuzzDays : Int) * millisPerDay⟩,
        some ⟨center.millis + (fuzzDays : Int) * millisPerDay⟩⟩ := by
  have fuzz : 0 ≤ (fuzzDays : Int) * millisPerDay :=
    Int.mul_nonneg (Int.natCast_nonneg _) (by decide)
  refine ⟨?_, rfl, sound_of_between first last (by simp only; omega) (by simp only; omega)⟩
  simp [boundsChecked, fromMillis_of_inRange first, fromMillis_of_inRange last]

theorem bounds_beforeAfter {dir : Direction} {name : MemoryName} {bounds : OccurrenceBounds}
    {sort : Timestamp} (timed : bounds.sort = some sort) (sound : Sound bounds)
    (within : inRange ⟨sort.millis + dir.shift epsilonMillis⟩ = true)
    (ends : bounds.lo ≠ bounds.hi → ∀ instant, bounds.lo = some instant ∨ bounds.hi = some instant →
      inRange ⟨instant.millis + dir.shift epsilonMillis⟩ = true) :
    ∃ moved, Bounds (.beforeAfter dir name) (some bounds) epsilonMillis moved := by
  obtain ⟨lo, hi, least, greatest, above, below⟩ := sound.between sort timed
  by_cases vague : bounds.lo ≠ bounds.hi
  · have first := ends vague lo (.inl least)
    have last := ends vague hi (.inr greatest)
    rw [least, greatest, ne_eq, Option.some.injEq] at vague
    refine ⟨⟨some ⟨sort.millis + dir.shift epsilonMillis⟩,
      some ⟨lo.millis + dir.shift epsilonMillis⟩, some ⟨hi.millis + dir.shift epsilonMillis⟩⟩,
      ?_, ?_, sound_of_between first last (by simp only; omega) (by simp only; omega)⟩
    · simp [boundsChecked, timed, least, greatest, vague, shiftedChecked,
        fromMillis_of_inRange within, fromMillis_of_inRange first, fromMillis_of_inRange last]
    · simp [TemporalRef.bounds, timed, least, greatest, vague, Core.shifted]
  · refine ⟨OccurrenceBounds.point ⟨sort.millis + dir.shift epsilonMillis⟩, ?_, ?_,
      sound_of_between within within le_rfl le_rfl⟩
    · simp [boundsChecked, timed, vague, fromMillis_of_inRange within, OccurrenceBounds.point]
    · simp [TemporalRef.bounds, timed, vague, OccurrenceBounds.point]

theorem bounds_of_inReach (laws : library.Lawful) (held : Held library reference)
    (anchored : ∀ bounds, anchor = some bounds → Sound bounds)
    (reach : InReach reference anchor epsilonMillis) :
    ∃ bounds, Bounds reference anchor epsilonMillis bounds := by
  cases reference with
  | instant =>
    exact ⟨_, rfl, rfl, sound_of_between held held le_rfl le_rfl⟩
  | day date =>
    cases read : date.midnightMillis with
    | none =>
      refine ⟨_, ?_, ?_, sound_unbounded⟩
      · simp [boundsChecked, read]
      · simp [TemporalRef.bounds, read]
    | some midnight =>
      have first : inRange ⟨midnight⟩ = true := by
        rw [← laws.ranged]
        exact laws.civil _ _ (held.symm.trans read)
      exact ⟨_, bounds_day read first (reach midnight read)⟩
  | range => exact bounds_range held.1 held.2
  | approx => exact ⟨_, bounds_approx reach.1 reach.2⟩
  | recurring => exact ⟨_, rfl, rfl, sound_unbounded⟩
  | beforeAfter =>
    cases anchor with
    | none => exact ⟨_, rfl, rfl, sound_unbounded⟩
    | some bounds =>
      cases timed : bounds.sort with
      | none =>
        refine ⟨_, ?_, ?_, sound_unbounded⟩
        · simp [boundsChecked, timed]
        · simp [TemporalRef.bounds, timed]
      | some sort =>
        obtain ⟨within, ends⟩ := reach bounds sort rfl timed
        exact bounds_beforeAfter timed (anchored bounds rfl) within ends

theorem inReach_of_boundsChecked
    (computed : (boundsChecked reference anchor epsilonMillis).isSome = true) :
    InReach reference anchor epsilonMillis := by
  obtain ⟨bounds, computed⟩ := Option.isSome_iff_exists.mp computed
  cases reference with
  | day =>
    intro midnight read
    simp only [boundsChecked, read, Option.bind_eq_bind, Option.bind_eq_some_iff] at computed
    obtain ⟨_, _, _, _, hi, last, _⟩ := computed
    exact fromMillis_isSome.mp (by rw [last]; rfl)
  | approx =>
    simp only [boundsChecked, Option.bind_eq_bind, Option.bind_eq_some_iff] at computed
    obtain ⟨lo, first, hi, last, _⟩ := computed
    exact ⟨fromMillis_isSome.mp (by rw [first]; rfl), fromMillis_isSome.mp (by rw [last]; rfl)⟩
  | beforeAfter dir name =>
    rintro anchor anchorSort rfl timed
    simp only [boundsChecked, timed, Option.bind_eq_bind, Option.bind_eq_some_iff] at computed
    obtain ⟨sort, moved, computed⟩ := computed
    refine ⟨fromMillis_isSome.mp (by rw [moved]; rfl), fun vague instant among => ?_⟩
    have computes : ∀ present : Option Timestamp, ∀ result,
        shiftedChecked present (dir.shift epsilonMillis) = some result →
          present = some instant → inRange ⟨instant.millis + dir.shift epsilonMillis⟩ = true := by
      rintro present result shifts rfl
      obtain ⟨_, first, _⟩ := Option.map_eq_some_iff.mp shifts
      exact fromMillis_isSome.mp (by rw [first]; rfl)
    simp only [ne_eq, vague, not_false_eq_true, ↓reduceIte, Option.bind_eq_some_iff] at computed
    obtain ⟨lo, first, hi, last, _⟩ := computed
    rcases among with here | here
    · exact computes _ _ first here
    · exact computes _ _ last here
  | instant | range | recurring => trivial

end Bounds

/-! ### What the extractor makes of a reply -/

/-- The date library with its reading of an instant. -/
structure InstantLibrary extends DateLibrary where
  instantOf : String → Option Timestamp

/-- What the date library's documentation promises: an instant it reads is in its range. -/
structure InstantLibrary.Lawful (library : InstantLibrary) : Prop extends
    dates : library.toDateLibrary.Lawful where
  instantOf : ∀ (text : String) (instant : Timestamp), library.instantOf text = some instant →
    library.represents instant = true

/-- A time as a model's reply gives it. -/
inductive ExtractedTime where
  | instant (text : String)
  | day (text : String)
  | range (start finish : String)
  | approx (center : String) (fuzzDays : Nat)
  | recurring (rule : String)
  | beforeAfter (dir anchor : String)
  deriving DecidableEq, Repr

/-- A text without the white space around it. -/
def trimmedText (text : String) : String := String.ofList (trimmed text.toList)

section Extraction

variable (library : InstantLibrary)

/-- A day, where the text names one. -/
def civilDate (text : String) : Option CivilDate :=
  (library.civil (trimmedText text)).map fun midnight => ⟨trimmedText text, some midnight⟩

/-- A day, taken at midnight, or an instant. -/
def dateOrDatetime (text : String) : Option Timestamp :=
  ((library.civil (trimmedText text)).map fun midnight => ⟨midnight⟩).or
    (library.instantOf (trimmedText text))

/-- The reference a time stands for, where its dates can be read. -/
def ExtractedTime.intoTemporalRef : ExtractedTime → Option TemporalRef
  | .instant text =>
    match civilDate library text with
    | some date => some (.day date)
    | none => (library.instantOf (trimmedText text)).map .instant
  | .day text => (civilDate library text).map .day
  | .range start finish =>
    (dateOrDatetime library start).bind fun start =>
      (dateOrDatetime library finish).map fun finish => .range start finish
  | .approx center fuzzDays =>
    (dateOrDatetime library center).map fun center => .approx center fuzzDays
  | .recurring rule => if rruleIsSupported rule then some (.recurring rule) else none
  | .beforeAfter dir anchor =>
    let side := asciiLowercase (trimmedText dir)
    if side = "before" then some (.beforeAfter .before ⟨anchor⟩)
    else if side = "after" then some (.beforeAfter .after ⟨anchor⟩)
    else none

variable {library}

theorem civilDate_held {text : String} {date : CivilDate}
    (read : civilDate library text = some date) : date.midnightMillis = library.civil date.text := by
  obtain ⟨midnight, here, rfl⟩ := Option.map_eq_some_iff.mp read
  exact here.symm

theorem dateOrDatetime_held (laws : library.Lawful) {text : String} {instant : Timestamp}
    (read : dateOrDatetime library text = some instant) : inRange instant = true := by
  rw [← laws.ranged]
  rcases Option.or_eq_some_iff.mp read with here | ⟨_, here⟩
  · obtain ⟨midnight, day, rfl⟩ := Option.map_eq_some_iff.mp here
    exact laws.civil _ _ day
  · exact laws.instantOf _ _ here

theorem intoTemporalRef_held (laws : library.Lawful) {time : ExtractedTime}
    {reference : TemporalRef} (made : time.intoTemporalRef library = some reference) :
    Held library.toDateLibrary reference ∧
      MemoryBlock.validateOccurredAt (some reference) = .ok () := by
  cases time with
  | instant text =>
    rw [ExtractedTime.intoTemporalRef] at made
    cases read : civilDate library text with
    | some =>
      rw [read] at made
      cases made
      exact ⟨civilDate_held read, rfl⟩
    | none =>
      rw [read] at made
      obtain ⟨instant, here, rfl⟩ := Option.map_eq_some_iff.mp made
      exact ⟨(laws.ranged _).symm.trans (laws.instantOf _ _ here), rfl⟩
  | day =>
    obtain ⟨date, read, rfl⟩ := Option.map_eq_some_iff.mp made
    exact ⟨civilDate_held read, rfl⟩
  | range =>
    obtain ⟨first, read, made⟩ := Option.bind_eq_some_iff.mp made
    obtain ⟨last, read', rfl⟩ := Option.map_eq_some_iff.mp made
    exact ⟨⟨dateOrDatetime_held laws read, dateOrDatetime_held laws read'⟩, rfl⟩
  | approx =>
    obtain ⟨instant, read, rfl⟩ := Option.map_eq_some_iff.mp made
    exact ⟨dateOrDatetime_held laws read, rfl⟩
  | recurring rule =>
    rw [ExtractedTime.intoTemporalRef] at made
    split at made
    · rename_i supported
      cases made
      exact ⟨trivial, by simp [MemoryBlock.validateOccurredAt, supported]⟩
    · cases made
  | beforeAfter =>
    rw [ExtractedTime.intoTemporalRef] at made
    split at made
    · cases made
      exact ⟨trivial, rfl⟩
    · split at made
      · cases made
        exact ⟨trivial, rfl⟩
      · cases made

end Extraction

/-! ### A log folded -/

/-- The reference an event dates an entry with. -/
def occurrenceOf : EventPayload → Option TemporalRef
  | .memoryContentAppended _ _ _ occurredAt _ _ _ _ => occurredAt
  | .entryTemporalResolved _ _ occurredAt _ => occurredAt
  | _ => none

/-- The bounds of the memory a reference is anchored to. -/
def anchorOf (graph : Graph) (reference : TemporalRef) : Option OccurrenceBounds :=
  reference.anchorName.bind (anchorBounds graph)

/-- Fold one event, the bounds of its reference computed first. The outer `none` is a stopped
thread. -/
def applyChecked (event : Event) (graph : Graph) : Option (Except Violation Graph) :=
  match occurrenceOf event.payload with
  | none => some (apply event graph)
  | some reference =>
    (boundsChecked reference (anchorOf graph reference) beforeAfterEpsilonMillis).map fun _ =>
      apply event graph

/-- Fold a log. -/
def foldChecked : List Event → Graph → Option (Except Violation Graph)
  | [], graph => some (.ok graph)
  | event :: rest, graph =>
    (applyChecked event graph).bind fun folded =>
      match folded with
      | .ok after => foldChecked rest after
      | .error failure => some (.error failure)

/-- Each reference of a log is in reach when the fold comes to it. -/
def FoldsInReach : List Event → Graph → Prop
  | [], _ => True
  | event :: rest, graph =>
    (∀ reference, occurrenceOf event.payload = some reference →
      InReach reference (anchorOf graph reference) beforeAfterEpsilonMillis) ∧
    ∀ after, apply event graph = .ok after → FoldsInReach rest after

/-- The bounds stored are in order and in the range. -/
def AllSound (graph : Graph) : Prop := ∀ row ∈ graph.entries, Sound row.occurrence.bounds

section Folding

variable {library : DateLibrary} {graph before after : Graph} {event : Event} {log : List Event}

theorem foldl_earlier_mem (first : OccurrenceBounds) (rest : List OccurrenceBounds) :
    rest.foldl earlier first ∈ first :: rest := by
  induction rest generalizing first with
  | nil => exact List.mem_singleton_self _
  | cons next rest ih =>
    have either : earlier first next = first ∨ earlier first next = next := by
      unfold earlier
      split
      · split
        · exact .inr rfl
        · exact .inl rfl
      · exact .inl rfl
    rw [List.foldl_cons]
    rcases List.mem_cons.mp (ih (earlier first next)) with here | later
    · rw [here]
      rcases either with same | same <;> simp [same]
    · exact List.mem_cons_of_mem _ (List.mem_cons_of_mem _ later)

theorem AllSound.anchorOf (sound : AllSound graph) (reference : TemporalRef) :
    ∀ bounds, anchorOf graph reference = some bounds → Sound bounds := by
  intro bounds anchored
  obtain ⟨name, _, found⟩ := Option.bind_eq_some_iff.mp anchored
  unfold anchorBounds earliest at found
  split at found
  · cases found
  · rename_i first rest listed
    cases found
    have member := foldl_earlier_mem first rest
    rw [← listed] at member
    obtain ⟨row, among, same⟩ := List.mem_map.mp member
    rw [← same]
    exact sound row (List.mem_filter.mp among).1

theorem AllSound.columns (sound : AllSound before) (laws : library.Lawful)
    {occurredAt : Option TemporalRef}
    (held : ∀ reference, occurredAt = some reference → Held library reference)
    (reach : ∀ reference, occurredAt = some reference →
      InReach reference (Describe.anchorOf before reference) beforeAfterEpsilonMillis) :
    Sound (occurrenceColumns before occurredAt).bounds := by
  cases occurredAt with
  | none => exact sound_unbounded
  | some reference =>
    obtain ⟨bounds, _, meant, ordered⟩ := bounds_of_inReach laws (held reference rfl)
      (sound.anchorOf reference) (reach reference rfl)
    have columns : (occurrenceColumns before (some reference)).bounds = bounds := meant
    rwa [columns]

theorem entryChange_occurrence_cases (row : EntryRow) :
    (entryChange event before row).occurrence = row.occurrence ∨
      ∃ memory entry occurredAt producedBy,
        event.payload = .entryTemporalResolved memory entry occurredAt producedBy ∧
          (entryChange event before row).occurrence = occurrenceColumns before occurredAt := by
  by_cases resolves : ∃ memory entry occurredAt producedBy,
      event.payload = .entryTemporalResolved memory entry occurredAt producedBy
  · obtain ⟨memory, entry, occurredAt, producedBy, payload⟩ := resolves
    by_cases own : row.entryId = entry
    · exact .inr ⟨memory, entry, occurredAt, producedBy, payload, by simp [entryChange, payload, own]⟩
    · exact .inl (by simp [entryChange, payload, own])
  · left
    unfold entryChange
    split <;> first | rfl | (split <;> rfl) | skip
    rename_i payload
    exact absurd ⟨_, _, _, _, payload⟩ resolves

theorem AllSound.apply (sound : AllSound before) (laws : library.Lawful)
    (held : ∀ reference, occurrenceOf event.payload = some reference → Held library reference)
    (reach : ∀ reference, occurrenceOf event.payload = some reference →
      InReach reference (Describe.anchorOf before reference) beforeAfterEpsilonMillis)
    (applied : Graph.apply event before = .ok after) : AllSound after := by
  intro row member
  rcases (mem_entries_apply applied).mp member with ⟨old, among, rfl⟩ | appended
  · rcases entryChange_occurrence_cases old with kept | ⟨_, _, occurredAt, _, payload, stored⟩
    · rw [kept]
      exact sound old among
    · rw [stored]
      rw [payload] at held reach
      exact sound.columns laws held reach
  · unfold appendedRow at appended
    split at appended
    · rename_i payload
      cases appended
      rw [payload] at held reach
      exact sound.columns laws held reach
    · cases appended

theorem applyChecked_isSome (sound : AllSound before) (laws : library.Lawful)
    (held : ∀ reference, occurrenceOf event.payload = some reference → Held library reference) :
    (applyChecked event before).isSome = true ↔
      ∀ reference, occurrenceOf event.payload = some reference →
        InReach reference (Describe.anchorOf before reference) beforeAfterEpsilonMillis := by
  unfold applyChecked
  cases dated : occurrenceOf event.payload with
  | none => simp
  | some reference =>
    simp only [Option.isSome_map, Option.some.injEq, forall_eq']
    constructor
    · exact inReach_of_boundsChecked
    · intro reach
      obtain ⟨bounds, computed, _⟩ := bounds_of_inReach laws (held reference dated)
        (sound.anchorOf reference) reach
      rw [computed]
      rfl

theorem applyChecked_eq {folded : Except Violation Graph}
    (through : applyChecked event before = some folded) : folded = Graph.apply event before := by
  unfold applyChecked at through
  split at through
  · exact (Option.some.inj through).symm
  · obtain ⟨_, _, rfl⟩ := Option.map_eq_some_iff.mp through
    rfl

theorem foldChecked_spec (sound : AllSound graph) (laws : library.Lawful)
    (held : ∀ event ∈ log, ∀ reference, occurrenceOf event.payload = some reference →
      Held library reference) :
    ((foldChecked log graph).isSome = true ↔ FoldsInReach log graph) ∧
      ∀ folded, foldChecked log graph = some folded → folded = foldLog Graph.apply log graph ∧
        ∀ after, folded = .ok after → AllSound after := by
  induction log generalizing graph with
  | nil =>
    refine ⟨by simp [foldChecked, FoldsInReach], fun folded through => ?_⟩
    cases through
    refine ⟨rfl, fun after same => ?_⟩
    cases same
    exact sound
  | cons event rest ih =>
    have here := held event List.mem_cons_self
    have later : ∀ other ∈ rest, ∀ reference, occurrenceOf other.payload = some reference →
        Held library reference := fun other member => held other (List.mem_cons_of_mem _ member)
    have first := applyChecked_isSome sound laws here
    rw [foldChecked, FoldsInReach, ← first, foldLog_cons]
    cases checked : applyChecked event graph with
    | none => simp
    | some folded =>
      have reach := first.mp (by rw [checked]; rfl)
      obtain rfl := applyChecked_eq checked
      cases applied : Graph.apply event graph with
      | error =>
        refine ⟨by simp, fun folded through => ?_⟩
        cases through
        refine ⟨rfl, fun after same => by cases same⟩
      | ok =>
        have rest' := ih (sound.apply laws here reach applied) later
        simpa [Except.bind] using rest'

end Folding

/-- Over everything a reference can hold, whether deserialized and validated or made by the
extractor, the bounds are computed just where the reference is in reach, and then are what they
are meant to be, in order; and a log of such references folds just where each in turn is. -/
theorem occurrence_bounds_iff (library : InstantLibrary) (laws : library.Lawful) :
    (∀ time reference, ExtractedTime.intoTemporalRef library time = some reference →
      Held library.toDateLibrary reference ∧
        MemoryBlock.validateOccurredAt (some reference) = .ok ()) ∧
    (∀ reference, Held library.toDateLibrary reference → ∀ anchor epsilonMillis,
      (∀ bounds, anchor = some bounds → Sound bounds) →
      ((boundsChecked reference anchor epsilonMillis).isSome = true ↔
        InReach reference anchor epsilonMillis) ∧
      ∀ bounds, boundsChecked reference anchor epsilonMillis = some bounds →
        reference.bounds anchor epsilonMillis = bounds ∧ Sound bounds) ∧
    ∀ log, (∀ event ∈ log, ∀ reference, occurrenceOf event.payload = some reference →
        Held library.toDateLibrary reference) →
      ((foldChecked log Graph.fresh).isSome = true ↔ FoldsInReach log Graph.fresh) ∧
      ∀ graph, foldChecked log Graph.fresh = some (.ok graph) →
        foldLog Graph.apply log Graph.fresh = .ok graph ∧ AllSound graph := by
  refine ⟨fun _ _ => intoTemporalRef_held laws, ?_, ?_⟩
  · intro reference held anchor epsilonMillis anchored
    refine ⟨⟨inReach_of_boundsChecked, fun reach => ?_⟩, fun bounds computed => ?_⟩
    · obtain ⟨bounds, computed, _⟩ := bounds_of_inReach laws.dates held anchored reach
      rw [computed]
      rfl
    · have reach : InReach reference anchor epsilonMillis :=
        inReach_of_boundsChecked (by rw [computed]; rfl)
      obtain ⟨other, same, meant, sound⟩ := bounds_of_inReach laws.dates held anchored reach
      cases computed.symm.trans same
      exact ⟨meant, sound⟩
  · intro log held
    have nothing : AllSound Graph.fresh := by
      rintro row ⟨⟩
    obtain ⟨folds, leaves⟩ := foldChecked_spec nothing laws.dates held
    refine ⟨folds, fun graph through => ?_⟩
    obtain ⟨meant, sound⟩ := leaves _ through
    exact ⟨meant.symm, sound graph rfl⟩

/-! ### The ends of the calendar -/

namespace CalendarEnds

def library : InstantLibrary := { GregorianDates.library with instantOf := fun _ => none }

theorem lawful : library.Lawful where
  dates := GregorianDates.lawful
  instantOf text instant read := by cases read

def memory : EventPayload := .memoryCreated ⟨1⟩ ⟨"topic/tea"⟩
def dated (reference : TemporalRef) : EventPayload :=
  .memoryContentAppended ⟨1⟩ ⟨2⟩ ⟨0⟩ (some reference) "the harvest" .agent none .public
def log (reference : TemporalRef) : List Event := stamp 0 ⟨0⟩ .agent [memory, dated reference]

def lastDay : TemporalRef := .day ⟨"9999-12-30", some 253402128000000⟩
def vague : TemporalRef := .approx ⟨0⟩ (2 ^ 32 - 1)
def summer : TemporalRef := .day ⟨"2026-06-08", some 1780876800000⟩

/-- Both are made from a reply, and admitted, and stop the fold of the log they are in; and so does
the hour after an instant at the end of the range. -/
theorem fold_stopped :
    (ExtractedTime.day "9999-12-30").intoTemporalRef library = some lastDay ∧
      MemoryBlock.validateOccurredAt (some vague) = .ok () ∧
      boundsChecked lastDay none beforeAfterEpsilonMillis = none ∧
      boundsChecked vague none beforeAfterEpsilonMillis = none ∧
      boundsChecked (.beforeAfter .after ⟨"topic/tea"⟩)
        (some (OccurrenceBounds.point ⟨253402207200999⟩)) beforeAfterEpsilonMillis = none ∧
      foldChecked (log lastDay) Graph.fresh = none ∧
      foldChecked (log vague) Graph.fresh = none := by
  decide +kernel

/-- A day in summer folds. -/
theorem summer_folded : (foldChecked (log summer) Graph.fresh).isSome = true := by
  have read : library.civil "2026-06-08" = some 1780876800000 := by decide +kernel
  refine ((occurrence_bounds_iff library lawful).2.2 (log summer) ?_).1.mpr ?_
  · intro event member reference dates
    simp only [log, stamp, List.mem_cons, List.not_mem_nil, or_false] at member
    rcases member with rfl | rfl
    · cases dates
    · cases dates
      exact read.symm
  · refine ⟨fun reference dates => (by cases dates), fun after _ => ⟨fun reference dates => ?_,
      fun _ _ => trivial⟩⟩
    cases dates
    intro midnight same
    cases same
    decide

end CalendarEnds

end Zuihitsu.Describe
