/-
# What a script asks of the calendar

The calendar reads and the date constructors compute with whatever counts and dates a script
passes. Sums that leave 64 bits are saturated or refused, but the range of the date library
ends long before: an instant past it is not refused, it stops the thread. So a call answers
exactly where the instants it asks for are in the range, and, where recurring entries are
looked at, where the step of each rule can be computed.
-/

import Zuihitsu.Block.Calendar
import Zuihitsu.Schedule.Safety

namespace Zuihitsu

open Zuihitsu.Core Zuihitsu.Graph Zuihitsu.Library Zuihitsu.MemoryBlock Zuihitsu.Schedule

/-- What the date library provides besides its calendar: midnight of the day a text names, and
the day and the weekday of an instant as texts. -/
structure DateLibrary extends Calendar where
  civil : String → Option Int
  dayText : Timestamp → String
  weekdayText : Timestamp → String

/-- What the date library's documentation promises: its range, and that midnight of a day it
reads lies in it. -/
structure DateLibrary.Lawful (library : DateLibrary) : Prop extends
    library.toCalendar.Lawful where
  ranged : ∀ instant : Timestamp, library.represents instant = inRange instant
  civil : ∀ (date : String) (midnight : Int), library.civil date = some midnight →
    library.represents ⟨midnight⟩ = true

/-- A bad argument to a date constructor. -/
inductive CalendarError where
  | notAWeekday (input : String)
  | dateOutOfRange (days : Int)
  | invalidDay (input : String)
  deriving DecidableEq, Repr

/-- The date constructors, and the methods of a date. -/
inductive DateCall where
  | next (weekday : String)
  | inDays (count : Int)
  | inWeeks (count : Int)
  | addDays (day : String) (count : Int)
  | addWeeks (day : String) (count : Int)
  | addMonths (day : String) (count : Int)
  | weekday (day : String)
  deriving DecidableEq, Repr

/-! ### Date arithmetic

The outer `none` is a stopped thread. -/

namespace DateLibrary

variable (library : DateLibrary)

/-- A civil day shifted by a number of days. -/
def addDays (date : String) (days : Int) : Option (Option String) :=
  match library.civil date with
  | none => some none
  | some midnight =>
    match (checkedMul days millisPerDay).bind (checkedAdd midnight) with
    | none => some none
    | some reached => (library.tryFromMillis reached).map fun at' => some (library.dayText at')

/-- A civil day shifted by a number of months. -/
def addMonths (date : String) (months : Int) : Option (Option String) :=
  match library.civil date with
  | none => some none
  | some midnight =>
    (library.tryFromMillis midnight).map fun start =>
      (library.addCalendar start months 0).map library.dayText

/-- The weekday of a civil day. -/
def weekday (date : String) : Option (Option String) :=
  match library.civil date with
  | none => some none
  | some midnight =>
    (library.tryFromMillis midnight).map fun at' => some (library.weekdayText at')

/-- The first of some offsets from a day that falls on a weekday. -/
def soonest (today target : String) : List Nat → Option (Option String)
  | [] => some none
  | offset :: later =>
    (library.addDays today offset).bind fun day =>
      match day with
      | none => soonest today target later
      | some day =>
        (library.weekday day).bind fun name =>
          if name.map asciiLowercase = some target then some (some day)
          else soonest today target later

end DateLibrary

/-- The names of the days of a week. -/
def weekdays : List String :=
  ["monday", "tuesday", "wednesday", "thursday", "friday", "saturday", "sunday"]

/-- A name without the white space around it, in lower case. -/
def weekdayTarget (name : String) : String :=
  asciiLowercase (String.ofList (trimmed name.toList))

/-- The soonest day on or after today of a weekday. -/
def DateLibrary.nextWeekday (library : DateLibrary) (now : Timestamp) (name : String) :
    Option (Option String) :=
  if weekdayTarget name ∈ weekdays then
    library.soonest (library.dayText now) (weekdayTarget name) (List.range 7)
  else some none

/-- A value, or the error in its place. -/
def orError (failure : CalendarError) : Option String → Except CalendarError String
  | none => .error failure
  | some text => .ok text

/-- What a call answers. A count of weeks saturates, as a count of days does. -/
def DateCall.answer (library : DateLibrary) (now : Timestamp) :
    DateCall → Option (Except CalendarError String)
  | .next name => (library.nextWeekday now name).map (orError (.notAWeekday name))
  | .inDays count =>
    (library.addDays (library.dayText now) (saturatedI64 (count * 1))).map
      (orError (.dateOutOfRange (saturatedI64 (count * 1))))
  | .inWeeks count =>
    (library.addDays (library.dayText now) (saturatedI64 (count * 7))).map
      (orError (.dateOutOfRange (saturatedI64 (count * 7))))
  | .addDays day count =>
    (library.addDays day (saturatedI64 (count * 1))).map (orError (.invalidDay day))
  | .addWeeks day count =>
    (library.addDays day (saturatedI64 (count * 7))).map (orError (.invalidDay day))
  | .addMonths day count => (library.addMonths day count).map (orError (.invalidDay day))
  | .weekday day => (library.weekday day).map (orError (.invalidDay day))

/-! ### What is in reach -/

section Reach

variable (library : DateLibrary) (graph : Graph) (now : Timestamp)

/-- A number of days from a midnight is in the range, or leaves 64 bits and is refused. -/
def DaysReach (midnight days : Int) : Prop :=
  FitsI64 (days * millisPerDay) → FitsI64 (midnight + days * millisPerDay) →
    inRange ⟨midnight + days * millisPerDay⟩ = true

/-- A number of days from a day is in reach, where the day is one. -/
def ShiftReaches (date : String) (days : Int) : Prop :=
  ∀ midnight, library.civil date = some midnight → DaysReach midnight days

/-- The day an offset after a midnight is read back as one of a weekday. -/
def LandsOn (midnight : Int) (target : String) (offset : Nat) : Prop :=
  (library.civil (library.dayText ⟨midnight + offset * millisPerDay⟩)).map
    (fun landed => asciiLowercase (library.weekdayText ⟨landed⟩)) = some target

/-- What a call asks for is in reach. Of the days a weekday is looked for on, those up to the
first one found are. -/
def DateCall.InReach : DateCall → Prop
  | .next name => weekdayTarget name ∈ weekdays →
    ∀ midnight, library.civil (library.dayText now) = some midnight → ∀ offset : Nat, offset < 7 →
      (∀ earlier : Nat, earlier < offset → ¬ LandsOn library midnight (weekdayTarget name) earlier) →
        inRange ⟨midnight + offset * millisPerDay⟩ = true
  | .inDays count => ShiftReaches library (library.dayText now) (saturatedI64 (count * 1))
  | .inWeeks count => ShiftReaches library (library.dayText now) (saturatedI64 (count * 7))
  | .addDays day count => ShiftReaches library day (saturatedI64 (count * 1))
  | .addWeeks day count => ShiftReaches library day (saturatedI64 (count * 7))
  | .addMonths _ _ => True
  | .weekday _ => True

/-- The step of every live recurring entry's rule can be computed. -/
def RulesCompute (after : Timestamp) : Prop :=
  ∀ item ∈ graph.liveCounted, ∀ rule, recurringRule item.2 = some rule →
    Computes true rule item.2.assertedAt after

/-- The ends of a window are in the range; and where recurring entries are looked at, so is the
millisecond before it, from which their steps can be computed. -/
def WindowReaches (start last : Int) (includeRecurring : Bool) : Prop :=
  inRange ⟨start⟩ = true ∧ inRange ⟨last⟩ = true ∧
    (includeRecurring = true → inRange ⟨start - 1⟩ = true ∧ RulesCompute graph ⟨start - 1⟩)

/-- The window a read asks for is in reach. -/
def CalendarRead.InReach : CalendarRead → Prop
  | .upcoming within => ∀ span, spanOf defaultUpcomingDays within = .ok span →
    WindowReaches graph now.millis (now.millis + span) true
  | .overdue within => ∀ span, spanOf defaultOverdueDays within = .ok span →
    WindowReaches graph (now.millis - span) now.millis false
  | .on date => ∀ midnight, library.civil date = some midnight →
    WindowReaches graph midnight (midnight + millisPerDay - 1) true
  | .recurring => True

end Reach

section Answers

variable {library : DateLibrary} {graph : Graph} {now : Timestamp}

theorem inRange_saturated (value : Int) : inRange ⟨saturatedI64 value⟩ = inRange ⟨value⟩ := by
  rw [Bool.eq_iff_iff]
  simp only [inRange, saturatedI64, Bool.and_eq_true, decide_eq_true_eq, max_def, min_def]
  split_ifs <;> omega

theorem DateLibrary.Lawful.tryFromMillis_saturated (laws : library.Lawful) (value : Int) :
    library.tryFromMillis (saturatedI64 value) = library.tryFromMillis value := by
  rw [Calendar.tryFromMillis, Calendar.tryFromMillis, laws.ranged, laws.ranged, inRange_saturated]
  cases within : inRange ⟨value⟩ with
  | false => rfl
  | true =>
    simp only [inRange, Bool.and_eq_true, decide_eq_true_eq] at within
    have fits : saturatedI64 value = value := by
      unfold saturatedI64
      omega
    rw [fits]

theorem DateLibrary.Lawful.tryFromMillis_isSome (laws : library.Lawful) (millis : Int) :
    (library.tryFromMillis millis).isSome = inRange ⟨millis⟩ := by
  rw [Calendar.tryFromMillis, laws.ranged]
  cases inRange ⟨millis⟩ <;> rfl

/-! ### The constructors -/

theorem addDays_isSome (laws : library.Lawful) (date : String) (days : Int) :
    (library.addDays date days).isSome = true ↔ ShiftReaches library date days := by
  unfold DateLibrary.addDays ShiftReaches DaysReach
  cases library.civil date with
  | none => simp
  | some midnight =>
    by_cases product : FitsI64 (days * millisPerDay)
    · by_cases sum : FitsI64 (midnight + days * millisPerDay)
      · simp [checkedMul, checkedAdd, product, sum, laws.tryFromMillis_isSome]
      · simp [checkedMul, checkedAdd, product, sum]
    · simp [checkedMul, product]

theorem addMonths_isSome (laws : library.Lawful) (date : String) (months : Int) :
    (library.addMonths date months).isSome = true := by
  unfold DateLibrary.addMonths
  cases read : library.civil date with
  | none => rfl
  | some =>
    rw [Option.isSome_map, laws.tryFromMillis_isSome, ← laws.ranged]
    exact laws.civil _ _ read

theorem weekday_eq (laws : library.Lawful) (date : String) :
    library.weekday date =
      some ((library.civil date).map fun midnight => library.weekdayText ⟨midnight⟩) := by
  unfold DateLibrary.weekday
  cases read : library.civil date with
  | none => rfl
  | some =>
    simp [Calendar.tryFromMillis, laws.civil _ _ read]

theorem addDays_of_fits {date : String} {midnight days : Int}
    (read : library.civil date = some midnight) (product : FitsI64 (days * millisPerDay))
    (sum : FitsI64 (midnight + days * millisPerDay)) :
    library.addDays date days =
      (library.tryFromMillis (midnight + days * millisPerDay)).map fun at' =>
        some (library.dayText at') := by
  have multiplied : checkedMul days millisPerDay = some (days * millisPerDay) := if_pos product
  have added : checkedAdd midnight (days * millisPerDay) = some (midnight + days * millisPerDay) :=
    if_pos sum
  simp [DateLibrary.addDays, read, multiplied, added]

theorem addDays_soon (laws : library.Lawful) {today : String} {midnight : Int}
    (read : library.civil today = some midnight) {offset : Nat} (soon : offset < 7) :
    library.addDays today offset =
      (library.tryFromMillis (midnight + offset * millisPerDay)).map fun at' =>
        some (library.dayText at') := by
  have within := laws.civil _ _ read
  rw [laws.ranged] at within
  simp only [inRange, Bool.and_eq_true, decide_eq_true_eq] at within
  have day : millisPerDay = 86400000 := by decide
  have product : FitsI64 (offset * millisPerDay) := by
    rw [day, FitsI64]
    omega
  have sum : FitsI64 (midnight + offset * millisPerDay) := by
    rw [day, FitsI64]
    omega
  exact addDays_of_fits read product sum

theorem soonest_cons (laws : library.Lawful) {today target : String} {midnight : Int}
    (read : library.civil today = some midnight) {offset : Nat} (soon : offset < 7)
    (later : List Nat) :
    (library.soonest today target (offset :: later)).isSome = true ↔
      inRange ⟨midnight + offset * millisPerDay⟩ = true ∧
        (¬ LandsOn library midnight target offset →
          (library.soonest today target later).isSome = true) := by
  rw [DateLibrary.soonest, addDays_soon laws read soon, Calendar.tryFromMillis, laws.ranged]
  cases inRange ⟨midnight + offset * millisPerDay⟩ with
  | false => simp
  | true =>
    simp only [↓reduceIte, Option.map_some, Option.bind_some, weekday_eq laws, Option.map_map,
      true_and, LandsOn, Function.comp_def]
    by_cases lands : (library.civil (library.dayText ⟨midnight + offset * millisPerDay⟩)).map
        (fun landed => asciiLowercase (library.weekdayText ⟨landed⟩)) = some target
    · simp [lands]
    · simp [lands]

theorem soonest_isSome (laws : library.Lawful) {today target : String} {midnight : Int}
    (read : library.civil today = some midnight) {first count : Nat} (soon : first + count ≤ 7) :
    (library.soonest today target (List.range' first count)).isSome = true ↔
      ∀ offset : Nat, first ≤ offset → offset < first + count →
        (∀ earlier : Nat, first ≤ earlier → earlier < offset →
          ¬ LandsOn library midnight target earlier) →
        inRange ⟨midnight + offset * millisPerDay⟩ = true := by
  induction count generalizing first with
  | zero =>
    simp only [List.range'_zero, DateLibrary.soonest, Option.isSome_some, true_iff]
    intro offset _ _
    omega
  | succ count ih =>
    rw [List.range'_succ, soonest_cons laws read (by omega), ih (by omega)]
    constructor
    · rintro ⟨here, onward⟩ offset behind ahead missed
      rcases behind.eq_or_lt with rfl | later
      · exact here
      · exact onward (missed first le_rfl later) offset later (by omega)
          fun earlier _ sooner => missed earlier (by omega) sooner
    · intro each
      refine ⟨each first le_rfl (by omega) fun earlier _ _ => by omega, ?_⟩
      intro missed offset behind ahead others
      refine each offset (by omega) (by omega) fun earlier least sooner => ?_
      rcases least.eq_or_lt with rfl | later
      · exact missed
      · exact others earlier later sooner

theorem soonest_unread {today target : String} (unread : library.civil today = none)
    (offsets : List Nat) : library.soonest today target offsets = some none := by
  induction offsets with
  | nil => rfl
  | cons offset later ih => simp [DateLibrary.soonest, DateLibrary.addDays, unread, ih]

theorem nextWeekday_isSome (laws : library.Lawful) (name : String) :
    (library.nextWeekday now name).isSome = true ↔ (DateCall.next name).InReach library now := by
  unfold DateLibrary.nextWeekday DateCall.InReach
  by_cases known : weekdayTarget name ∈ weekdays
  · rw [if_pos known]
    cases read : library.civil (library.dayText now) with
    | none => simp [soonest_unread read]
    | some =>
      rw [List.range_eq_range', soonest_isSome laws read le_rfl]
      simp [known]
  · simp [known]

theorem DateCall.answer_isSome (laws : library.Lawful) (call : DateCall) :
    (call.answer library now).isSome = true ↔ call.InReach library now := by
  cases call with
  | next => rw [DateCall.answer, Option.isSome_map, nextWeekday_isSome laws]
  | inDays | inWeeks | addDays | addWeeks =>
    rw [DateCall.answer, Option.isSome_map, addDays_isSome laws, DateCall.InReach]
  | addMonths =>
    rw [DateCall.answer, Option.isSome_map, addMonths_isSome laws, DateCall.InReach]
    exact iff_of_true rfl trivial
  | weekday =>
    rw [DateCall.answer, weekday_eq laws, DateCall.InReach]
    exact iff_of_true rfl trivial

/-! ### The reads -/

theorem mem_liveCounted {item : Counted} (counted : item ∈ graph.liveCounted) :
    ∃ row ∈ graph.entries, item.2.assertedAt = row.assertedAt := by
  obtain ⟨row, listed, counted⟩ := List.mem_filterMap.mp counted
  obtain ⟨memory, _, rfl⟩ := Option.map_eq_some_iff.mp counted
  exact ⟨row, (mem_entryRowsWhere.mp listed).1, rfl⟩

theorem instanceWithin_isSome (laws : library.Lawful) {start last after : Timestamp}
    {entry : EntryView} (stored : library.represents entry.assertedAt = true)
    (reading : library.represents after = true) :
    (instanceWithin library.toCalendar true start last after entry).isSome = true ↔
      ∀ rule, recurringRule entry = some rule → Computes true rule entry.assertedAt after := by
  unfold instanceWithin
  cases recurringRule entry with
  | none => simp
  | some =>
    simp only [stored, ↓reduceIte, Option.isSome_map, Option.some.injEq, forall_eq',
      nextOccurrence_isSome laws.toLawful stored reading]

theorem recurringInWindow_isSome (laws : library.Lawful)
    (stored : ∀ row ∈ graph.entries, library.represents row.assertedAt = true)
    (start last : Timestamp) :
    (graph.recurringInWindow library.toCalendar true start last).isSome = true ↔
      inRange ⟨start.millis - 1⟩ = true ∧ RulesCompute graph ⟨start.millis - 1⟩ := by
  rw [Graph.recurringInWindow, Option.isSome_map, Graph.recurringHits, laws.tryFromMillis_saturated,
    Calendar.tryFromMillis, laws.ranged]
  cases before : inRange ⟨start.millis - 1⟩ with
  | false => simp
  | true =>
    have reading : library.represents ⟨start.millis - 1⟩ = true := (laws.ranged _).trans before
    have each : (∀ item ∈ graph.liveCounted, (instanceWithin library.toCalendar true start last
        ⟨start.millis - 1⟩ item.2).isSome = true) ↔ RulesCompute graph ⟨start.millis - 1⟩ := by
      refine forall₂_congr fun item counted => instanceWithin_isSome laws ?_ reading
      obtain ⟨row, member, same⟩ := mem_liveCounted counted
      rw [same]
      exact stored row member
    rw [if_pos rfl, Option.bind_some, ← each, ← List.all_eq_true]
    split
    · rename_i found
      simp [found]
    · rename_i missed
      simp [missed]

theorem window_isSome (laws : library.Lawful)
    (stored : ∀ row ∈ graph.entries, library.represents row.assertedAt = true)
    (start last : Int) (includeRecurring : Bool) :
    ((windowBetween library.toCalendar start last includeRecurring).bind
        (graph.calendarMemories library.toCalendar true)).isSome = true ↔
      WindowReaches graph start last includeRecurring := by
  unfold windowBetween WindowReaches Calendar.tryFromMillis
  rw [laws.ranged, laws.ranged]
  cases inRange ⟨start⟩ with
  | false => simp
  | true =>
    cases inRange ⟨last⟩ with
    | false => simp
    | true =>
      have through := recurringInWindow_isSome laws stored ⟨start⟩ ⟨last⟩
      cases includeRecurring with
      | false => simp [Graph.calendarMemories, Graph.counted]
      | true => simpa [Graph.calendarMemories, Graph.counted] using through

theorem calendarRead_isSome (laws : library.Lawful)
    (stored : ∀ row ∈ graph.entries, library.represents row.assertedAt = true)
    (read : CalendarRead) :
    (calendarRead library.toCalendar true graph library.civil now read).isSome = true ↔
      read.InReach library graph now := by
  have answered : ∀ asked : Option CalendarQuery,
      (asked.bind fun query => (graph.calendarMemories library.toCalendar true query).map
        (Except.ok : _ → Except MemoryError (List MemoryId))).isSome =
      (asked.bind (graph.calendarMemories library.toCalendar true)).isSome := by
    intro asked
    cases asked with
    | none => rfl
    | some => simp
  unfold calendarRead
  cases read with
  | upcoming within =>
    cases asked : spanOf defaultUpcomingDays within with
    | error => simp [CalendarRead.asks, CalendarRead.InReach, asked, Except.map]
    | ok span =>
      have through := window_isSome laws stored now.millis (now.millis + span) true
      simp only [CalendarRead.asks, CalendarRead.InReach, asked, Except.map, answered,
        windowBetween, laws.tryFromMillis_saturated, Except.ok.injEq, forall_eq']
      exact through
  | overdue within =>
    cases asked : spanOf defaultOverdueDays within with
    | error => simp [CalendarRead.asks, CalendarRead.InReach, asked, Except.map]
    | ok span =>
      have through := window_isSome laws stored (now.millis - span) now.millis false
      simp only [CalendarRead.asks, CalendarRead.InReach, asked, Except.map, answered,
        windowBetween, laws.tryFromMillis_saturated, Except.ok.injEq, forall_eq']
      exact through
  | on date =>
    cases asked : library.civil date with
    | none => simp [CalendarRead.asks, CalendarRead.InReach, asked]
    | some midnight =>
      have through := window_isSome laws stored midnight (midnight + millisPerDay - 1) true
      simp only [CalendarRead.asks, CalendarRead.InReach, asked, answered, Option.some.injEq,
        forall_eq']
      exact through
  | recurring =>
    simp [CalendarRead.asks, CalendarRead.InReach, Graph.calendarMemories, Graph.counted]

end Answers

/-- A calendar read and a date constructor answer exactly where the instants they ask for are in the
range of the date library, and the steps of the rules looked at can be computed. Sums and products
are checked: an overflow is no answer. -/
theorem calendar_answers_iff (library : DateLibrary) (laws : library.Lawful) (graph : Graph)
    (stored : ∀ row ∈ graph.entries, library.represents row.assertedAt = true) (now : Timestamp) :
    (∀ read : CalendarRead,
      (calendarRead library.toCalendar true graph library.civil now read).isSome = true ↔
        read.InReach library graph now) ∧
      ∀ call : DateCall, (call.answer library now).isSome = true ↔ call.InReach library now :=
  ⟨calendarRead_isSome laws stored, DateCall.answer_isSome laws⟩

/-! ### The Gregorian dates -/

namespace GregorianDates

/-- Midnight of a day of a month of a year, where the month has the day and the range the instant. -/
def midnightOf (year month day : Nat) : Option Int :=
  let count := 12 * (year : Int) + month - 3
  let midnight := (Gregorian.monthStart count + day - 1 - epochDay) * millisPerDay
  if 1 ≤ month ∧ month ≤ 12 ∧ 1 ≤ day ∧ (day : Int) ≤ Gregorian.monthLength count ∧
      inRange ⟨midnight⟩ = true then some midnight
  else none

/-- Read a day of four, two and two digits. -/
def civil (date : String) : Option Int :=
  match splitOn '-' date.toList with
  | [year, month, day] =>
    if year.length = 4 ∧ month.length = 2 ∧ day.length = 2 then
      (digitsValue year).bind fun year => (digitsValue month).bind fun month =>
        (digitsValue day).bind fun day => midnightOf year month day
    else none
  | _ => none

/-- A number with leading zeros. -/
def padded (width : Nat) (value : Int) : String :=
  String.ofList (List.leftpad width '0' (Nat.toDigits 10 value.toNat))

/-- The day of an instant, of a year not before the first. -/
def dayText (instant : Timestamp) : String :=
  let day := instant.millis / millisPerDay + epochDay
  let month := Gregorian.monthOf day
  padded 4 ((month + 2) / 12) ++ "-" ++ padded 2 ((month + 2) % 12 + 1) ++ "-" ++
    padded 2 (day - Gregorian.monthStart month + 1)

/-- The weekday of an instant. The epoch was a Thursday. -/
def weekdayText (instant : Timestamp) : String :=
  ["Thursday", "Friday", "Saturday", "Sunday", "Monday", "Tuesday", "Wednesday"].getD
    (instant.millis / millisPerDay % 7).toNat ""

def library : DateLibrary := { gregorian with civil, dayText, weekdayText }

theorem lawful : library.Lawful where
  toLawful := gregorian.lawful
  ranged _ := rfl
  civil date midnight read := by
    have within : ∀ year month day : Nat, midnightOf year month day = some midnight →
        inRange ⟨midnight⟩ = true := by
      intro year month day found
      unfold midnightOf at found
      dsimp only at found
      split at found
      · rename_i valid
        cases found
        exact valid.2.2.2.2
      · cases found
    have parsed : civil date = some midnight := read
    unfold civil at parsed
    split at parsed
    · split at parsed
      · obtain ⟨year, _, parsed⟩ := Option.bind_eq_some_iff.mp parsed
        obtain ⟨month, _, parsed⟩ := Option.bind_eq_some_iff.mp parsed
        obtain ⟨day, _, parsed⟩ := Option.bind_eq_some_iff.mp parsed
        exact within year month day parsed
      · cases parsed
    · cases parsed

def afternoon : Timestamp := ⟨1780930800000⟩

/-- Counts a script may pass reach past the range: ten million days ahead, two hundred million to
look through or back on, the range's last day, whose end is past it, and a month of it. -/
theorem range_left :
    inRange afternoon = true ∧
      (DateCall.inDays 10_000_000).answer library afternoon = none ∧
      (DateCall.addWeeks "2026-06-08" (-1_000_000)).answer library afternoon = none ∧
      (DateCall.next "friday").answer library ⟨253402207200999⟩ = none ∧
      calendarRead library.toCalendar true Graph.fresh library.civil afternoon
        (.upcoming (some "200000000 days")) = none ∧
      calendarRead library.toCalendar true Graph.fresh library.civil afternoon
        (.overdue (some "200000000 days")) = none ∧
      calendarRead library.toCalendar true Graph.fresh library.civil afternoon
        (.on "9999-12-30") = none := by
  decide +kernel

/-- What is asked of a near day is answered. -/
theorem near_answered :
    (calendarRead library.toCalendar true Graph.fresh library.civil afternoon
        (.upcoming (some "7 days"))).isSome = true ∧
      ((DateCall.inDays 3).answer library afternoon).isSome = true := by
  have answers := calendar_answers_iff library lawful Graph.fresh (by rintro row ⟨⟩) afternoon
  have week : spanOf defaultUpcomingDays (some "7 days") = .ok (7 * millisPerDay) := by
    decide +kernel
  have today : library.civil (library.dayText afternoon) = some 1780876800000 := by decide +kernel
  refine ⟨(answers.1 _).mpr ?_, (answers.2 _).mpr ?_⟩
  · intro span asked
    cases week.symm.trans asked
    exact ⟨by decide, by decide, fun _ => ⟨by decide, fun item counted => by cases counted⟩⟩
  · intro midnight read _ _
    cases today.symm.trans read
    decide

end GregorianDates

end Zuihitsu
