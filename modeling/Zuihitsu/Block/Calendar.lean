/-
# The dates a block reads

The calendar lists the memories with a dated entry in a window, or with a recurring one,
each at its soonest; the links of a class carry the date of the far memory's freshest
dated fact. The links read a date off the entries the audience may see. The calendar
reads every live entry, so over two graphs that differ in hidden entries a read agrees
exactly when no hidden entry brings a memory up, or up before another, in one of them
alone.
-/

import Zuihitsu.Block.Edges
import Zuihitsu.Brief.Differing
import Zuihitsu.Schedule.Due

namespace Zuihitsu

open Zuihitsu.Core Zuihitsu.Graph Zuihitsu.Library Zuihitsu.MemoryBlock Zuihitsu.Schedule

/-! ### What is asked -/

/-- The calendar reads. -/
inductive CalendarRead where
  | upcoming (within : Option String)
  | overdue (within : Option String)
  | on (date : String)
  | recurring
  deriving DecidableEq, Repr

/-- What a read asks of the graph: the occurrences in a window, with or without the recurring
ones, or the recurring memories. -/
inductive CalendarQuery where
  | window (start last : Timestamp) (includeRecurring : Bool)
  | listing
  deriving DecidableEq, Repr

/-- The days `upcoming` looks ahead. -/
def defaultUpcomingDays : Int := 7

/-- The days `overdue` looks back. -/
def defaultOverdueDays : Int := 14

/-- Parse a signed 64-bit integer. -/
def parseI64 (text : List Char) : Option Int :=
  match text with
  | '-' :: rest => ((digitsValue rest).map fun value => -(value : Int)).filter FitsI64
  | '+' :: rest => ((digitsValue rest).map fun value => (value : Int)).filter FitsI64
  | _ => ((digitsValue text).map fun value => (value : Int)).filter FitsI64

/-- The milliseconds of a unit of a duration. -/
def unitMillis (unit : List Char) : Option Int :=
  if unit = "day".toList ∨ unit = "days".toList then some millisPerDay
  else if unit = "week".toList ∨ unit = "weeks".toList then some millisPerWeek
  else if unit = "month".toList ∨ unit = "months".toList then some (30 * millisPerDay)
  else none

/-- Parse a duration of days, weeks or months to milliseconds. -/
def parseDurationMillis (text : String) : Option Int :=
  match (text.toList.splitOnP isWhiteSpace).filter fun part => !part.isEmpty with
  | [digits, unit] =>
    (parseI64 digits).bind fun count =>
      if count < 0 then none else (unitMillis unit).bind (checkedMul count)
  | _ => none

/-- `saturating_add` and `saturating_sub`, by the exact sum or difference. -/
def saturatedI64 (value : Int) : Int := max (-2 ^ 63) (min (2 ^ 63 - 1) value)

/-- The span a duration argument asks for. -/
def spanOf (days : Int) : Option String → Except MemoryError Int
  | none => .ok (days * millisPerDay)
  | some text =>
    match parseDurationMillis text with
    | some millis => .ok millis
    | none => .error (.badCalendarArg text)

/-- The window between two numbers of milliseconds, where both can be represented. -/
def windowBetween (calendar : Calendar) (start last : Int) (includeRecurring : Bool) :
    Option CalendarQuery :=
  (calendar.tryFromMillis start).bind fun start =>
    (calendar.tryFromMillis last).map fun last => .window start last includeRecurring

/-- What a read asks at an instant. A day is read by the date library, `civil`; the inner `none`
is a stopped thread, at a window whose ends cannot be represented. -/
def CalendarRead.asks (calendar : Calendar) (civil : String → Option Int) (now : Timestamp) :
    CalendarRead → Except MemoryError (Option CalendarQuery)
  | .upcoming within =>
    (spanOf defaultUpcomingDays within).map fun span =>
      windowBetween calendar now.millis (saturatedI64 (now.millis + span)) true
  | .overdue within =>
    (spanOf defaultOverdueDays within).map fun span =>
      windowBetween calendar (saturatedI64 (now.millis - span)) now.millis false
  | .on date =>
    match civil date with
    | some midnight => .ok (windowBetween calendar midnight (midnight + millisPerDay - 1) true)
    | none => .error (.badCalendarArg date)
  | .recurring => .ok (some .listing)

/-! ### What is read -/

/-- An entry of a live memory that a read counts. -/
abbrev Counted := MemoryView × EntryView

section Reads

variable (calendar : Calendar) (overflowChecks : Bool) (graph : Graph)

/-- The live entries with their live memories, in commit order. -/
def Graph.liveCounted : List Counted :=
  (graph.entryRowsWhere (·.supersededBy.isNone)).filterMap fun row =>
    (graph.memoryById row.memoryId).map fun memory => (memory, entryFromRow graph .live row)

/-- The rule of an entry with no concrete occurrence. -/
def recurringRule (entry : EntryView) : Option String :=
  match entry.occurredAt with
  | some (.recurring rule) => if entry.occurredSort.isNone then some rule else none
  | _ => none

/-- The live memories with a recurring entry, by name. A memory is listed for every such entry. -/
def Graph.recurringCounted : List Counted :=
  (graph.liveCounted.filter fun item => (recurringRule item.2).isSome).insertionSort
    fun first second => first.1.name.text ≤ second.1.name.text

/-- The instance of an entry's rule that a window asks for: the first after an instant, where that
is within the window. The outer `none` is a read with no answer. -/
def instanceWithin (start last after : Timestamp) (entry : EntryView) : Option (Option Timestamp) :=
  match recurringRule entry with
  | none => some none
  | some rule =>
    if calendar.represents entry.assertedAt then
      (nextOccurrence calendar overflowChecks rule entry.assertedAt after).map fun next =>
        next.filter fun instant => start.millis ≤ instant.millis && instant.millis ≤ last.millis
    else none

/-- A counted entry with the instance of its rule in a window. -/
def hitOf (start last after : Timestamp) (item : Counted) : Option (Timestamp × Counted) :=
  (instanceWithin calendar overflowChecks start last after item.2).join.map (·, item)

/-- The recurring entries with an instance in a window, soonest first. An instance exactly at the
start counts. -/
def Graph.recurringHits (start last : Timestamp) : Option (List (Timestamp × Counted)) :=
  (calendar.tryFromMillis (saturatedI64 (start.millis - 1))).bind fun after =>
    if graph.liveCounted.all fun item =>
        (instanceWithin calendar overflowChecks start last after item.2).isSome then
      some ((graph.liveCounted.filterMap (hitOf calendar overflowChecks start last after)).insertionSort
        fun sooner later => sooner.1.millis ≤ later.1.millis)
    else none

/-- The memories with an instance in a window, each at its soonest. -/
def Graph.recurringInWindow (start last : Timestamp) : Option (List (Timestamp × Counted)) :=
  (graph.recurringHits calendar overflowChecks start last).map (firsts fun hit => hit.2.1.id)

/-- The concrete occurrences in a window with their instants, soonest first. -/
def Graph.concreteInWindow (start last : Timestamp) : List (Timestamp × Counted) :=
  (graph.occurrencesInWindow start last).filterMap fun item => item.2.occurredSort.map (·, item)

/-- The entries a query counts, in the order it counts them. -/
def Graph.counted : CalendarQuery → Option (List Counted)
  | .window start last includeRecurring =>
    (if includeRecurring then graph.recurringInWindow calendar overflowChecks start last
      else some []).map fun recurring =>
      ((graph.concreteInWindow start last ++ recurring).insertionSort
        fun sooner later => sooner.1.millis ≤ later.1.millis).map (·.2)
  | .listing => some graph.recurringCounted

/-- The memories a query answers with, each once. -/
def Graph.calendarMemories (query : CalendarQuery) : Option (List MemoryId) :=
  (graph.counted calendar overflowChecks query).map fun items =>
    (firsts (·.1.id) items).map (·.1.id)

/-- A calendar read of a block. The outer `none` is a read with no answer: the thread stops, or a
stored instant cannot be represented. -/
def calendarRead (civil : String → Option Int) (now : Timestamp) (read : CalendarRead) :
    Option (Except MemoryError (List MemoryId)) :=
  match read.asks calendar civil now with
  | .error failure => some (.error failure)
  | .ok asked =>
    asked.bind fun query => (graph.calendarMemories calendar overflowChecks query).map .ok

end Reads

/-! ### Two graphs that differ in hidden entries -/

/-- A counted entry may surface to the audience. -/
def surfaces (graph : Graph) (presentSet : List MemoryId) (item : Counted) : Bool :=
  mayShow graph presentSet item.1.id item.2

/-- Among the entries a read counts is a hidden one of a memory. -/
def Brings (graph : Graph) (presentSet : List MemoryId) (items : List Counted) (memory : MemoryId) :
    Prop :=
  ∃ item ∈ items, item.1.id = memory ∧ surfaces graph presentSet item = false

/-- A query finds the same order in two graphs wherever hidden entries are counted: both answer or
neither does, and of two memories, one of which a hidden entry is counted for in either graph, the
same one comes up first. -/
structure HiddenOrderAgrees (calendar : Calendar) (overflowChecks : Bool) (presentSet : List MemoryId)
    (first second : Graph) (query : CalendarQuery) : Prop where
  answers : (first.counted calendar overflowChecks query).isSome =
    (second.counted calendar overflowChecks query).isSome
  order : ∀ one two, first.counted calendar overflowChecks query = some one →
    second.counted calendar overflowChecks query = some two → ∀ memory other,
      Brings first presentSet one memory ∨ Brings first presentSet one other ∨
          Brings second presentSet two memory ∨ Brings second presentSet two other →
        leads (·.1.id) one memory other = leads (·.1.id) two memory other

section Counting

variable {calendar : Calendar} {overflowChecks : Bool} {graph first second : Graph}
variable {presentSet : List MemoryId} {start last : Timestamp}

theorem surfacing_liveCounted :
    graph.liveCounted.filter (surfaces graph presentSet) =
      (shownEntries graph presentSet).filterMap fun item =>
        (graph.memoryById item.1).map fun memory => (memory, item.2) := by
  rw [Graph.liveCounted, shownEntries, List.filter_filterMap, List.filterMap_filter,
    List.filterMap_map]
  refine List.filterMap_congr fun row _ => ?_
  rw [Function.comp_apply]
  cases found : graph.memoryById row.memoryId with
  | none => simp
  | some =>
    have owner := memoryById_id found
    cases may : mayShow graph presentSet row.memoryId (entryFromRow graph .live row) <;>
      simp [surfaces, owner, may, Option.filter]

theorem DifferHidden.liveCounted_eq (differ : DifferHidden presentSet first second) :
    first.liveCounted.filter (surfaces first presentSet) =
      second.liveCounted.filter (surfaces second presentSet) := by
  rw [surfacing_liveCounted, surfacing_liveCounted, differ.entries, differ.memoryById_eq]

/-- Whether an entry occurs within a window. -/
def occursWithin (start last : Timestamp) (item : Counted) : Bool :=
  item.2.occurredSort.any fun sort => start.millis ≤ sort.millis && sort.millis ≤ last.millis

theorem occurrencesInWindow_eq :
    graph.occurrencesInWindow start last =
      (graph.liveCounted.filter (occursWithin start last)).insertionSort
        fun earlier later => occursAt earlier ≤ occursAt later := by
  rw [Graph.occurrencesInWindow, Graph.liveCounted, List.filter_filterMap]
  congr 1
  refine List.filterMap_congr fun row _ => ?_
  cases graph.memoryById row.memoryId with
  | none => rfl
  | some =>
    cases sort : row.occurrence.bounds.sort with
    | none | some => simp [occursWithin, entryFromRow, sort, Option.filter]

theorem DifferHidden.occurrences_eq (differ : DifferHidden presentSet first second) :
    (first.occurrencesInWindow start last).filter (surfaces first presentSet) =
      (second.occurrencesInWindow start last).filter (surfaces second presentSet) := by
  rw [occurrencesInWindow_eq, occurrencesInWindow_eq, filter_insertionSort_by,
    filter_insertionSort_by, List.filter_comm, differ.liveCounted_eq, List.filter_comm]

/-- The counted entries of either of two memories. -/
def ofEither (memory other : MemoryId) (item : Counted) : Bool :=
  eitherKey (·.1.id) memory other item

end Counting

/-! ### The dates of links -/

section Links

variable {first second : Graph} {presentSet : List MemoryId}
variable (differ : DifferHidden presentSet first second)
include differ

theorem DifferHidden.outwardEdge_eq (id : MemoryId) :
    outwardEdge first presentSet id = outwardEdge second presentSet id := by
  have shown : linkShown first presentSet = linkShown second presentSet := by
    funext label link
    simp only [linkShown, relationSymmetric, differ.resolver_eq, differ.vocabulary]
  have far : farEnd first id = farEnd second id := by
    funext edge
    simp only [farEnd, differ.inClass_eq]
  funext edge
  rw [outwardEdge, outwardEdge, far, shown, differ.inClass_eq, differ.classOf_eq]

end Links

/-! ### A surprise

Somebody who is not in the room has confided when Dave's surprise is. -/

namespace Surprise

def people : List EventPayload :=
  [.memoryCreated ⟨1⟩ ⟨"person/dave"⟩, .memoryCreated ⟨2⟩ ⟨"person/frank"⟩,
    .memoryCreated ⟨3⟩ ⟨"person/erin"⟩]

def quiet : Graph := ((commit ⟨0⟩ .agent people Graph.fresh).toOption).getD Graph.fresh

def aside : Event :=
  ⟨4, ⟨1⟩, .agent, .memoryContentAppended ⟨1⟩ ⟨10⟩ ⟨1000⟩ (some (.instant ⟨5000⟩)) "the surprise"
    (.participant ⟨3⟩) none .privateToTeller⟩

def confided : Graph := ((Graph.apply aside quiet).toOption).getD quiet

def calendar : Calendar where
  represents instant := -377705023201000 ≤ instant.millis && instant.millis ≤ 253402207200999
  addCalendar _ _ _ := none

def room : List MemoryId := [⟨1⟩, ⟨2⟩]

theorem aside_applied : Graph.apply aside quiet = .ok confided := rfl

theorem quiet_reachable : Reachable quiet := by
  have committed : commit ⟨0⟩ .agent people Graph.fresh = .ok quiet := rfl
  exact Reachable.fresh.commit committed

end Surprise

end Zuihitsu
