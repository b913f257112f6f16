/-
# Occurrence references

When a recorded fact is about. The materializer denormalizes a reference into a
representative instant and a bounding interval; a reference relative to another
memory is resolved against the anchor's own bounds, which the caller reads from
the graph and passes in.
-/

import Zuihitsu.Core.Ids

namespace Zuihitsu.Core

/-- An instant in milliseconds since the Unix epoch. -/
structure Timestamp where
  millis : Int
  deriving DecidableEq, Repr, Inhabited

/-- One hour in milliseconds. -/
def millisPerHour : Int := 1_000 * 60 * 60

/-- One day in milliseconds. -/
def millisPerDay : Int := millisPerHour * 24

/-- The shift a before-or-after reference applies to its anchor's instant. -/
def beforeAfterEpsilonMillis : Int := millisPerHour

/-- Which side of an anchor a reference sits on. -/
inductive Direction where
  | before
  | after
  deriving DecidableEq, Repr

/-- A calendar day. The date library's reading of the text, midnight UTC in epoch
milliseconds where the text is a valid date, is carried with it. -/
structure CivilDate where
  text : String
  midnightMillis : Option Int
  deriving DecidableEq, Repr, Inhabited

/-- A typed, vague-capable reference to when a fact occurred. -/
inductive TemporalRef where
  | instant (present : Timestamp)
  | day (date : CivilDate)
  | range (start finish : Timestamp)
  | approx (center : Timestamp) (fuzzDays : Nat)
  | recurring (rrule : String)
  | beforeAfter (dir : Direction) (anchor : MemoryName)
  deriving DecidableEq, Repr

/-- The instants denormalized from a reference. -/
structure OccurrenceBounds where
  sort : Option Timestamp
  lo : Option Timestamp
  hi : Option Timestamp
  deriving DecidableEq, Repr, Inhabited

namespace OccurrenceBounds

def unbounded : OccurrenceBounds := ⟨none, none, none⟩

/-- The bounds of a single instant. -/
def point (instant : Timestamp) : OccurrenceBounds := ⟨some instant, some instant, some instant⟩

end OccurrenceBounds

/-- Move an instant, when there is one. -/
def shifted (instant : Option Timestamp) (shift : Int) : Option Timestamp :=
  instant.map fun present => ⟨present.millis + shift⟩

namespace Direction

/-- The signed shift away from the anchor. -/
def shift (dir : Direction) (epsilonMillis : Int) : Int :=
  match dir with
  | before => -epsilonMillis
  | after => epsilonMillis

end Direction

namespace TemporalRef

/-- Derive the denormalized bounds. Only a before-or-after reference consults
`anchor`; an anchor that is unknown or untimed yields no bounds. -/
def bounds (reference : TemporalRef) (anchor : Option OccurrenceBounds)
    (epsilonMillis : Int) : OccurrenceBounds :=
  match reference with
  | instant present => OccurrenceBounds.point present
  | day date =>
    match date.midnightMillis with
    | some midnight =>
      ⟨some ⟨midnight + millisPerDay / 2⟩, some ⟨midnight⟩, some ⟨midnight + millisPerDay - 1⟩⟩
    | none => OccurrenceBounds.unbounded
  | range start finish =>
    let (lo, hi) := if start.millis ≤ finish.millis then (start, finish) else (finish, start)
    -- machine division truncates towards zero
    ⟨some ⟨(lo.millis + hi.millis).tdiv 2⟩, some lo, some hi⟩
  | approx center fuzzDays =>
    let fuzz := (fuzzDays : Int) * millisPerDay
    ⟨some center, some ⟨center.millis - fuzz⟩, some ⟨center.millis + fuzz⟩⟩
  | recurring _ => OccurrenceBounds.unbounded
  | beforeAfter dir _ =>
    match anchor with
    | none => OccurrenceBounds.unbounded
    | some anchor =>
      match anchor.sort with
      | none => OccurrenceBounds.unbounded
      | some anchorSort =>
        let shift := dir.shift epsilonMillis
        let sort : Timestamp := ⟨anchorSort.millis + shift⟩
        -- a vague anchor hands on its interval, a point anchor only its instant
        if anchor.lo ≠ anchor.hi then
          ⟨some sort, shifted anchor.lo shift, shifted anchor.hi shift⟩
        else ⟨some sort, some sort, some sort⟩

/-- The memory a reference is anchored to. -/
def anchorName : TemporalRef → Option MemoryName
  | beforeAfter _ anchor => some anchor
  | _ => none

end TemporalRef

end Zuihitsu.Core
