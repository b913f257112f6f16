/-
# Identifiers and names

The newtypes shared by the event log and the graph. Internal references use the
immutable ULID and agent-facing references the mutable name. A ULID is the
number it encodes: its 26-character text is a fixed-width positional encoding,
so the text order the store sorts by is the numeric order. A position in the log
is a number too: the first event is at 1, and 0 is before any event.
-/

import Mathlib.Algebra.Order.Ring.Int
import Mathlib.Data.List.Sort

namespace Zuihitsu.Core

/-- The immutable identity of a memory. -/
structure MemoryId where
  ulid : Nat
  deriving DecidableEq, Repr, Inhabited

/-- The identity of a content entry. -/
structure EntryId where
  ulid : Nat
  deriving DecidableEq, Repr, Inhabited

/-- The identity of a durable conversation. -/
structure ConversationId where
  ulid : Nat
  deriving DecidableEq, Repr, Inhabited

/-- The identity of one activity window of a conversation. -/
structure SessionId where
  ulid : Nat
  deriving DecidableEq, Repr, Inhabited

/-- The identity of one run of the agent loop. -/
structure TurnId where
  ulid : Nat
  deriving DecidableEq, Repr, Inhabited

/-- The address of a conversation on a platform. -/
structure ConversationLocator where
  platform : String
  scopePath : String
  deriving DecidableEq, Repr, Inhabited

instance : LT MemoryId := ⟨fun first second => first.ulid < second.ulid⟩
instance : LE MemoryId := ⟨fun first second => first.ulid ≤ second.ulid⟩

instance (first second : MemoryId) : Decidable (first < second) :=
  inferInstanceAs (Decidable (first.ulid < second.ulid))

instance (first second : MemoryId) : Decidable (first ≤ second) :=
  inferInstanceAs (Decidable (first.ulid ≤ second.ulid))

theorem MemoryId.le_def {first second : MemoryId} : first ≤ second ↔ first.ulid ≤ second.ulid :=
  Iff.rfl

/-- A set of memories in ascending order, without repetition. -/
structure IdSet where
  members : List MemoryId
  sorted : members.Pairwise (· < ·)
  deriving DecidableEq

namespace IdSet

instance : Membership MemoryId IdSet := ⟨fun ids id => id ∈ ids.members⟩

instance (id : MemoryId) (ids : IdSet) : Decidable (id ∈ ids) :=
  inferInstanceAs (Decidable (id ∈ ids.members))

def empty : IdSet := ⟨[], List.Pairwise.nil⟩

/-- The set with one member. -/
def singleton (id : MemoryId) : IdSet := ⟨[id], List.pairwise_singleton _ id⟩

instance : Inhabited IdSet := ⟨empty⟩

theorem mem_def {id : MemoryId} {ids : IdSet} : id ∈ ids ↔ id ∈ ids.members := Iff.rfl

@[simp] theorem mem_singleton {id other : MemoryId} : other ∈ singleton id ↔ other = id := by
  simp [mem_def, singleton]

end IdSet

/-! ### Memory names -/

/-- A memory's agent-facing handle. -/
structure MemoryName where
  text : String
  deriving DecidableEq, Repr, Inhabited

/-- The kinds of memory, each its own handle namespace. -/
inductive Namespace where
  | person
  | org
  | place
  | event
  | topic
  | context
  deriving DecidableEq, Repr

namespace Namespace

def all : List Namespace := [person, org, place, event, topic, context]

/-- The handle prefix, trailing slash included. -/
def handlePrefix : Namespace → String
  | person => "person/"
  | org => "org/"
  | place => "place/"
  | event => "event/"
  | topic => "topic/"
  | context => "context/"

end Namespace

/-- A handle decomposed into its namespace and subject. -/
structure NamespacedMemoryName where
  namespaceOf : Namespace
  subject : String
  deriving DecidableEq, Repr

/-- The rest of a text after a leading part, if it starts with it. -/
def stripLeading (leading text : String) : Option String :=
  if leading.toList.isPrefixOf text.toList then
    some (String.ofList (text.toList.drop leading.toList.length))
  else none

namespace MemoryName

def selfHandle : MemoryName := ⟨"self"⟩

/-- Whether this is the reserved self handle. -/
def isSelf (name : MemoryName) : Bool := name.text = "self"

/-- The decomposition of the handle, if it is in a known namespace. -/
def namespaced (name : MemoryName) : Option NamespacedMemoryName :=
  Namespace.all.findSome? fun candidate =>
    (stripLeading candidate.handlePrefix name.text).map fun subject => ⟨candidate, subject⟩

end MemoryName

namespace NamespacedMemoryName

/-- The handle a namespaced name is written as. -/
def toMemoryName (name : NamespacedMemoryName) : MemoryName :=
  ⟨name.namespaceOf.handlePrefix ++ name.subject⟩

def operator : NamespacedMemoryName := ⟨.person, "operator"⟩

/-- Whether this is a platform-qualified participant handle. -/
def isPlatformQualified (name : NamespacedMemoryName) : Bool :=
  name.namespaceOf = .person && name.subject.toList.contains '@'

end NamespacedMemoryName

/-! ### Vocabulary -/

/-- A tag's name. -/
structure TagName where
  text : String
  deriving DecidableEq, Repr, Inhabited

/-- The tag that drives the room-confidentiality marker. -/
def TagName.confidential : TagName := ⟨"confidential"⟩

/-- A relation label. Labels are recognised by their text, so two labels are the
same relation name exactly when they are the same text. -/
structure RelationName where
  text : String
  deriving DecidableEq, Repr, Inhabited

/-- The relation that drives identity-class merging; it is its own inverse. -/
def RelationName.sameAs : RelationName := ⟨"same_as"⟩

example : (MemoryName.mk "person/dave").namespaced = some ⟨.person, "dave"⟩ := by decide

end Zuihitsu.Core
