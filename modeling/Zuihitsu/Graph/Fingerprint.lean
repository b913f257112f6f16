/-
# The projection's fingerprint

The stream of bytes the fingerprint hashes, on the rows as the store holds them: of each
table it names, the rows in the order of their columns, each value behind its type and
its length. The stream tells the named tables apart, whatever order their rows were
written in. Two tables of the schema are not named: the disputes and the former names.
-/

import Zuihitsu.Library.Framing
import Mathlib.Algebra.Order.Ring.Int
import Mathlib.Data.List.Lex
import Mathlib.Data.List.Sort
import Mathlib.Data.Sum.Order
import Mathlib.Order.WithBot

namespace Zuihitsu.Fingerprint

open Zuihitsu.Library.Framing

/-! ### Values -/

/-- The bytes of a text or a blob, fewer than a length can count. -/
structure Slice where
  bytes : List UInt8
  short : bytes.length < 2 ^ 64
  deriving DecidableEq

/-- A value as a row read hands it out, a real as the bits of it. -/
inductive ValueRef where
  | null
  | integer (int : Int64)
  | real (real : UInt64)
  | text (text : Slice)
  | blob (blob : Slice)
  deriving DecidableEq

/-- What the hasher is fed of a length. -/
def lengthBytes (length : Nat) : List UInt8 := @littleEndian 8 (BitVec.ofNat 64 length)

/-- What the hasher is fed of a value: its type, and behind it the value. -/
def hashValue : ValueRef → List UInt8
  | .null => [0]
  | .integer int => 1 :: @littleEndian 8 int.toBitVec
  | .real real => 2 :: @littleEndian 8 real.toBitVec
  | .text text => 3 :: (lengthBytes text.bytes.length ++ text.bytes)
  | .blob blob => 4 :: (lengthBytes blob.bytes.length ++ blob.bytes)

/-- The bytes a value may begin with. -/
def isTag (byte : UInt8) : Bool := byte ≤ 4

theorem opens_hashValue (value : ValueRef) : Opens isTag (hashValue value) := by
  cases value <;> rfl

theorem selfDelimiting_lengthBytes : SelfDelimiting (· < 2 ^ 64) lengthBytes := by
  intro one other first second rest more same
  obtain ⟨front, back⟩ := List.append_inj same (by simp [lengthBytes])
  have words := congrArg BitVec.toNat (littleEndian_injective front)
  rw [BitVec.toNat_ofNat, BitVec.toNat_ofNat, Nat.mod_eq_of_lt first,
    Nat.mod_eq_of_lt second] at words
  exact ⟨words, back⟩

theorem selfDelimiting_slice :
    SelfDelimiting (fun _ : Slice => True) fun slice =>
      lengthBytes slice.bytes.length ++ slice.bytes := by
  intro one other _ _ rest more same
  have behind := selfDelimiting_behind_length selfDelimiting_lengthBytes
  obtain ⟨front, back⟩ := behind one.short other.short same
  cases one
  cases other
  cases front
  exact ⟨rfl, back⟩

theorem selfDelimiting_hashValue : SelfDelimiting (fun _ => True) hashValue := by
  have words : SelfDelimiting (fun _ => True) (@littleEndian 8) :=
    selfDelimiting_of_length length_littleEndian littleEndian_injective
  intro one other _ _ rest more same
  cases one <;> cases other <;>
    simp only [hashValue, List.cons_append, List.nil_append, List.cons.injEq, true_and] at same
  case null.null => exact ⟨rfl, same⟩
  case integer.integer int held =>
    obtain ⟨bits, back⟩ := words trivial trivial same
    exact ⟨congrArg ValueRef.integer (Int64.toBitVec_inj.mp bits), back⟩
  case real.real real held =>
    obtain ⟨bits, back⟩ := words trivial trivial same
    exact ⟨congrArg ValueRef.real (UInt64.toBitVec_inj.mp bits), back⟩
  case text.text text held =>
    obtain ⟨rfl, back⟩ := selfDelimiting_slice trivial trivial same
    exact ⟨rfl, back⟩
  case blob.blob blob held =>
    obtain ⟨rfl, back⟩ := selfDelimiting_slice trivial trivial same
    exact ⟨rfl, back⟩
  all_goals exact absurd same.1 (by decide)

/-! ### The schema -/

/-- The ordinary tables of the schema. -/
inductive ProjectedTable where
  | memories
  | contentEntries
  | entryAttestations
  | entryDisputes
  | tags
  | memoryTags
  | relations
  | links
  | memoryAliases
  | conversations
  | sessions
  | sessionParticipants
  | participantIdentities
  | meta'
  deriving DecidableEq

/-- A table's name in a statement. -/
def ProjectedTable.name : ProjectedTable → String
  | .memories => "memories"
  | .contentEntries => "content_entries"
  | .entryAttestations => "entry_attestations"
  | .entryDisputes => "entry_disputes"
  | .tags => "tags"
  | .memoryTags => "memory_tags"
  | .relations => "relations"
  | .links => "links"
  | .memoryAliases => "memory_aliases"
  | .conversations => "conversations"
  | .sessions => "sessions"
  | .sessionParticipants => "session_participants"
  | .participantIdentities => "participant_identities"
  | .meta' => "meta"

/-- The types a strict table declares. -/
inductive ColumnType where
  | text
  | integer
  deriving DecidableEq

/-- A declared column, and whether it is of the primary key. -/
structure Column where
  name : String
  type : ColumnType
  nullable : Bool := false
  key : Bool := false
  deriving DecidableEq

/-- The columns of a table in the order of their declaration. -/
def ProjectedTable.columns : ProjectedTable → List Column
  | .memories =>
    [{ name := "id", type := .text, key := true }, { name := "name", type := .text },
      { name := "description", type := .text }, { name := "volatility", type := .text },
      { name := "deleted", type := .integer }, { name := "created_at", type := .integer },
      { name := "class_id", type := .text }, { name := "designated_primary", type := .integer },
      { name := "last_content_seq", type := .integer },
      { name := "last_described_seq", type := .integer }]
  | .contentEntries =>
    [{ name := "entry_id", type := .text, key := true }, { name := "memory_id", type := .text },
      { name := "asserted_at", type := .integer },
      { name := "occurred_at", type := .text, nullable := true },
      { name := "occurred_sort", type := .integer, nullable := true },
      { name := "occurred_lo", type := .integer, nullable := true },
      { name := "occurred_hi", type := .integer, nullable := true },
      { name := "occurred_authored", type := .integer },
      { name := "description_mirror", type := .integer },
      { name := "fired_at", type := .integer, nullable := true },
      { name := "surfaced_at", type := .integer, nullable := true },
      { name := "text", type := .text }, { name := "told_by", type := .text },
      { name := "told_in", type := .text, nullable := true },
      { name := "visibility", type := .text },
      { name := "superseded_by", type := .text, nullable := true },
      { name := "retracted_reason", type := .text, nullable := true },
      { name := "origin_platform", type := .text, nullable := true },
      { name := "seq", type := .integer }]
  | .entryAttestations =>
    [{ name := "entry_id", type := .text, key := true },
      { name := "teller", type := .text, key := true },
      { name := "told_in", type := .text, nullable := true },
      { name := "asserted_at", type := .integer }, { name := "posture", type := .text },
      { name := "phrasing", type := .text, nullable := true },
      { name := "source_entry", type := .text, nullable := true },
      { name := "retracted_reason", type := .text, nullable := true },
      { name := "seq", type := .integer }]
  | .entryDisputes =>
    [{ name := "entry_id", type := .text, key := true }, { name := "memory_id", type := .text },
      { name := "statement", type := .text }]
  | .tags =>
    [{ name := "name", type := .text, key := true }, { name := "description", type := .text }]
  | .memoryTags =>
    [{ name := "memory_id", type := .text, key := true },
      { name := "tag", type := .text, key := true }]
  | .relations =>
    [{ name := "name", type := .text, key := true }, { name := "inverse", type := .text },
      { name := "from_card", type := .text }, { name := "to_card", type := .text },
      { name := "symmetric", type := .integer }, { name := "reflexive", type := .integer },
      { name := "description", type := .text }]
  | .links =>
    [{ name := "from_id", type := .text, key := true },
      { name := "to_id", type := .text, key := true },
      { name := "relation", type := .text, key := true }, { name := "source", type := .text },
      { name := "told_by", type := .text, nullable := true },
      { name := "told_in", type := .text, nullable := true },
      { name := "visibility", type := .text },
      { name := "asserted_at", type := .integer }]
  | .memoryAliases =>
    [{ name := "former_name", type := .text, key := true }, { name := "memory_id", type := .text }]
  | .conversations =>
    [{ name := "id", type := .text, key := true }, { name := "platform", type := .text },
      { name := "scope_path", type := .text }, { name := "context_memory", type := .text },
      { name := "ended", type := .integer }]
  | .sessions =>
    [{ name := "id", type := .text, key := true }, { name := "conversation", type := .text },
      { name := "started_at", type := .integer },
      { name := "seeded_from_turn", type := .text, nullable := true },
      { name := "brief", type := .text }, { name := "ended", type := .integer },
      { name := "end_cause", type := .text, nullable := true }, { name := "seq", type := .integer }]
  | .sessionParticipants =>
    [{ name := "session", type := .text, key := true },
      { name := "memory", type := .text, key := true },
      { name := "at_turn", type := .text, nullable := true }]
  | .participantIdentities =>
    [{ name := "platform", type := .text, key := true },
      { name := "platform_user_id", type := .text, key := true },
      { name := "memory", type := .text }]
  | .meta' =>
    [{ name := "key", type := .text, key := true }, { name := "value", type := .integer }]

/-! ### The rows -/

/-- A value a strict table stores. -/
inductive Cell where
  | null
  | integer (int : Int64)
  | text (slice : Slice)
  deriving DecidableEq

/-- A column stores values of its type, and none only if it may. -/
def Column.admits (column : Column) : Cell → Bool
  | .null => column.nullable
  | .integer _ => column.type = .integer
  | .text _ => column.type = .text

/-- What a row read hands out. -/
def Cell.ref : Cell → ValueRef
  | .null => .null
  | .integer int => .integer int
  | .text slice => .text slice

theorem Cell.ref_injective : Function.Injective Cell.ref := by
  intro one other same
  cases one <;> cases other <;> cases same <;> rfl

/-- The place of a value in the store's order: nothing, the numbers by value, the texts
byte by byte. -/
def Cell.rank : Cell → WithBot (Lex (ℤ ⊕ List ℕ))
  | .null => ⊥
  | .integer int => ↑(toLex (Sum.inl int.toInt) : Lex (ℤ ⊕ List ℕ))
  | .text slice => ↑(toLex (Sum.inr (slice.bytes.map (·.toNat))) : Lex (ℤ ⊕ List ℕ))

theorem Cell.rank_injective : Function.Injective Cell.rank := by
  intro one other same
  cases one <;> cases other <;> simp only [Cell.rank, WithBot.coe_inj, WithBot.bot_ne_coe,
    WithBot.coe_ne_bot, toLex_inj, reduceCtorEq, Sum.inl.injEq, Sum.inr.injEq] at same ⊢
  case integer.integer => exact congrArg Cell.integer (Int64.toInt_inj.mp same)
  case text.text slice held =>
    have bytes : slice.bytes = held.bytes :=
      List.map_injective_iff.mpr (fun _ _ same => UInt8.toNat_inj.mp same) same
    cases slice
    cases held
    cases bytes
    rfl

instance : LinearOrder Cell := LinearOrder.lift' Cell.rank Cell.rank_injective

/-- The cells of a row under the primary key. -/
def keyOf (table : ProjectedTable) (row : List Cell) : List Cell :=
  ((table.columns.zip row).filter (·.1.key)).map (·.2)

/-- The stored rows of every table, in the order the store keeps them. Their values are of
the declared types, and no two rows share a primary key. -/
structure Projection where
  rows : ProjectedTable → List (List Cell)
  typed : ∀ table, ∀ row ∈ rows table, List.Forall₂ (fun column cell => column.admits cell = true)
    table.columns row
  keyed : ∀ table, ((rows table).map (keyOf table)).Nodup

/-- The two hold the same rows of a table. -/
def Agree (one other : Projection) (table : ProjectedTable) : Prop :=
  ∀ row, row ∈ one.rows table ↔ row ∈ other.rows table

/-! ### The stream -/

/-- The tables the fingerprint reads, in its order. -/
def tables : List ProjectedTable :=
  [.memories, .contentEntries, .entryAttestations, .tags, .memoryTags, .relations, .links,
    .conversations, .sessions, .sessionParticipants, .participantIdentities, .meta']

/-- The mark after a row. -/
def sepRow : UInt8 := 0xFF

/-- The mark after a table's name. -/
def sepTable : UInt8 := 0xFE

/-- What the hasher is fed before a table's rows. -/
def tableBytes (table : ProjectedTable) : List UInt8 := table.name.toUTF8.data.toList ++ [sepTable]

/-- What the hasher is fed of a row. -/
def rowBytes (row : List Cell) : List UInt8 :=
  (row.flatMap fun cell => hashValue cell.ref) ++ [sepRow]

/-- The rows of a table by their columns in turn. -/
def Projection.ordered (graph : Projection) (table : ProjectedTable) : List (List Cell) :=
  (graph.rows table).insertionSort (· ≤ ·)

/-- The stream a projection's fingerprint is the digest of. -/
def Projection.fingerprintStream (graph : Projection) : List UInt8 :=
  tables.flatMap fun table => tableBytes table ++ (graph.ordered table).flatMap rowBytes

section Stream

variable {graph one other : Projection} {table : ProjectedTable} {row : List Cell}

theorem Projection.nodup (graph : Projection) (table : ProjectedTable) : (graph.rows table).Nodup :=
  (graph.keyed table).of_map _

theorem length_of_typed (member : row ∈ graph.rows table) : row.length = table.columns.length :=
  (graph.typed table row member).length_eq.symm

theorem mem_ordered : row ∈ graph.ordered table ↔ row ∈ graph.rows table :=
  List.mem_insertionSort _

theorem selfDelimiting_rowBytes (table : ProjectedTable) :
    SelfDelimiting (fun row => row.length = table.columns.length) rowBytes := by
  have cells := selfDelimiting_hashValue.comp Cell.ref_injective
  exact ((cells.flatMap table.columns.length).closed [sepRow]).mono
    fun _ long => ⟨long, fun _ _ => trivial⟩

theorem opens_rowBytes (long : row.length = table.columns.length) : Opens isTag (rowBytes row) := by
  cases row with
  | nil => cases table <;> cases long
  | cons cell rest =>
    rw [rowBytes, List.flatMap_cons, List.append_assoc]
    exact (opens_hashValue cell.ref).append _

theorem tableBytes_plain (table : ProjectedTable) :
    tableBytes table ≠ [] ∧ ¬Opens isTag (tableBytes table) := by
  refine ⟨List.append_ne_nil_of_right_ne_nil _ (List.cons_ne_nil _ _), ?_⟩
  unfold Opens
  cases table <;> decide

theorem agree_iff_perm : Agree one other table ↔ (one.rows table).Perm (other.rows table) :=
  (List.perm_ext_iff_of_nodup (one.nodup table) (other.nodup table)).symm

theorem ordered_eq_iff : one.ordered table = other.ordered table ↔ Agree one other table := by
  constructor
  · intro same row
    rw [← mem_ordered, ← mem_ordered, same]
  · intro agree
    have sorted := List.perm_insertionSort (α := List Cell) (· ≤ ·)
    refine List.Perm.eq_of_pairwise' (List.pairwise_insertionSort (· ≤ ·) _)
      (List.pairwise_insertionSort (· ≤ ·) _) ?_
    exact (sorted _).trans ((agree_iff_perm.mp agree).trans (sorted _).symm)

theorem fingerprintStream_eq_iff :
    one.fingerprintStream = other.fingerprintStream ↔ ∀ table ∈ tables, Agree one other table := by
  constructor
  · intro same table member
    refine ordered_eq_iff.mp (sections_inj selfDelimiting_rowBytes (fun _ _ => opens_rowBytes)
      tableBytes_plain ?_ ?_ same table member)
    · exact fun _ _ stored => length_of_typed (mem_ordered.mp stored)
    · exact fun _ _ stored => length_of_typed (mem_ordered.mp stored)
  · intro agree
    refine List.flatMap_congr fun table member => ?_
    rw [ordered_eq_iff.mpr (agree table member)]

theorem mem_tables_or (table : ProjectedTable) :
    table ∈ tables ∨ table = .entryDisputes ∨ table = .memoryAliases := by
  cases table <;> decide

/-- The stream separates two projections, and only by what they hold, exactly if they do
not differ in the disputes or the former names alone. -/
theorem fingerprint_separates_iff (one other : Projection) :
    ((one.fingerprintStream = other.fingerprintStream → ∀ table, Agree one other table) ∧
        ((∀ table, Agree one other table) → one.fingerprintStream = other.fingerprintStream)) ↔
      ((∀ table ∈ tables, Agree one other table) →
        Agree one other .entryDisputes ∧ Agree one other .memoryAliases) := by
  rw [fingerprintStream_eq_iff]
  constructor
  · rintro ⟨separates, _⟩ named
    exact ⟨separates named _, separates named _⟩
  · intro unnamed
    refine ⟨fun named table => ?_, fun agree table _ => agree table⟩
    rcases mem_tables_or table with listed | rfl | rfl
    · exact named table listed
    · exact (unnamed named).1
    · exact (unnamed named).2

end Stream

/-! A memory is renamed from launch to liftoff to ascent. Where each rename has a block of its
own it sheds both names, where the two share one it sheds launch twice. -/

section Renamed

/-- A text as a cell. -/
def textCell (text : String) (short : text.toUTF8.data.toList.length < 2 ^ 64) : Cell :=
  .text ⟨text.toUTF8.data.toList, short⟩

/-- The memory's id, and the names it sheds. -/
def idCell : Cell := textCell "01J0000000000000000000000A" (by decide)
def launchCell : Cell := textCell "topic/launch" (by decide)
def liftoffCell : Cell := textCell "topic/liftoff" (by decide)

/-- The rows the three events leave, beside the former names. -/
def renamedRows (aliases : List (List Cell)) : ProjectedTable → List (List Cell)
  | .memories =>
    [[idCell, textCell "topic/ascent" (by decide), textCell "" (by decide),
      textCell "Medium" (by decide), .integer 0, .integer 0, idCell, .integer 0, .integer 3,
      .integer 0]]
  | .memoryAliases => aliases
  | .meta' => [[textCell "graph_head" (by decide), .integer 3]]
  | _ => []

/-- The projection with both names, and the one with the first alone. -/
def shedBoth : Projection where
  rows := renamedRows [[launchCell, idCell], [liftoffCell, idCell]]
  typed table := by
    cases table <;> simp [renamedRows, ProjectedTable.columns, Column.admits, idCell, launchCell,
      liftoffCell, textCell]
  keyed table := by cases table <;> decide

def shedOne : Projection where
  rows := renamedRows [[launchCell, idCell]]
  typed table := by
    cases table <;> simp [renamedRows, ProjectedTable.columns, Column.admits, idCell, launchCell,
      textCell]
  keyed table := by cases table <;> decide

/-- The two have one stream, and one of them knows a former name the other does not. -/
theorem former_names_unread :
    shedBoth.fingerprintStream = shedOne.fingerprintStream ∧
      ¬∀ table, Agree shedBoth shedOne table := by
  refine ⟨fingerprintStream_eq_iff.mpr ?_, fun agree => ?_⟩
  · intro table listed row
    cases table <;> first | exact Iff.rfl | exact absurd listed (by decide)
  · have known := (agree .memoryAliases [liftoffCell, idCell]).mp (by decide)
    revert known
    decide

end Renamed

end Zuihitsu.Fingerprint
