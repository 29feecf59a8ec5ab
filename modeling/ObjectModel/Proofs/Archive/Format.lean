import Mathlib.Algebra.Ring.Nat
import ObjectModel.Archive.Save
import ObjectModel.Proofs.Graph.Typing

/-!
# What the bytes of an archive say

An archive as it stands in its bytes: symbols by their ids, references by tag
and position (`Archive`). Each part has its items, in the order in which they are
written, and what it stands for once the symbols are known. An archive conforms
to a model if it has the parts that the schema asks for, with counts that can be
written (`Archive.Conforms`).
-/

namespace ObjectModel

open Wire

namespace Archive

/-- A reference. -/
structure Pointer where
  tag : UInt32
  /-- The position, counted from one; zero for no object. -/
  index : UInt32
deriving DecidableEq, Repr

def Pointer.item (p : Pointer) : Item := .ref p.tag p.index

/-- The object that is meant, if any. -/
def Pointer.target? (p : Pointer) : Option Ref := Ref.ofWire p.tag.toNat p.index.toNat

/-- The items of a list of references. -/
def pointerItems (l : List Pointer) : List Item := countItem l.length :: l.map Pointer.item

/-- The objects that a list of references means. -/
def targets (l : List Pointer) : List Ref := l.filterMap Pointer.target?

/-- The content of a member. -/
inductive Field
  | bool (byte : UInt8)
  | int16 (n : Int16)
  | int32 (n : Int32)
  | int64 (n : Int64)
  | uint16 (n : UInt16)
  | uint32 (n : UInt32)
  | uint64 (n : UInt64)
  /-- A text, by its symbol. -/
  | symbol (id : UInt32)
  | one (target : Pointer)
  /-- A list that was not made. -/
  | unmade
  /-- A list that was made, as the mark before it says. -/
  | many (mark : UInt8) (items : List Pointer)
deriving DecidableEq, Repr

namespace Field

def items : Field → List Item
  | bool byte => [.u8 byte]
  | int16 n => [.i16 n]
  | int32 n => [.i32 n]
  | int64 n => [.i64 n]
  | uint16 n => [.u16 n]
  | uint32 n => [.u32 n]
  | uint64 n => [.u64 n]
  | symbol id => [.u32 id]
  | one target => [target.item]
  | unmade => [.u8 0]
  | many mark items => .u8 mark :: pointerItems items

/-- The value, if the symbols are known. -/
def value? (t : SymbolTable) : Field → Option Value
  | bool byte => some (.bool (byte != 0))
  | int16 n => some (.int n.toInt64)
  | int32 n => some (.int n.toInt64)
  | int64 n => some (.int n)
  | uint16 n => some (.uint n.toUInt64)
  | uint32 n => some (.uint n.toUInt64)
  | uint64 n => some (.uint n)
  | symbol id => (t.resolve? id.toNat).map .text
  | one target => some (.ref target.target?)
  | unmade => some (.refs none)
  | many _ items => some (.refs (some (targets items)))

/-- The field is what a member asks for. -/
def Suits (m : Member) (f : Field) : Prop :=
  match m.content, f with
  | .scalar .bool, bool _ => True
  | .scalar .int16, int16 _ => True
  | .scalar .int32, int32 _ => True
  | .scalar .int64, int64 _ => True
  | .scalar .uint16, uint16 _ => True
  | .scalar .uint32, uint32 _ => True
  | .scalar .uint64, uint64 _ => True
  | .scalar .string, symbol _ | .scalar .value, symbol _ | .scalar .delay, symbol _ => True
  | .object _ .one, one _ | .union _ .one, one _ => True
  | .object _ .many, unmade | .union _ .many, unmade => True
  | .object _ .many, many mark items | .union _ .many, many mark items =>
    mark ≠ 0 ∧ items.length < 2 ^ 32
  | _, _ => False

/-- What suits a member stands for a value that fits it. -/
theorem Suits.fits {m : Member} {f : Field} {t : SymbolTable} {v : Value} (hf : f.Suits m)
    (hv : f.value? t = some v) : v.fits m = true := by
  -- A case for each kind of member; other fields do not suit it. Numbers keep
  -- within the width of the member, in which they are written.
  obtain ⟨name, content, relation, tags⟩ := m
  cases content with
  | scalar kind =>
    cases kind with
    | bool =>
      cases f with
      | bool n =>
        cases hv
        rfl
      | _ => exact hf.elim
    | int16 =>
      cases f with
      | int16 n =>
        cases hv
        change (decide (-0x8000 ≤ n.toInt64.toInt) && decide (n.toInt64.toInt < 0x8000)) = true
        rw [Int16.toInt_toInt64, Bool.and_eq_true, decide_eq_true_eq, decide_eq_true_eq]
        exact ⟨n.le_toInt, n.toInt_lt⟩
      | _ => exact hf.elim
    | int32 =>
      cases f with
      | int32 n =>
        cases hv
        change (decide (-0x80000000 ≤ n.toInt64.toInt) && decide (n.toInt64.toInt < 0x80000000)) =
          true
        rw [Int32.toInt_toInt64, Bool.and_eq_true, decide_eq_true_eq, decide_eq_true_eq]
        exact ⟨n.le_toInt, n.toInt_lt⟩
      | _ => exact hf.elim
    | int64 =>
      cases f with
      | int64 n =>
        cases hv
        rfl
      | _ => exact hf.elim
    | uint16 =>
      cases f with
      | uint16 n =>
        cases hv
        change decide (n.toUInt64.toNat < 0x10000) = true
        rw [UInt16.toNat_toUInt64, decide_eq_true_eq]
        exact n.toNat_lt
      | _ => exact hf.elim
    | uint32 =>
      cases f with
      | uint32 n =>
        cases hv
        change decide (n.toUInt64.toNat < 0x100000000) = true
        rw [UInt32.toNat_toUInt64, decide_eq_true_eq]
        exact n.toNat_lt
      | _ => exact hf.elim
    | uint64 =>
      cases f with
      | uint64 n =>
        cases hv
        rfl
      | _ => exact hf.elim
    | string | value | delay =>
      cases f with
      | symbol id =>
        obtain ⟨s, -, rfl⟩ := Option.map_eq_some_iff.1 hv
        rfl
      | _ => exact hf.elim
  | object _ card | union _ card =>
    cases card with
    | one =>
      cases f with
      | one target =>
        cases hv
        rfl
      | _ => exact hf.elim
    | many =>
      cases f with
      | unmade | many mark items =>
        cases hv
        rfl
      | _ => exact hf.elim

end Field

/-- What stands before the fields of an object. -/
structure Heading where
  id : UInt32
  parent : Pointer
  /-- The symbol of the source file. -/
  file : UInt32
  start : Position
  stop : Position
  children : List Pointer
deriving DecidableEq, Repr

namespace Heading

variable (x : Heading)

def items : List Item :=
  [.u32 x.id, x.parent.item, .u32 x.file, .u32 x.start.line, .u16 x.start.column,
    .u32 x.stop.line, .u16 x.stop.column] ++ pointerItems x.children

/-- The header, if the symbols are known. -/
def header? (t : SymbolTable) : Option Header :=
  (t.resolve? x.file.toNat).map fun file =>
    { id := x.id, parent := x.parent.target?, file, start := x.start, stop := x.stop,
      children := targets x.children }

end Heading

/-- An object. -/
structure Entry where
  heading : Heading
  fields : List Field
deriving DecidableEq, Repr

namespace Entry

variable (x : Entry)

def items : List Item := x.heading.items ++ x.fields.flatMap Field.items

/-- The object is what the entry says, given the symbols. -/
structure Denotes (t : SymbolTable) (o : Object) : Prop where
  header : x.heading.header? t = some o.header
  values : List.Forall₂ (fun f v => f.value? t = some v) x.fields o.values

/-- There is a field for each member, which the member asks for. -/
structure Suits (members : List Member) : Prop where
  children : x.heading.children.length < 2 ^ 32
  fields : List.Forall₂ Field.Suits members x.fields

end Entry

/-- The objects of a tag. -/
structure Section where
  tag : Nat
  entries : List Entry
deriving DecidableEq, Repr

end Archive

/-- An archive. -/
structure Archive where
  preamble : Preamble
  /-- The symbol section. -/
  symbols : List String
  roots : List Archive.Pointer
  sections : List Archive.Section
deriving DecidableEq, Repr

namespace Archive

variable (a : Archive)

def items : List Item :=
  [.preamble a.preamble, countItem a.symbols.length] ++ a.symbols.map .text ++
    pointerItems a.roots ++
    (a.sections.flatMap fun s => [countItem s.tag, countItem s.entries.length]) ++
    a.sections.flatMap fun s => s.entries.flatMap Entry.items

/-- The object of a reference. -/
def entry? (r : Ref) : Option Entry :=
  (a.sections.find? (·.tag == r.tag)).bind (·.entries[r.index]?)

/-- The symbols as they are known when all have been entered. -/
def table : SymbolTable := ({} : SymbolTable).internAll a.symbols

/-- The archive has the parts that the schema asks for, and its counts can be
    written. -/
structure Conforms (m : Model) : Prop where
  magic : a.preamble.magic = Preamble.currentMagic
  version : a.preamble.version ≤ Preamble.currentVersion
  symbolCount : a.symbols.length < 2 ^ 32
  symbols : ∀ s ∈ a.symbols, s.utf8ByteSize < 2 ^ 32
  rootCount : a.roots.length < 2 ^ 32
  tags : a.sections.map (·.tag) = m.schema.concrete.map (·.tag)
  counts : ∀ s ∈ a.sections, s.tag < 2 ^ 32 ∧ s.entries.length < 2 ^ 32
  entries : ∀ s ∈ a.sections, ∃ e, m.schema.entityAt? s.tag = some e ∧
    ∀ x ∈ s.entries, x.Suits (m.schema.membersBaseFirst e)

end Archive

end ObjectModel
