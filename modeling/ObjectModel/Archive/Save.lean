import ObjectModel.Graph.Reach
import ObjectModel.Symbols
import ObjectModel.Wire.Item

/-!
# Saving a graph

An archive holds the objects that are reachable from some roots. It is the
encoding of a sequence of items (`Graph.archiveItems`):

* the preamble,
* the number of symbols, and the symbols; their ids count from one,
* the number of roots, and the roots,
* for each concrete entity its tag and the number of its objects,
* the objects by tag, each with its header and its values by slot.

Objects are numbered anew within each tag, without gaps and in the order of
references, so that saving what was restored gives the same archive. Texts are
written as symbols. A list says first whether it was made.
-/

namespace ObjectModel

open Wire

/-- The number of an object among those of its tag, counted from one, in a list
    that is ordered. -/
def archiveIndex? (objects : List Ref) (r : Ref) : Option Nat :=
  ((objects.filter (·.tag == r.tag)).idxOf? r).map (· + 1)

/-- The item of a reference to one of the objects. -/
def refItem (objects : List Ref) (r : Option Ref) : Item :=
  match r.bind fun r => (archiveIndex? objects r).map (r.tag, ·) with
  | some (tag, index) => .ref (UInt32.ofNat tag) (UInt32.ofNat index)
  | none => .nullRef

/-- The item of a number of things. -/
def countItem (n : Nat) : Item := .u32 (UInt32.ofNat n)

/-- The item of a text, by its symbol. -/
def symbolItem (symbols : SymbolTable) (text : String) : Item :=
  countItem ((symbols.find? text).getD 0)

/-- The items of a header. -/
def Header.items (objects : List Ref) (symbols : SymbolTable) (h : Header) : List Item :=
  [.u32 h.id, refItem objects h.parent, symbolItem symbols h.file,
    .u32 h.start.line, .u16 h.start.column, .u32 h.stop.line, .u16 h.stop.column,
    countItem h.children.length] ++
  h.children.map fun c => refItem objects (some c)

/-- The items of a value in a member. A value that does not go with the member
    has none. -/
def Value.items (objects : List Ref) (symbols : SymbolTable) (m : Member) (v : Value) : List Item :=
  match m.content, v with
  | .scalar .bool, .bool b => [.bool b]
  | .scalar .int16, .int n => [.i16 n.toInt16]
  | .scalar .int32, .int n => [.i32 n.toInt32]
  | .scalar .int64, .int n => [.i64 n]
  | .scalar .uint16, .uint n => [.u16 n.toUInt16]
  | .scalar .uint32, .uint n => [.u32 n.toUInt32]
  | .scalar .uint64, .uint n => [.u64 n]
  | .scalar _, .text s => [symbolItem symbols s]
  | .object _ _, .ref target | .union _ _, .ref target => [refItem objects target]
  | .object _ _, .refs none | .union _ _, .refs none => [.bool false]
  | .object _ _, .refs (some items) | .union _ _, .refs (some items) =>
    [.bool true, countItem items.length] ++ items.map fun r => refItem objects (some r)
  | _, _ => []

/-- The texts of an object, in the order in which they become symbols. -/
def Object.texts (o : Object) : List String :=
  o.header.file :: o.values.filterMap fun
    | .text s => some s
    | _ => none

namespace Graph

variable (g : Graph)

/-- The items of an object. -/
def objectItems (objects : List Ref) (symbols : SymbolTable) (r : Ref) :
    Except GraphError (List Item) := do
  let o ← g.object r
  let members ← g.members r
  return o.header.items objects symbols ++
    (members.zip o.values).flatMap fun (m, v) => v.items objects symbols m

/-- The items of the archive of what is reachable from `roots`. -/
def archiveItems (roots : List Ref) : Except GraphError (List Item) := do
  let objects ← g.reachable roots
  let symbols := ({} : SymbolTable).internAll ((← objects.mapM g.object).flatMap Object.texts)
  let bodies ← objects.mapM (g.objectItems objects symbols)
  return .preamble .current ::
    countItem symbols.size :: symbols.texts.map .text ++
    countItem roots.length :: roots.map (fun r => refItem objects (some r)) ++
    (g.schema.concrete.flatMap fun e =>
      [countItem e.tag, countItem (objects.countP (·.tag == e.tag))]) ++
    bodies.flatten

/-- The archive of what is reachable from `roots`. -/
def save (roots : List Ref) : Except GraphError (List UInt8) :=
  encodeAll <$> g.archiveItems roots

end Graph

end ObjectModel
