import ObjectModel.Reference
import ObjectModel.Schema.Basic

/-!
# Values

What an object holds in a member. Integers are kept in 64 bits, whatever the
width of the member; `Value.fits` tells whether a value may stand in a member,
as far as that can be told without looking at the objects referred to. A list
of references that was never made differs from an empty one.
-/

namespace ObjectModel

/-- The kinds of values, in the order in which values of different kinds
    compare. -/
inductive ValueKind
  | bool
  | int
  | uint
  | text
  | ref
  | refs
deriving DecidableEq, Repr

namespace ValueKind

/-- The name of a kind, as readers see it. -/
def name : ValueKind → String
  | bool => "bool"
  | int => "signed integer"
  | uint => "unsigned integer"
  | text => "text"
  | ref => "reference"
  | refs => "reference list"

/-- The place of a kind in the order of kinds. -/
def rank : ValueKind → Nat
  | bool => 0
  | int => 1
  | uint => 2
  | text => 3
  | ref => 4
  | refs => 5

end ValueKind

/-- The content of a member of an object. -/
inductive Value
  | bool (b : Bool)
  | int (n : Int64)
  | uint (n : UInt64)
  | text (s : String)
  | ref (target : Option Ref)
  /-- A list of references, if it was made. -/
  | refs (items : Option (List Ref))
deriving DecidableEq, Repr

namespace Value

instance : Inhabited Value := ⟨.ref none⟩

/-- The kind of a value. -/
def kind : Value → ValueKind
  | bool _ => .bool
  | int _ => .int
  | uint _ => .uint
  | text _ => .text
  | ref _ => .ref
  | refs _ => .refs

/-- What a new object holds in a member. -/
def default (m : Member) : Value :=
  match m.content with
  | .scalar .bool => bool false
  | .scalar .int16 | .scalar .int32 | .scalar .int64 => int 0
  | .scalar .uint16 | .scalar .uint32 | .scalar .uint64 => uint 0
  | .scalar .string | .scalar .value | .scalar .delay => text ""
  | .object _ .one | .union _ .one => ref none
  | .object _ .many | .union _ .many => refs none

/-- The value has the kind of the member and keeps within its width. -/
def fits (m : Member) (v : Value) : Bool :=
  match m.content, v with
  | .scalar .bool, bool _ => true
  | .scalar .int16, int n => -0x8000 ≤ n.toInt && n.toInt < 0x8000
  | .scalar .int32, int n => -0x80000000 ≤ n.toInt && n.toInt < 0x80000000
  | .scalar .int64, int _ => true
  | .scalar .uint16, uint n => n.toNat < 0x10000
  | .scalar .uint32, uint n => n.toNat < 0x100000000
  | .scalar .uint64, uint _ => true
  | .scalar .string, text _ | .scalar .value, text _ | .scalar .delay, text _ => true
  | .object _ .one, ref _ | .union _ .one, ref _ => true
  | .object _ .many, refs _ | .union _ .many, refs _ => true
  | _, _ => false

/-- The objects referred to, in order. -/
def references : Value → List Ref
  | ref (some r) => [r]
  | refs (some items) => items
  | _ => []

/-- The order of two values, references left aside. -/
def scalarCompare : Value → Value → Ordering
  | bool a, bool b => compare a.toNat b.toNat
  | int a, int b => compare a.toInt b.toInt
  | uint a, uint b => compare a.toNat b.toNat
  | text a, text b => compare a b
  | ref _, ref _ | ref _, refs _ | refs _, ref _ | refs _, refs _ => .eq
  | a, b => compare a.kind.rank b.kind.rank

end Value

/-- Why a value or a reference does not go with a member. -/
inductive Mismatch
  /-- A value of this kind may not stand there. -/
  | unfit (found : ValueKind) (content : Content)
  /-- The member is no list. -/
  | notAList
  /-- The member does not take objects of this entity. -/
  | target (entity : String)
  /-- The member holds something other than what is asked for. -/
  | holds (found wanted : ValueKind)
deriving DecidableEq, Repr

/-- What a member takes, in words. -/
def Content.text : Content → String
  | scalar kind => kind.name
  | object _ .many | union _ .many => "reference list"
  | object _ .one | union _ .one => "reference"

/-- A mismatch in words. -/
def Mismatch.message : Mismatch → String
  | unfit found content => s!"{found.name} does not fit {content.text}"
  | notAList => "not a reference list"
  | target entity => s!"'{entity}' is not a valid target"
  | holds found wanted => s!"holds {found.name}, not {wanted.name}"

/-- Why the value may not stand in the member, if it may not. -/
def Value.mismatch? (m : Member) (v : Value) : Option Mismatch :=
  if v.fits m then none else some (.unfit v.kind m.content)

end ObjectModel
