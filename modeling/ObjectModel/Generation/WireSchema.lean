import ObjectModel.Generation.Blueprint
import ObjectModel.Text.Hex

/-!
# The wire schema

`model.capnp` describes the layout of saved objects. The struct of an entity
holds the struct of its base, or the base record where there is none, and then
the members that the entity adds. The root holds a list of structs for every
concrete entity.

* `WireSchema.entityStruct`: the struct of an entity.
* `WireSchema.factories`: the lists in the root.
* `WireSchema.fixedStructs`: what all schemas have.
-/

namespace ObjectModel.Generation.WireSchema

open Code

/-- A field of a struct. -/
structure Field where
  name : String
  ordinal : Nat
  type : String
deriving DecidableEq, Repr

/-- The declaration of a field. -/
def Field.code (f : Field) : Code := s!"{f.name} @{f.ordinal} :{f.type};"

/-- Fields of these names and types, numbered from `n`. -/
def numberFrom (n : Nat) (fields : List (String × String)) : List Field :=
  (fields.zipIdx n).map fun f => ⟨f.1.1, f.2, f.1.2⟩

/-- A struct. -/
structure Struct where
  name : String
  fields : List Field
deriving DecidableEq, Repr

/-- A struct with these fields. -/
def Struct.ofFields (name : String) (fields : List (String × String)) : Struct :=
  ⟨name, numberFrom 0 fields⟩

/-- The declaration of a struct that has the fields in `more`, too. -/
def Struct.code (s : Struct) (more : Code) : Code :=
  block ("struct " ++ s.name) [s.fields.flatMap (·.code), more]

/-- A reference: the index from one on, or zero for none, and the type. -/
def referenceStruct : Struct :=
  .ofFields "ObjIndexType" [("index", "UInt64"), ("type", "UInt32")]

/-- The base record. -/
def headerStruct : Struct :=
  .ofFields "ObjHeader" [("id", "UInt64"), ("parent", "ObjIndexType"), ("file", "UInt32"),
    ("startLine", "UInt32"), ("endLine", "UInt32"), ("startColumn", "UInt16"),
    ("endColumn", "UInt16")]

/-- The root, without the lists of objects. -/
def rootStruct : Struct :=
  .ofFields "HdmRoot" [("version", "UInt32"), ("symbols", "List(Text)"),
    ("roots", "List(ObjIndexType)")]

/-- The structs of all schemas. -/
def fixedStructs : List Struct := [referenceStruct, headerStruct, rootStruct]

/-- The fixed text of `model.capnp`. -/
def frame : Code := all [
  "# Wire schema of the `<SCHEMA>` object model.",
  "#",
  "# Generated by hdmgen. Do not edit.",
  "",
  "@<FILE_ID>;",
  "",
  referenceStruct.code [],
  "",
  headerStruct.code [],
  "",
  hole "STRUCTS",
  rootStruct.code (hole "FACTORIES")]

/-- The number of a wire schema: a hash of its name over the bytes, with the
    top bit set. -/
def fileId (name : String) : UInt64 :=
  name.toUTF8.toList.foldl (fun hash byte => (hash ^^^ byte.toUInt64) * 0x100000001b3)
    0xcbf29ce484222325 ||| 0x8000000000000000

/-- What the functions on a field are made of: each capital but the first
    character starts a word. -/
def accessorStem (field : String) : String :=
  let lowered (c : Char) (start : Bool) : List Char :=
    if c.isUpper then if start then [c.toLower] else ['_', c.toLower] else [c]
  String.ofList <| match field.toList with
    | [] => []
    | c :: r => lowered c true ++ r.flatMap (lowered · false)

variable (b : Blueprint)

/-- The field of a member. -/
def fieldName (m : Member) : String := b.naming.memberName m.name m.cardinality

/-- The type of the field of a member. -/
def fieldType (m : Member) : String :=
  match m.scalarKind? with
  | some kind => kind.wireType
  | none => if m.isMany then "List(ObjIndexType)" else "ObjIndexType"

/-- The struct that the struct of an entity starts with. -/
def baseName (e : Entity) : String :=
  match e.base with
  | some base => b.naming.className base
  | none => "ObjHeader"

/-- The struct of an entity. -/
def entityStruct (e : Entity) : Struct :=
  .ofFields (b.className e) <|
    ("base", baseName b e) :: e.members.map fun m => (fieldName b m, fieldType m)

/-- The field of the root that holds the objects of an entity. -/
def factoryName (e : Entity) : String := "factory" ++ b.className e

/-- The fields of the root that hold the objects. -/
def factories : List Field :=
  numberFrom rootStruct.fields.length <|
    b.concrete.map fun e => (factoryName b e, s!"List({b.className e})")

/-- The text of `model.capnp`. -/
def wireSchema : Except TemplateError String :=
  let structs : Code :=
    b.schema.entities.flatMap fun e => (entityStruct b e).code [] ++ line ""
  let frame : Template := { name := "model.capnp", text := textBy 2 frame }
  frame.fillAll [
    ("SCHEMA", b.schema.name),
    ("FILE_ID", "0x" ++ hexText 16 (fileId b.schema.name).toNat),
    ("STRUCTS", textBy 2 structs),
    ("FACTORIES", textBy 2 (indent 1 ((factories b).flatMap (·.code))))]

end ObjectModel.Generation.WireSchema
