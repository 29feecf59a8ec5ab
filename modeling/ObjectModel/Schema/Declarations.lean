import ObjectModel.Schema.Check

/-!
# Declaring a schema

A schema is made from declarations in order. Names are checked to be distinct
and bases to be declared earlier; then tags, subclasses and kinds follow, and
the result is checked as a whole (`RawSchema.check`).

* `Declarations.toSchema`: the schema that is declared, or what is wrong.
-/

namespace ObjectModel

/-- The declaration of an entity. -/
structure EntityDecl where
  name : String
  base : Option String := none
  /-- The entity is not to have objects of its own. This counts only if some
      entity extends it. -/
  isAbstract : Bool := false
  members : List Member := []
deriving DecidableEq, Repr

/-- The declarations that make a schema. -/
structure Declarations where
  name : String
  entities : List EntityDecl := []
  groups : List Group := []
deriving DecidableEq, Repr

/-- The first name of a list that occurs before in it or in `seen`. -/
def firstRepeat? (seen : List String) : List String → Option String
  | [] => none
  | a :: r => if a ∈ seen then some a else firstRepeat? (a :: seen) r

namespace Declarations

/-- Entities have different names, also from those in `seen`, and so have the
    own members of each. -/
def checkEntityNames (seen : List String) : List EntityDecl → Except SchemaError Unit
  | [] => pure ()
  | e :: r => do
    if e.name ∈ seen then
      throw (.duplicateEntity e.name)
    if let some m := firstRepeat? [] (e.members.map (·.name)) then
      throw (.duplicateMember e.name m)
    checkEntityNames (e.name :: seen) r

variable (d : Declarations)

/-- Groups have different names. -/
def checkGroupNames : Except SchemaError Unit :=
  match firstRepeat? [] (d.groups.map (·.name)) with
  | some name => throw (.duplicateGroup name)
  | none => pure ()

/-- Bases are declared before what extends them; `earlier` are the names
    declared so far. -/
def checkBases (earlier : List String) : List EntityDecl → Except SchemaError Unit
  | [] => pure ()
  | e :: r => do
    if let some base := e.base then
      if base ∉ earlier then
        if base ∈ d.entities.map (·.name) then
          throw (.orderingViolation e.name base)
        throw (.unknownBase e.name base)
    checkBases (e.name :: earlier) r

/-- The entities declared to extend `name`. -/
def subclasses (name : String) : List String :=
  (d.entities.filter (·.base == some name)).map (·.name)

/-- The entity declared at position `tag`. -/
def entity (e : EntityDecl) (tag : Nat) : Entity where
  name := e.name
  kind :=
    if (d.subclasses e.name).isEmpty then .leaf else if e.isAbstract then .abstract else .interior
  base := e.base
  members := e.members
  tag := tag
  subclasses := d.subclasses e.name

/-- The schema that is declared, unchecked. -/
def assemble : Schema where
  name := d.name
  entities := d.entities.zipIdx.map fun e => d.entity e.1 e.2
  groups := d.groups

/-- The schema that is declared, its names checked for `naming`. -/
def toSchema (naming : Naming) : Except SchemaError Schema := do
  checkEntityNames [] d.entities
  d.checkGroupNames
  d.checkBases [] d.entities
  d.assemble.check naming
  return d.assemble

end Declarations

end ObjectModel
