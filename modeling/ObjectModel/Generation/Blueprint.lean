import ObjectModel.Generation.Code
import ObjectModel.Naming.Basic
import ObjectModel.Policy.Basic
import ObjectModel.Schema.Resolution

/-!
# Blueprints

A blueprint is all that code is generated from: a resolved schema, the way in
which names are derived, and a policy. It answers what generated things are
called and of which type they are, so that pieces of code that speak of each
other agree.

* `Blueprint.className`, `Blueprint.tagPath`, `Blueprint.typeStem`,
  `Blueprint.storeField`, `Blueprint.visitor`: for an entity.
* `Blueprint.field`, `Blueprint.stem`, `fieldType`: for a member.
* `Blueprint.targetPredicate?`: the function that tells what a member may
  refer to.
-/

namespace ObjectModel.Generation

/-- What code is generated from. -/
structure Blueprint where
  resolution : Resolution
  naming : Naming
  policy : PolicyTable

/-- The type of the field that holds a member. -/
def fieldType (m : Member) : String :=
  match m.scalarKind? with
  | some kind => kind.fieldType
  | none => if m.isMany then "Option<Vec<ObjRef>>" else "Option<ObjRef>"

/-- What the name of the predicate of a group is made of. -/
def groupStem (group : String) : String := Spelling.snake (Spelling.pascal group)

/-- The predicate of a group, from another module. -/
def groupPredicate (group : String) : String := "super::groups::is_" ++ groupStem group

namespace Blueprint

variable (b : Blueprint)

/-- The schema. -/
def schema : Schema := b.resolution.schema

/-- The entities that have objects, by tag. -/
def concrete : List Entity := b.schema.concrete

/-- A piece of code for each concrete entity. -/
def forEach (code : Entity → Code) : Code := b.concrete.flatMap code

/-- The comment at the head of a file about `subject`. -/
def banner (subject : String) : Code :=
  Code.banner s!"{subject} of the `{b.schema.name}` object model."

/-- Fills the frame of the file called `name` about `subject`. -/
def fillFrame (frame : Code) (name subject : String) (values : List (String × String)) :
    Except TemplateError String :=
  (frame.template name).fillAll (("BANNER", (b.banner subject).text) :: values)

/-- The type of the objects of an entity. -/
def className (e : Entity) : String := b.naming.className e.name

/-- The tag of an entity in generated code. -/
def tagPath (e : Entity) : String := "TypeTag::" ++ b.className e

/-- What the names of functions on objects of an entity are made of. -/
def typeStem (e : Entity) : String := b.naming.typeStem e.name

/-- The field of the store that holds the objects of an entity. -/
def storeField (e : Entity) : String := Spelling.escape (b.typeStem e)

/-- The function by which walks visit objects of an entity. -/
def visitor (e : Entity) : String := "visit_" ++ b.typeStem e

/-- The types of all concrete entities, for a list of imports. -/
def classList : String := String.intercalate ", " (b.concrete.map b.className)

/-- The field that holds a member, and the function that reads it. -/
def field (m : Member) : String := b.naming.fieldName m.name m.cardinality

/-- What the names of other functions on a member are made of. -/
def stem (m : Member) : String := b.naming.fieldStem m.name m.cardinality

/-- The predicate of an entity, from another module. -/
def typePredicate (entity : String) : String :=
  "super::types::is_" ++ b.naming.typeStem entity

/-- The predicate on the tags of what a member may refer to. -/
def targetPredicate? (m : Member) : Option String :=
  match m.content with
  | .scalar _ => none
  | .object entity _ => some (b.typePredicate entity)
  | .union group _ => some (groupPredicate group)

/-- The chain of an entity. -/
def chain (e : Entity) : List Entity := b.schema.chain e

/-- The members of an entity, the root's first. -/
def members (e : Entity) : List Member := b.schema.membersBaseFirst e

/-- The members of an entity that hold references. -/
def references (e : Entity) : List Member := (b.members e).filter (·.isReference)

/-- The text by which objects of an entity are known: the one that is marked
    so, or else one called `name`. -/
def nameMember? (e : Entity) : Option Member :=
  let texts := b.schema.symbolMembers e
  texts.find? (·.hasTag .nameIdentifier) <|> texts.find? (·.name == "name")

/-- Walks pass over the member. -/
def skips (e : Entity) (m : Member) : Bool := b.policy.skipsTraversal (b.chain e) m

/-- The reference members of an entity that walks follow. -/
def walked (e : Entity) : List Member := (b.references e).filter fun m => !b.skips e m

end Blueprint

/-- The predicate that holds of the tags in a list. -/
def tagPredicate (name comment : String) (tags : List Nat) : Code :=
  let body : Code :=
    if tags.isEmpty then .all ["let _ = tag;", "false"]
    else Code.line ("matches!(tag, " ++ String.intercalate " | " (tags.map toString) ++ ")")
  Method.code {
    comment, mustUse := true, head := "pub const fn", name, signature := "(tag: u32) -> bool",
    body := [body] }

end ObjectModel.Generation
