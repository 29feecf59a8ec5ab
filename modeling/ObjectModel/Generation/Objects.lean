import ObjectModel.Generation.Blueprint

/-!
# The types of objects

`objects.rs` declares a struct for each concrete entity. It has a field for
every member, inherited ones included, and functions to read and set them.
References are set only to objects that the member may refer to.

* `Objects.fields`: the fields of a struct.
* `Objects.methods`: the functions on it.
-/

namespace ObjectModel.Generation.Objects

open Code

/-- A field of a struct. -/
structure Field where
  name : String
  type : String
  /-- The member and the entity that declares it, for an inherited member. -/
  origin : Option (String × String) := none
deriving DecidableEq, Repr

/-- The declaration of a field. -/
def Field.code (f : Field) : Code :=
  (f.origin.map fun o => line s!"/// `{o.1}` (from `{o.2}`)").getD [] ++
    line s!"pub(crate) {f.name}: {f.type},"

variable (b : Blueprint)

/-- The field that all structs have. -/
def headerField : Field := { name := "header", type := "ObjectHeader" }

/-- The field of a member of `e` that `owner` declares. -/
def memberField (e owner : Entity) (m : Member) : Field where
  name := b.field m
  type := fieldType m
  origin := if owner.name = e.name then none else some (m.name, owner.name)

/-- The fields of the struct of an entity. -/
def fields (e : Entity) : List Field :=
  headerField :: (b.schema.ownedBaseFirst e).map fun om => memberField b e om.1 om.2

/-- The functions on the base record. -/
def headerMethods : List Method := [
  { comment := "Base record.", mustUse := true, name := "header",
    signature := "(&self) -> &ObjectHeader", body := ["&self.header"] },
  { comment := "Mutable base record.", name := "header_mut",
    signature := "(&mut self) -> &mut ObjectHeader", body := ["&mut self.header"] }]

/-- The function that tells the type, where no member of that name does. -/
def typeMethods (e : Entity) : List Method :=
  if b.schema.declaresType e then [] else [
    { comment := "Type discriminant.", mustUse := true, head := "pub const fn",
      name := "type_tag", signature := "(&self) -> TypeTag", body := ["Self::TAG"] }]

/-- The function that reads a member as `result`. -/
def getter (m : Member) (result value : String) : Method where
  mustUse := true
  name := b.field m
  signature := "(&self) -> " ++ result
  body := [value]

/-- The function that sets a member to `value`, given as `type`, after
    `guard`. -/
def setter (m : Member) (comment : Option String) (type value : String) (guard : List Code) :
    Method where
  comment := comment
  name := "set_" ++ b.stem m
  signature := s!"(&mut self, value: {type}) -> bool"
  body := [all guard, s!"self.{b.field m} = {value};", "true"]

/-- The functions on a scalar. -/
def scalarMethods (m : Member) (kind : ScalarKind) : List Method :=
  let field := "self." ++ b.field m
  if kind.isSymbol then
    [getter b m "&str" ("&" ++ field), setter b m none "impl Into<String>" "value.into()" []]
  else
    [getter b m kind.fieldType field, setter b m none kind.fieldType "value" []]

/-- What a setter says of values that it refuses. -/
def refusal (m : Member) (refused : String) : String :=
  let target := m.target?.getD ""
  s!"Sets `{m.name}`; rejects {refused} a `{target}`."

/-- The functions on a single reference. -/
def singleMethods (m : Member) : List Method :=
  let check := (b.targetPredicate? m).getD ""
  [getter b m "Option<ObjRef>" ("self." ++ b.field m),
   setter b m (refusal m "objects that are not") "Option<ObjRef>" "value" [
     block s!"if value.is_some_and(|r| !{check}(r.tag))" ["return false;"]]]

/-- The functions on a list of references. -/
def listMethods (m : Member) : List Method :=
  let check := (b.targetPredicate? m).getD ""
  let field := "self." ++ b.field m
  [getter b m "Option<&[ObjRef]>" (field ++ ".as_deref()"),
   setter b m (refusal m "lists holding an object that is not") "Option<Vec<ObjRef>>" "value" [
     "if value",
     "    .as_ref()",
     s!"    .is_some_and(|items| items.iter().any(|r| !{check}(r.tag)))",
     block "" ["return false;"]],
   { comment := s!"Mutable `{m.name}` list, created empty when `create` is set.",
     name := b.stem m ++ "_mut",
     signature := "(&mut self, create: bool) -> Option<&mut Vec<ObjRef>>",
     body := [
       block s!"if create && {field}.is_none()" [s!"{field} = Some(Vec::new());"],
       s!"{field}.as_mut()"] }]

/-- The functions on a member. -/
def memberMethods (m : Member) : List Method :=
  match m.scalarKind? with
  | some kind => scalarMethods b m kind
  | none => if m.isMany then listMethods b m else singleMethods b m

/-- All functions on the struct of an entity. -/
def methods (e : Entity) : List Method :=
  headerMethods ++ typeMethods b e ++ (b.members e).flatMap (memberMethods b)

/-- The struct of an entity with its functions. -/
def struct (e : Entity) : Code := all [
  s!"/// `{e.name}` object.",
  "#[derive(Debug, Clone, Default)]",
  block s!"pub struct {b.className e}" ((fields b e).map (·.code)),
  "",
  block s!"impl {b.className e}" [
    "/// Type tag of this type.",
    s!"pub const TAG: TypeTag = {b.tagPath e};",
    "",
    (methods b e).flatMap (·.code)],
  ""]

/-- The text of `objects.rs`. -/
def objects : String := text (all [
  b.banner "Object types",
  "#![allow(clippy::too_many_lines)]",
  "",
  "use super::types::TypeTag;",
  "use hdmgen_core::\x7bObjRef, ObjectHeader\x7d;",
  "",
  b.forEach (struct b)])

end ObjectModel.Generation.Objects
