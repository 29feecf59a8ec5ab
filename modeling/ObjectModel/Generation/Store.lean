import ObjectModel.Generation.Blueprint

/-!
# The store

`store.rs` declares the store of all objects, a list for each type, and the
functions that make objects and look them up.
-/

namespace ObjectModel.Generation.Store

open Code

/-- The fixed text of `store.rs`. -/
def frame : Code := all [
  hole "BANNER",
  "use super::objects::\x7b<CLASSES>\x7d;",
  "use super::types::TypeTag;",
  "use hdmgen_core::\x7bObjRef, ObjectHeader\x7d;",
  "",
  "/// Arena owning every object of the model, one vector per type.",
  "///",
  "/// Objects are addressed by [`ObjRef`]; the index is the position in the",
  "/// vector of the reference's type.",
  "#[derive(Debug, Clone, Default)]",
  block "pub struct Store" [
    hole "FIELDS",
    "last_id: u32,"],
  "",
  block "impl Store" [
    "/// Creates an empty store.",
    "#[must_use]",
    block "pub fn new() -> Self" [
      "Self::default()"],
    "",
    block "fn next_id(&mut self) -> u32" [
      "self.last_id += 1;",
      "self.last_id"],
    "",
    hole "ACCESSORS",
    "/// Allocates a default object of the given type.",
    block "pub fn make(&mut self, tag: TypeTag) -> ObjRef" [
      block "match tag" [
        hole "MAKE_ARMS"]],
    "",
    "/// Number of objects of the given type.",
    "#[must_use]",
    block "pub fn count(&self, tag: TypeTag) -> usize" [
      block "match tag" [
        hole "COUNT_ARMS"]],
    "",
    "/// Base record of any object.",
    "#[must_use]",
    block "pub fn header(&self, obj: ObjRef) -> Option<&ObjectHeader>" [
      "let index = obj.index as usize;",
      block "match TypeTag::from_ordinal(obj.tag)?" [
        hole "HEADER_ARMS"]],
    "",
    "/// Mutable base record of any object.",
    block "pub fn header_mut(&mut self, obj: ObjRef) -> Option<&mut ObjectHeader>" [
      "let index = obj.index as usize;",
      block "match TypeTag::from_ordinal(obj.tag)?" [
        hole "HEADER_MUT_ARMS"]],
    "",
    "/// Every non-null reference held by `obj`, paired with its relation.",
    "#[must_use]",
    block "pub fn references(&self, obj: ObjRef) -> Vec<(&'static str, ObjRef)>" [
      "let mut refs = Vec::new();",
      "let index = obj.index as usize;",
      block "match TypeTag::from_ordinal(obj.tag)" [
        hole "REFERENCE_ARMS",
        "None => \x7b\x7d"],
      "refs"],
    "",
    "/// Text of a string-valued member of `obj`, by schema member name.",
    "#[must_use]",
    block "pub fn text_field(&self, obj: ObjRef, member: &str) -> Option<&str>" [
      "let index = obj.index as usize;",
      block "match TypeTag::from_ordinal(obj.tag)?" [
        hole "TEXT_ARMS"]]]]

variable (b : Blueprint)

/-- The function that looks up objects of an entity as `result`. -/
def lookup (e : Entity) (name self result get : String) : Method where
  mustUse := self = "&self"
  name := name
  signature := s!"({self}, obj: ObjRef) -> Option<{result}{b.className e}>"
  body := [
    block s!"if obj.tag != {b.tagPath e}.ordinal()" ["return None;"],
    s!"self.{b.storeField e}.{get}(obj.index as usize)"]

/-- The functions on objects of an entity. -/
def methods (e : Entity) : List Method := [
  { comment := s!"Allocates a `{e.name}` object.",
    name := "make_" ++ b.typeStem e,
    signature := "(&mut self) -> ObjRef",
    body := [
      s!"let obj = ObjRef::new({b.tagPath e}.ordinal(), self.{b.storeField e}.len() as u32);",
      "let id = self.next_id();",
      blockUpTo s!"self.{b.storeField e}.push({b.className e}" [
        "header: ObjectHeader::with_id(id),",
        "..Default::default()"] ");",
      "obj"] },
  lookup b e (b.storeField e) "&self" "&" "get",
  lookup b e (b.typeStem e ++ "_mut") "&mut self" "&mut " "get_mut"]

/-- What objects of an entity refer to. -/
def referenceArm (e : Entity) : Code :=
  if (b.references e).isEmpty then s!"Some({b.tagPath e}) => \x7b\x7d"
  else block s!"Some({b.tagPath e}) =>" [
    block s!"if let Some(object) = self.{b.storeField e}.get(index)" <|
      (b.references e).map fun m =>
        if m.isMany then block s!"if let Some(items) = &object.{b.field m}" [
          s!"refs.extend(items.iter().map(|&r| (\"{m.relation}\", r)));"]
        else s!"refs.extend(object.{b.field m}.map(|r| (\"{m.relation}\", r)));"]

/-- The texts of objects of an entity. -/
def textArm (e : Entity) : Code :=
  if (b.schema.symbolMembers e).isEmpty then s!"{b.tagPath e} => None,"
  else block s!"{b.tagPath e} =>" [
    s!"let object = self.{b.storeField e}.get(index)?;",
    block "match member" [
      (b.schema.symbolMembers e).flatMap fun m =>
        s!"\"{m.name}\" => Some(object.{b.field m}.as_str()),",
      "_ => None,"]]

/-- The text of `store.rs`. -/
def store : Except TemplateError String :=
  let arm (result : Entity → String) : String :=
    (b.forEach fun e => s!"{b.tagPath e} => self.{result e},").textAt 3
  b.fillFrame frame "store.rs" "Object store" [
    ("CLASSES", b.classList),
    ("FIELDS", (b.forEach fun e => s!"{b.storeField e}: Vec<{b.className e}>,").textAt 1),
    ("ACCESSORS", (b.forEach fun e => (methods b e).flatMap (·.code)).textAt 1),
    ("MAKE_ARMS", arm fun e => s!"make_{b.typeStem e}()"),
    ("COUNT_ARMS", arm fun e => s!"{b.storeField e}.len()"),
    ("HEADER_ARMS", arm fun e => s!"{b.storeField e}.get(index).map(|o| &o.header)"),
    ("HEADER_MUT_ARMS", arm fun e => s!"{b.storeField e}.get_mut(index).map(|o| &mut o.header)"),
    ("REFERENCE_ARMS", (b.forEach (referenceArm b)).textAt 3),
    ("TEXT_ARMS", (b.forEach (textArm b)).textAt 3)]

end ObjectModel.Generation.Store
