import ObjectModel.Generation.Blueprint

/-!
# Adoption

`containers.rs` makes objects children of others. A child is also filed in the
buckets of its parent that are meant for its type (`Containers.filings`): those
of every entity in the chain of the parent, the root's first.
-/

namespace ObjectModel.Generation.Containers

open Code

/-- A bucket for children. -/
structure Filing where
  /-- The entity that the bucket is declared for. -/
  collector : String
  /-- The entity of the children. -/
  child : String
  /-- The member that is the bucket. -/
  bucket : Member
deriving DecidableEq, Repr

/-- The fixed text of `containers.rs`. -/
def frame : Code := all [
  hole "BANNER",
  "use super::store::Store;",
  "use super::types::TypeTag;",
  "use hdmgen_core::ObjRef;",
  "",
  block "fn file_into(list: Option<&mut Vec<ObjRef>>, child: ObjRef)" [
    block "if let Some(list) = list" [
      block "if !list.contains(&child)" [
        "list.push(child);"]]],
  "",
  block "fn remove_from(list: Option<&mut Vec<ObjRef>>, child: ObjRef)" [
    block "if let Some(list) = list" [
      "list.retain(|&item| item != child);"]],
  "",
  block "impl Store" [
    "/// Makes `child` a child of `parent`.",
    "///",
    "/// Sets the child's parent link, appends it to the parent's generic child",
    "/// list and files it into every collector bucket of the parent whose",
    "/// element type it is-a. A child owned by another parent is detached",
    "/// from it first. Returns false if either object does not exist.",
    block "pub fn attach_child(&mut self, parent: ObjRef, child: ObjRef) -> bool" [
      block "if self.header(parent).is_none()" [
        "return false;"],
      blockUpTo "let Some(previous) = self.header(child).map(|h| h.parent) else" [
        "return false;"] ";",
      block "if let Some(previous) = previous.filter(|&p| p != parent)" [
        "self.detach_child(previous, child);"],
      blockUpTo "let Some(header) = self.header_mut(child) else" [
        "return false;"] ";",
      "header.parent = Some(parent);",
      block "if let Some(header) = self.header_mut(parent)" [
        block "if !header.children.contains(&child)" [
          "header.children.push(child);"]],
      "self.child_added(parent, child);",
      "true"],
    "",
    "/// Removes `child` from `parent`'s child list and buckets.",
    "///",
    "/// Returns true if the child was in the generic child list.",
    block "pub fn detach_child(&mut self, parent: ObjRef, child: ObjRef) -> bool" [
      blockUpTo "let Some(header) = self.header_mut(parent) else" [
        "return false;"] ";",
      "let before = header.children.len();",
      "header.children.retain(|&item| item != child);",
      "let removed = header.children.len() != before;",
      block "if let Some(header) = self.header_mut(child)" [
        block "if header.parent == Some(parent)" [
          "header.parent = None;"]],
      "self.child_removed(parent, child);",
      "removed"],
    "",
    block "fn child_added(&mut self, parent: ObjRef, child: ObjRef)" [
      block "match TypeTag::from_ordinal(parent.tag)" [
        hole "ADDED_ARMS",
        "None => \x7b\x7d"]],
    "",
    block "fn child_removed(&mut self, parent: ObjRef, child: ObjRef)" [
      block "match TypeTag::from_ordinal(parent.tag)" [
        hole "REMOVED_ARMS",
        "None => \x7b\x7d"]]]]

variable (b : Blueprint)

/-- The buckets of objects of an entity. Those that are no member of it are
    left out. -/
def filings (e : Entity) : List Filing :=
  (b.schema.levels e).flatMap fun level =>
    (b.policy.bucketsOf level.name).filterMap fun (child, bucket) =>
      (b.schema.findMember? e bucket).map fun om => ⟨level.name, child, om.2⟩

/-- Does `action` to the buckets in a list, whose collectors are named where
    they change from the one before. -/
def filingCode (action : Member → String) (before : String) : List Filing → Code
  | [] => []
  | f :: r =>
    (if f.collector = before then [] else line s!"// {f.collector}") ++
    block s!"if {b.typePredicate f.child}(child.tag)" [action f.bucket] ++
    filingCode action f.collector r

/-- Does `action` to the buckets of a parent of an entity that its child is
    meant for. -/
def arm (action : Member → String) (e : Entity) : Code :=
  if (filings b e).isEmpty then s!"Some({b.tagPath e}) => \x7b\x7d"
  else block s!"Some({b.tagPath e}) =>" [
    blockUpTo s!"let Some(object) = self.{b.typeStem e}_mut(parent) else" ["return;"] ";",
    filingCode b action "" (filings b e)]

/-- The text of `containers.rs`. -/
def containers : Except TemplateError String :=
  let added (m : Member) := s!"file_into(object.{b.stem m}_mut(true), child);"
  let removed (m : Member) := s!"remove_from(object.{b.stem m}_mut(false), child);"
  b.fillFrame frame "containers.rs" "Container adoption" [
    ("ADDED_ARMS", (b.forEach (arm b added)).textAt 3),
    ("REMOVED_ARMS", (b.forEach (arm b removed)).textAt 3)]

end ObjectModel.Generation.Containers
