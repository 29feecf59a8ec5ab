import ObjectModel.Generation.Blueprint

/-!
# Tree dumps

`visitor.rs` prints objects as an indented tree: the name of an object, then
its other scalars, then what it refers to. Members that walks pass over are
printed too, but not descended into.
-/

namespace ObjectModel.Generation.TreeDump

open Code

/-- The fixed text of `visitor.rs`. -/
def frame : Code := all [
  hole "BANNER",
  "use super::store::Store;",
  "use super::types::TypeTag;",
  "use hdmgen_core::\x7bObjRef, ObjectHeader, VisitedSet\x7d;",
  "use std::fmt::Display;",
  "",
  "/// Indentation added per nesting level.",
  "pub const LEVEL_INDENT: usize = 2;",
  "",
  "/// Renders `root` and everything reachable from it as an indented tree.",
  "///",
  "/// Each object prints a `\\_type: (name), id:N` line under the relation it",
  "/// was reached through, then its scalar members, then its references one",
  "/// level deeper. An object met a second time prints its header line only.",
  "/// Relations excluded from traversal are printed without descending.",
  block "pub fn dump(store: &Store, root: ObjRef) -> String" [
    blockUpTo "let mut dumper = Dumper" [
      "store,",
      "visited: VisitedSet::new(),",
      "out: String::new(),"] ";",
    "dumper.object(root, 0, None, false);",
    "dumper.out"],
  "",
  block "struct Dumper<'s>" [
    "store: &'s Store,",
    "visited: VisitedSet,",
    "out: String,"],
  "",
  block "impl Dumper<'_>" [
    block ("fn object(&mut self, obj: ObjRef, indent: usize, " ++
        "relation: Option<&str>, shallow: bool)") [
      block "match TypeTag::from_ordinal(obj.tag)" [
        hole "DUMP_ARMS",
        "None => \x7b\x7d"]],
    "",
    block ("fn collection(&mut self, items: &[ObjRef], indent: usize, " ++
        "relation: &str, shallow: bool)") [
      block "for &item in items" [
        "self.object(item, indent, Some(relation), shallow);"]],
    "",
    "/// Prints the header line, returning true if the members should follow.",
    "fn header(",
    "    &mut self,",
    "    obj: ObjRef,",
    "    indent: usize,",
    "    relation: Option<&str>,",
    "    name: &str,",
    "    header: &ObjectHeader,",
    "    shallow: bool,",
    block ") -> bool" [
      "let first = !shallow && self.visited.insert(obj);",
      choice "let (bar, branch) = if indent >= LEVEL_INDENT" [
        "let pad = \" \".repeat(indent - LEVEL_INDENT);",
        "(format!(\"\x7bpad\x7d|\"), format!(\"\x7bpad\x7d\\\\_\"))"] [
        "(String::new(), String::new())"] ";",
      block "if let Some(relation) = relation" [
        "self.out.push_str(&format!(\"\x7bbar\x7d\x7brelation\x7d:\\n\"));"],
      "let type_name = TypeTag::from_ordinal(obj.tag).map_or(\"unknown\", TypeTag::name);",
      "self.out.push_str(&format!(\"\x7bbranch\x7d\x7btype_name\x7d:\"));",
      block "if !name.is_empty()" [
        "self.out.push_str(&format!(\" (\x7bname\x7d)\"));"],
      "self.out.push_str(&format!(\", id:\x7b\x7d\", header.id));",
      block "if header.start_line != 0" [
        "self.out.push_str(&format!(\", line:\x7b\x7d\", header.start_line));"],
      "self.out.push('\\n');",
      "first"],
    "",
    block "fn text(&mut self, indent: usize, member: &str, value: &str)" [
      block "if !value.is_empty()" [
        line ("self.out.push_str(" ++
          "&format!(\"\x7b:indent$\x7d|\x7bmember\x7d:\x7bvalue\x7d\\n\", \"\"));")]],
    "",
    block "fn scalar(&mut self, indent: usize, member: &str, value: impl Display)" [
      "self.out.push_str(&format!(\"\x7b:indent$\x7d|\x7bmember\x7d:\x7bvalue\x7d\\n\", \"\"));"],
    "",
    hole "DUMP_FNS"]]

variable (b : Blueprint)

/-- The text by which an object of an entity is known. -/
def nameText (e : Entity) : String :=
  match b.nameMember? e with
  | some m => "&object." ++ b.field m
  | none => "\"\""

/-- The scalars of an entity with their types, without the name. -/
def scalars (e : Entity) : List (Member × ScalarKind) :=
  (b.members e).filterMap fun m =>
    if (b.nameMember? e).any (·.name == m.name) then none else m.scalarKind?.map (m, ·)

/-- Prints a scalar. -/
def printScalar (m : Member) (kind : ScalarKind) : Code :=
  if kind.isSymbol then s!"self.text(indent, \"{m.name}\", &object.{b.field m});"
  else s!"self.scalar(indent, \"{m.name}\", object.{b.field m});"

/-- Prints what a member of an object of `e` refers to. -/
def printReference (e : Entity) (m : Member) : Code :=
  let shallow := if b.skips e m then "true" else "false"
  if m.isMany then block s!"if let Some(items) = object.{b.field m}.as_deref()" [
    s!"self.collection(items, indent + LEVEL_INDENT, \"{m.relation}\", {shallow});"]
  else block s!"if let Some(child) = object.{b.field m}" [
    s!"self.object(child, indent + LEVEL_INDENT, Some(\"{m.relation}\"), {shallow});"]

/-- The function that prints an object of an entity. -/
def dump (e : Entity) : Code := all [
  block (s!"fn dump_{b.typeStem e}" ++
      "(&mut self, obj: ObjRef, indent: usize, relation: Option<&str>, shallow: bool)") [
    "let store = self.store;",
    blockUpTo s!"let Some(object) = store.{b.storeField e}(obj) else" ["return;"] ";",
    block ("if !self.header(obj, indent, relation, " ++ nameText b e ++
        ", &object.header, shallow)") ["return;"],
    (scalars b e).flatMap fun mk => printScalar b mk.1 mk.2,
    (b.references e).flatMap (printReference b e)],
  ""]

/-- The text of `visitor.rs`. -/
def visitor : Except TemplateError String :=
  b.fillFrame frame "visitor.rs" "Tree dump" [
    ("DUMP_ARMS", (b.forEach fun e =>
      s!"Some({b.tagPath e}) => self.dump_{b.typeStem e}(obj, indent, relation, shallow),"
      ).textAt 3),
    ("DUMP_FNS", (b.forEach (dump b)).textAt 1)]

end ObjectModel.Generation.TreeDump
