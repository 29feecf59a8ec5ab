import ObjectModel.Generation.Blueprint

/-!
# The table of types

`types.rs` lists the types of objects: their tags and names, and for every
entity, abstract ones included, the predicate on tags that holds of its
objects. `forward.rs` gives all types in one place.
-/

namespace ObjectModel.Generation.TypeTable

open Code

/-- The fixed text of `types.rs`. -/
def frame : Code := all [
  hole "BANNER",
  "use std::fmt;",
  "",
  "/// Type tag of every instantiable object kind.",
  "///",
  "/// The discriminant is the entity's declaration-order tag, shared with the",
  "/// wire format.",
  "#[derive(Debug, Clone, Copy, PartialEq, Eq, Hash, PartialOrd, Ord)]",
  "#[repr(u32)]",
  block "pub enum TypeTag" [
    hole "VARIANTS"],
  "",
  block "impl TypeTag" [
    "/// Every type tag, in declaration order.",
    "pub const ALL: [Self; <COUNT>] = [",
    hole "ALL_TAGS",
    "];",
    "",
    "/// Declaration-order tag of this type.",
    "#[must_use]",
    block "pub const fn ordinal(self) -> u32" [
      "self as u32"],
    "",
    "/// Looks up a type tag by declaration-order tag.",
    "#[must_use]",
    block "pub const fn from_ordinal(ordinal: u32) -> Option<Self>" [
      block "match ordinal" [
        hole "FROM_ARMS",
        "_ => None,"]],
    "",
    "/// Schema name of this type.",
    "#[must_use]",
    block "pub const fn name(self) -> &'static str" [
      block "match self" [
        hole "NAME_ARMS"]]],
  "",
  block "impl fmt::Display for TypeTag" [
    block "fn fmt(&self, f: &mut fmt::Formatter<'_>) -> fmt::Result" [
      "f.write_str(self.name())"]],
  "",
  "/// `(ordinal, schema name)` of every type, in declaration order.",
  "pub const TYPE_NAMES: [(u32, &str); <COUNT>] = [",
  hole "TYPE_NAMES",
  "];",
  "",
  hole "PREDICATES",
  ""]

variable (b : Blueprint)

/-- The tags as they are declared. -/
def variants : Code := b.forEach fun e => all [
  s!"/// `{e.name}`",
  s!"{b.className e} = {e.tag},"]

/-- The predicate of every entity. -/
def predicates : Code := b.schema.entities.flatMap fun e =>
  tagPredicate ("is_" ++ b.typeStem e) s!"Returns true if objects tagged `tag` are-a `{e.name}`."
    (b.schema.isATags e)

/-- The text of `types.rs`. -/
def types : Except TemplateError String :=
  b.fillFrame frame "types.rs" "Type tags" [
    ("VARIANTS", (variants b).textAt 1),
    ("COUNT", toString b.concrete.length),
    ("ALL_TAGS", (b.forEach fun e => s!"Self::{b.className e},").textAt 2),
    ("FROM_ARMS", (b.forEach fun e => s!"{e.tag} => Some(Self::{b.className e}),").textAt 3),
    ("NAME_ARMS", (b.forEach fun e => s!"Self::{b.className e} => \"{e.name}\",").textAt 3),
    ("TYPE_NAMES", (b.forEach fun e => s!"({e.tag}, \"{e.name}\"),").textAt 1),
    ("PREDICATES", (predicates b).text)]

/-- The list of imports of all types, if there are any. -/
def imports : Code :=
  if b.concrete.isEmpty then []
  else all [
    "pub use super::objects::\x7b",
    indent 1 (b.forEach fun e => s!"{b.className e},"),
    "\x7d;"]

/-- The text of `forward.rs`. -/
def forward : String := text (all [
  b.banner "Forward declarations",
  imports b,
  "use super::types::TypeTag;",
  "",
  "/// Class name of every type, in declaration order.",
  s!"pub const CLASS_NAMES: [(TypeTag, &str); {b.concrete.length}] = [",
  indent 1 (b.forEach fun e => s!"({b.tagPath e}, \"{b.className e}\"),"),
  "];"])

end ObjectModel.Generation.TypeTable
