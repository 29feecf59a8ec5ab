import ObjectModel.Generation.Blueprint

/-!
# Comparison

`compare.rs` compares two objects member by member: the members of the root
first, and of each entity in the chain scalars before references.
-/

namespace ObjectModel.Generation.Compare

open Code

/-- The fixed text of `compare.rs`. -/
def frame : Code := all [
  all [
    hole "BANNER",
    "use super::store::Store;",
    "use super::types::TypeTag;",
    "use hdmgen_core::\x7bCompareContext, ObjRef\x7d;",
    "use std::cmp::Ordering;",
    ""],
  all [
    "/// Compares two objects structurally.",
    "///",
    "/// Objects of different types order by type tag without looking at their",
    "/// members. A pair already under comparison counts as equal, so cyclic",
    "/// graphs terminate. The first mismatching pair is recorded in `cx`.",
    block ("pub fn compare_any(ls: &Store, lhs: ObjRef, rs: &Store, rhs: ObjRef, " ++
        "cx: &mut CompareContext) -> Ordering") [
      block "if lhs.tag != rhs.tag" [
        "return cx.fail(lhs, rhs, lhs.tag.cmp(&rhs.tag));"],
      block "if !cx.enter(lhs, rhs)" [
        "return Ordering::Equal;"],
      block "match TypeTag::from_ordinal(lhs.tag)" [
        hole "COMPARE_ARMS",
        "None => Ordering::Equal,"]],
    ""],
  all [
    "/// Compares two optional references; null orders first.",
    "pub fn compare_ref(",
    "    ls: &Store,",
    "    lhs: Option<ObjRef>,",
    "    rs: &Store,",
    "    rhs: Option<ObjRef>,",
    "    cx: &mut CompareContext,",
    block ") -> Ordering" [
      block "match (lhs, rhs)" [
        "(Some(l), Some(r)) => compare_any(ls, l, rs, r, cx),",
        "(l, r) => l.is_some().cmp(&r.is_some()),"]],
    ""],
  all [
    "/// Compares two optional lists by length, then element-wise.",
    "///",
    "/// An absent list equals an empty one.",
    "pub fn compare_refs(",
    "    ls: &Store,",
    "    lhs: Option<&[ObjRef]>,",
    "    rs: &Store,",
    "    rhs: Option<&[ObjRef]>,",
    "    cx: &mut CompareContext,",
    block ") -> Ordering" [
      "let l = lhs.unwrap_or(&[]);",
      "let r = rhs.unwrap_or(&[]);",
      block "if l.len() != r.len()" [
        "return l.len().cmp(&r.len());"],
      block "for (&a, &b) in l.iter().zip(r)" [
        "let ord = compare_any(ls, a, rs, b, cx);",
        block "if ord != Ordering::Equal" [
          "return ord;"]],
      "Ordering::Equal"],
    ""],
  all [
    hole "COMPARE_FNS",
    ""]]

variable (b : Blueprint)

/-- The order of a member in two objects. -/
def memberOrder (m : Member) : String :=
  let field := b.field m
  if !m.isReference then s!"l.{field}.cmp(&r.{field})"
  else if m.isMany then
    s!"compare_refs(ls, l.{field}.as_deref(), rs, r.{field}.as_deref(), cx)"
  else s!"compare_ref(ls, l.{field}, rs, r.{field}, cx)"

/-- Compares a member of two objects, which are then known if they differ. -/
def comparison (m : Member) : Code := all [
  s!"let ord = {memberOrder b m};",
  block "if ord != Ordering::Equal" ["return cx.fail(lhs, rhs, ord);"]]

/-- The members of an entity itself that are compared, in order. -/
def compared (level : Entity) : List Member :=
  let (references, scalars) :=
    (level.members.filter fun m => !b.policy.skipsCompare m).partition (·.isReference)
  scalars ++ references

/-- Compares the members of an entity itself. -/
def levelCode (level : Entity) : Code :=
  if (compared b level).isEmpty then []
  else line s!"// {level.name}" ++ (compared b level).flatMap (comparison b)

/-- Compares all members of an entity. -/
def comparisons (e : Entity) : Code := (b.schema.levels e).flatMap (levelCode b)

/-- The function that compares two objects of an entity. -/
def compare (e : Entity) : Code :=
  let store := b.storeField e
  let found := if (comparisons b e).isEmpty then "(Some(_), Some(_))" else "(Some(l), Some(r))"
  all [
    s!"/// Compares two `{e.name}` objects.",
    block (s!"pub fn compare_{b.typeStem e}(ls: &Store, lhs: ObjRef, rs: &Store, rhs: ObjRef, " ++
        "cx: &mut CompareContext) -> Ordering") [
      blockUpTo s!"let {found} = (ls.{store}(lhs), rs.{store}(rhs)) else" [
        s!"let present = ls.{store}(lhs).is_some().cmp(&rs.{store}(rhs).is_some());",
        "return cx.fail(lhs, rhs, present);"] ";",
      comparisons b e,
      "Ordering::Equal"],
    ""]

/-- The text of `compare.rs`. -/
def comparer : Except TemplateError String :=
  b.fillFrame frame "compare.rs" "Structural comparison" [
    ("COMPARE_ARMS", (b.forEach fun e =>
      s!"Some({b.tagPath e}) => compare_{b.typeStem e}(ls, lhs, rs, rhs, cx),").textAt 2),
    ("COMPARE_FNS", (b.forEach (compare b)).text)]

end ObjectModel.Generation.Compare
