import ObjectModel.Generation.Blueprint

/-!
# Cloning

`clone.rs` copies objects as the policy says. There is a function for each
concrete entity, and a second one that copies member by member where the first
has something special to do: hand the object over to a function written by
hand, or look for a clone bound to the same name.

* `Clone.Step`: what is done with a member.
* `Clone.step`: what the policy says of a member.
-/

namespace ObjectModel.Generation.Clone

open Code

/-- What is done with the references in a field of a copy. -/
inductive Step
  /-- Their objects are cloned. -/
  | deep (field : String) (many : Bool)
  /-- They stay. -/
  | share (member : String)
  /-- Their objects are cloned if type specifications are to be made unique. -/
  | deepIfUnique (field : String) (many : Bool)
  /-- They are rebound by the text in another field of the copy. -/
  | rebind (field key : String) (many : Bool)
  /-- They are rebound by a text member of the objects referred to. -/
  | rebindByTarget (field key : String) (many : Bool)
deriving DecidableEq, Repr

/-- Clones the objects in a field. -/
def deepCode (field : String) (many : Bool) : Code :=
  if many then s!"object.{field} = self.clone_list(object.{field}.as_deref(), clone);"
  else s!"object.{field} = self.clone_ref(object.{field}, clone);"

/-- The code of a step. -/
def Step.code : Step → Code
  | deep field many => deepCode field many
  | share member => s!"// {member}: shared with the source"
  | deepIfUnique field many => block "if self.cx.uniquify_typespecs()" [deepCode field many]
  | rebind field key false => s!"object.{field} = self.rebind(object.{field}, &object.{key});"
  | rebind field key true => all [
      s!"let key = object.{key}.clone();",
      blockUpTo s!"object.{field} = object.{field}.take().map(|items|" [
        "items",
        "    .into_iter()",
        "    .filter_map(|item| self.rebind(Some(item), &key))",
        "    .collect()"] ");"]
  | rebindByTarget field key false =>
    s!"object.{field} = self.rebind_target(object.{field}, \"{key}\");"
  | rebindByTarget field key true =>
    s!"object.{field} = self.rebind_list(object.{field}.as_deref(), \"{key}\");"

/-- The fixed text of `clone.rs`. -/
def frame : Code := all [
  hole "BANNER",
  "use super::store::Store;",
  "use super::types::TypeTag;",
  "use hdmgen_core::\x7bElaborationContext, ObjRef\x7d;",
  "use std::collections::HashMap;",
  "",
  "/// Deep copier driven by an elaboration context.",
  "///",
  "/// Every source object is cloned at most once per `Cloner`; later requests",
  "/// for the same source return the first clone, so shared and cyclic",
  "/// structure is preserved.",
  block "pub struct Cloner<'s, C: ElaborationContext>" [
    "store: &'s mut Store,",
    "cx: &'s mut C,",
    "memo: HashMap<ObjRef, ObjRef>,"],
  "",
  block "impl<'s, C: ElaborationContext> Cloner<'s, C>" [
    all [
      "/// Creates a cloner allocating into `store`.",
      block "pub fn new(store: &'s mut Store, cx: &'s mut C) -> Self" [
        block "Self" [
          "store,",
          "cx,",
          "memo: HashMap::new(),"]],
      ""],
    all [
      "/// The store clones are allocated in.",
      block "pub fn store(&mut self) -> &mut Store" [
        "self.store"],
      ""],
    all [
      "/// The elaboration context.",
      block "pub fn context(&mut self) -> &mut C" [
        "self.cx"],
      ""],
    all [
      "/// Returns the clone already made for `source`, if any.",
      block "pub fn cloned(&self, source: ObjRef) -> Option<ObjRef>" [
        "self.memo.get(&source).copied()"],
      ""],
    all [
      "/// Records `clone` as the copy of `source`.",
      block "pub fn remember(&mut self, source: ObjRef, clone: ObjRef)" [
        "self.memo.insert(source, clone);"],
      ""],
    all [
      "/// Clones any object under `parent`.",
      "///",
      "/// Returns `None` if `obj` does not name a live object.",
      block "pub fn clone_any(&mut self, obj: ObjRef, parent: Option<ObjRef>) -> Option<ObjRef>" [
        block "if let Some(done) = self.cloned(obj)" [
          "return Some(done);"],
        block "match TypeTag::from_ordinal(obj.tag)?" [
          hole "CLONE_ARMS"]],
      ""],
    all [
      "/// Clones an optional reference under `parent`.",
      block "pub fn clone_ref(&mut self, value: Option<ObjRef>, parent: ObjRef) -> Option<ObjRef>" [
        "value.and_then(|obj| self.clone_any(obj, Some(parent)))"],
      ""],
    all [
      "/// Clones every element of an optional list under `parent`.",
      block ("pub fn clone_list(&mut self, value: Option<&[ObjRef]>, parent: ObjRef) " ++
          "-> Option<Vec<ObjRef>>") [
        "let items = value?;",
        "let mut clones = Vec::with_capacity(items.len());",
        block "for &item in items" [
          block "if let Some(clone) = self.clone_any(item, Some(parent))" [
            "clones.push(clone);"]],
        "Some(clones)"],
      ""],
    all [
      "/// Rebinds through the elaboration context, keeping `value` on a miss.",
      block "pub fn rebind(&self, value: Option<ObjRef>, key: &str) -> Option<ObjRef>" [
        "let original = value?;",
        "Some(self.cx.bind_any(key).unwrap_or(original))"],
      ""],
    all [
      "/// Rebinds using a text member of the referenced object as the key.",
      block "pub fn rebind_target(&self, value: Option<ObjRef>, member: &str) -> Option<ObjRef>" [
        "let original = value?;",
        "let key = self.store.text_field(original, member).map(str::to_string);",
        "Some(key.and_then(|k| self.cx.bind_any(&k)).unwrap_or(original))"],
      ""],
    all [
      "/// Rebinds every element of an optional list by its own text member.",
      block ("pub fn rebind_list(&self, value: Option<&[ObjRef]>, member: &str) " ++
          "-> Option<Vec<ObjRef>>") [
        "let items = value?;",
        "Some(",
        "    items",
        "        .iter()",
        "        .filter_map(|&item| self.rebind_target(Some(item), member))",
        "        .collect(),",
        ")"],
      ""],
    hole "CLONE_FNS"]]

variable (b : Blueprint)

/-- The text member of an entity that is read as the key of a rebinding. -/
def ownKey? (e : Entity) (key : String) : Option Member :=
  (b.schema.findMember? e key).bind fun om => if om.2.isText then some om.2 else none

/-- What is done with a member of objects of `e`. Where the key is to be read
    from the copy but is no text in it, it is read from the objects referred
    to. -/
def step (e : Entity) (m : Member) : Step :=
  match b.policy.memberCloneOf (b.chain e) m with
  | .deep => .deep (b.field m) m.isMany
  | .alias => .share m.name
  | .uniquify => .deepIfUnique (b.field m) m.isMany
  | .rebind key .target => .rebindByTarget (b.field m) key m.isMany
  | .rebind key .referrer =>
    match ownKey? b e key with
    | some k => .rebind (b.field m) (b.field k) m.isMany
    | none => .rebindByTarget (b.field m) key m.isMany

/-- Objects of the entity are scopes: they file what they adopt. -/
def isScope (e : Entity) : Bool := (b.chain e).any fun l => !(b.policy.bucketsOf l.name).isEmpty

/-- Code for scopes only. -/
def ifScope (e : Entity) (code : Code) : Code := if isScope b e then code else []

/-- Copies an object of an entity member by member. -/
def memberwise (e : Entity) : Code := all [
  s!"let mut object = self.store.{b.storeField e}(obj)?.clone();",
  s!"let clone = self.store.make_{b.typeStem e}();",
  "self.remember(obj, clone);",
  "object.header.id = self.store.header(clone).map_or(0, |h| h.id);",
  "object.header.parent = parent;",
  "let children = std::mem::take(&mut object.header.children);",
  ifScope b e "self.cx.enter_scope(clone);",
  (b.references e).flatMap fun m => (step b e m).code,
  "object.header.children = children",
  "    .into_iter()",
  "    .filter_map(|child| self.clone_any(child, Some(clone)))",
  "    .collect();",
  ifScope b e "self.cx.leave_scope(clone);",
  s!"*self.store.{b.typeStem e}_mut(clone)? = object;",
  "Some(clone)"]

/-- The name of the functions on a table of bindings. -/
def bindingName : BindingKind → String
  | .net => "net"
  | .param => "param"

/-- Looks for a clone bound to the text in `name` before an object is copied. -/
def dedup (e : Entity) (kind : BindingKind) (name : Member) : Code := all [
  s!"let name = self.store.{b.storeField e}(obj)?.{b.field name}.clone();",
  block s!"if let Some(existing) = self.cx.bind_{bindingName kind}(&name)" [
    "self.remember(obj, existing);",
    "return Some(existing);"],
  s!"let clone = self.generic_{b.typeStem e}(obj, parent)?;",
  s!"self.cx.record_{bindingName kind}(&name, clone);",
  "Some(clone)"]

/-- A function that clones an object of an entity. -/
def method (e : Entity) (comment stem : String) (body : Code) : Method where
  comment := comment
  name := s!"{stem}_{b.typeStem e}"
  signature := "(&mut self, obj: ObjRef, parent: Option<ObjRef>) -> Option<ObjRef>"
  body := [body]

/-- What is special about cloning an object of an entity. -/
def special? (e : Entity) : Option Code :=
  match b.policy.entityCloneOf (b.chain e) with
  | .generic => none
  | .custom kind => some s!"super::custom_clone::{kind.name}(self, obj, parent)"
  | .dedupByName kind =>
    match b.nameMember? e with
    | some name => some (dedup b e kind name)
    | none => some s!"self.generic_{b.typeStem e}(obj, parent)"

/-- The functions that clone objects of an entity. -/
def methods (e : Entity) : List Method :=
  let comment := s!"Clones a `{e.name}`."
  match special? b e with
  | none => [method b e comment "clone" (memberwise b e)]
  | some body => [
      method b e comment "clone" body,
      method b e s!"Member-wise clone of a `{e.name}`, bypassing its special handling." "generic"
        (memberwise b e)]

/-- Some concrete entity is cloned by a function written by hand. -/
def delegates : Bool := b.concrete.any fun e =>
  match b.policy.entityCloneOf (b.chain e) with
  | .custom _ => true
  | _ => false

/-- The text of `clone.rs`. -/
def clone : Except TemplateError String :=
  b.fillFrame frame "clone.rs" "Deep clone" [
    ("CLONE_ARMS", (b.forEach fun e =>
      s!"{b.tagPath e} => self.clone_{b.typeStem e}(obj, parent),").textAt 3),
    ("CLONE_FNS", (b.forEach fun e => (methods b e).flatMap (·.code)).textAt 1)]

end ObjectModel.Generation.Clone
