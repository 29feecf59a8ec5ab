import ObjectModel.Generation.Blueprint

/-!
# Listeners over handles

`handle_listener.rs` walks a design that is kept elsewhere and reached through
handles: it asks for what each relation holds instead of reading fields. It
follows the same members as the walk of a store.
-/

namespace ObjectModel.Generation.HandleListener

open Code

/-- The fixed text of `handle_listener.rs`. -/
def frame : Code := all [
  hole "BANNER",
  "use super::types::TypeTag;",
  "use hdmgen_core::\x7bHandleProtocol, ObjRef, VisitedSet\x7d;",
  "",
  "/// Pull-style traversal callbacks over a handle protocol.",
  "///",
  "/// Every hook has an empty default body.",
  "#[allow(unused_variables)]",
  block "pub trait HandleListener<P: HandleProtocol>" [
    hole "HOOKS",
    "/// Called before the elements of a collection are visited.",
    line ("fn enter_collection(&mut self, protocol: &P, owner: &P::Handle, " ++
      "relation: &'static str) \x7b\x7d"),
    "",
    "/// Called after the elements of a collection were visited.",
    line ("fn leave_collection(&mut self, protocol: &P, owner: &P::Handle, " ++
      "relation: &'static str) \x7b\x7d")],
  "",
  "/// Walks a design through [`HandleProtocol`], dispatching to a",
  "/// [`HandleListener`].",
  "///",
  "/// Every handle obtained from the protocol is released once visited.",
  block "pub struct HandleTraversal<'p, P: HandleProtocol, L: HandleListener<P>>" [
    "protocol: &'p P,",
    "listener: L,",
    "visited: VisitedSet,"],
  "",
  block "impl<'p, P: HandleProtocol, L: HandleListener<P>> HandleTraversal<'p, P, L>" [
    "/// Creates a traversal over `protocol`.",
    block "pub fn new(protocol: &'p P, listener: L) -> Self" [
      block "Self" [
        "protocol,",
        "listener,",
        "visited: VisitedSet::new(),"]],
    "",
    "/// Visits the object behind `root` and everything reachable from it.",
    block "pub fn listen(&mut self, root: P::Handle)" [
      "self.visit(root);"],
    "",
    "/// Returns the listener.",
    block "pub fn listener(&self) -> &L" [
      "&self.listener"],
    "",
    "/// Consumes the traversal, returning the listener.",
    block "pub fn into_listener(self) -> L" [
      "self.listener"],
    "",
    block "fn visit(&mut self, handle: P::Handle)" [
      "let protocol = self.protocol;",
      block "if let Some(obj) = protocol.object(&handle)" [
        block "if self.visited.insert(obj)" [
          block "match TypeTag::from_ordinal(obj.tag)" [
            hole "VISIT_ARMS",
            "None => \x7b\x7d"]]],
      "protocol.release(handle);"],
    "",
    block "fn visit_single(&mut self, owner: &P::Handle, relation: &'static str)" [
      block "if let Some(child) = self.protocol.handle(relation, owner)" [
        "self.visit(child);"]],
    "",
    block "fn visit_collection(&mut self, obj: ObjRef, owner: &P::Handle, relation: &'static str)" [
      "let protocol = self.protocol;",
      blockUpTo "let Some(mut iterator) = protocol.iterate(relation, owner) else" [
        "return;"] ";",
      block "if !self.visited.insert_collection(obj, relation)" [
        "return;"],
      "self.listener.enter_collection(protocol, owner, relation);",
      block "while let Some(item) = protocol.scan(&mut iterator)" [
        "self.visit(item);"],
      "self.listener.leave_collection(protocol, owner, relation);"],
    "",
    hole "VISIT_FNS"]]

variable (b : Blueprint)

/-- The function of a listener that is called when an object of an entity is
    entered or left. -/
def hook (e : Entity) (moment participle : String) : Code := all [
  s!"/// Called when a `{e.name}` handle is {participle}.",
  s!"fn {moment}_{b.typeStem e}(&mut self, protocol: &P, handle: &P::Handle) \x7b\x7d",
  ""]

/-- Follows a member of an object. -/
def follow (m : Member) : Code :=
  if m.isMany then s!"self.visit_collection(obj, handle, \"{m.relation}\");"
  else s!"self.visit_single(handle, \"{m.relation}\");"

/-- The function that visits an object of an entity. -/
def visit (e : Entity) : Code :=
  let obj := if (b.walked e).any (·.isMany) then "obj" else "_obj"
  all [
    block s!"fn {b.visitor e}(&mut self, {obj}: ObjRef, handle: &P::Handle)" [
      "let protocol = self.protocol;",
      s!"self.listener.enter_{b.typeStem e}(protocol, handle);",
      (b.walked e).flatMap follow,
      s!"self.listener.leave_{b.typeStem e}(protocol, handle);"],
    ""]

/-- The text of `handle_listener.rs`. -/
def listener : Except TemplateError String :=
  b.fillFrame frame "handle_listener.rs" "Handle-protocol traversal" [
    ("HOOKS", (b.forEach fun e =>
      hook b e "enter" "entered" ++ hook b e "leave" "left").textAt 1),
    ("VISIT_ARMS", (b.forEach fun e =>
      s!"Some({b.tagPath e}) => self.{b.visitor e}(obj, &handle),").textAt 5),
    ("VISIT_FNS", (b.forEach (visit b)).textAt 1)]

end ObjectModel.Generation.HandleListener
