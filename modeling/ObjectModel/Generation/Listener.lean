import ObjectModel.Generation.Blueprint

/-!
# Listeners

`listener.rs` walks the objects of a store and calls a listener whenever an
object or a list is entered or left. `listener_tracer.rs` has a listener that
writes down each call.
-/

namespace ObjectModel.Generation.Listener

open Code

/-- The moments at which a listener is called: the names in code, and what is
    then done to the object. -/
def moments : List (String × String) := [("enter", "entered"), ("leave", "left")]

/-- The fixed text of `listener.rs`. -/
def frame : Code := all [
  hole "BANNER",
  "use super::objects::\x7b<CLASSES>\x7d;",
  "use super::store::Store;",
  "use super::types::TypeTag;",
  "use hdmgen_core::\x7bObjRef, VisitedSet\x7d;",
  "",
  "/// Push-style traversal callbacks.",
  "///",
  "/// Every hook has an empty default body; implementors override the ones they",
  "/// need. `relation` names the member through which the object was reached,",
  "/// and is `None` for the traversal root.",
  "#[allow(unused_variables)]",
  block "pub trait Listener" [
    hole "HOOKS",
    "/// Called before the elements of a collection are visited.",
    line ("fn enter_collection(&mut self, store: &Store, owner: ObjRef, " ++
      "relation: &'static str, items: &[ObjRef]) \x7b\x7d"),
    "",
    "/// Called after the elements of a collection were visited.",
    line ("fn leave_collection(&mut self, store: &Store, owner: ObjRef, " ++
      "relation: &'static str, items: &[ObjRef]) \x7b\x7d")],
  "",
  "/// Walks an object graph, dispatching to a [`Listener`].",
  "///",
  "/// Each object and each `(owner, relation)` collection is entered at most",
  "/// once per traversal, so cyclic graphs terminate.",
  block "pub struct Traversal<'s, L: Listener>" [
    "store: &'s Store,",
    "listener: L,",
    "visited: VisitedSet,"],
  "",
  block "impl<'s, L: Listener> Traversal<'s, L>" [
    "/// Creates a traversal over `store`.",
    block "pub fn new(store: &'s Store, listener: L) -> Self" [
      block "Self" [
        "store,",
        "listener,",
        "visited: VisitedSet::new(),"]],
    "",
    "/// Visits `root` and everything reachable from it.",
    block "pub fn listen(&mut self, root: ObjRef)" [
      "self.visit(root, None);"],
    "",
    "/// Returns the listener.",
    block "pub fn listener(&self) -> &L" [
      "&self.listener"],
    "",
    "/// Returns the listener mutably.",
    block "pub fn listener_mut(&mut self) -> &mut L" [
      "&mut self.listener"],
    "",
    "/// Consumes the traversal, returning the listener.",
    block "pub fn into_listener(self) -> L" [
      "self.listener"],
    "",
    "/// Returns true if `obj` was visited.",
    block "pub fn visited(&self, obj: ObjRef) -> bool" [
      "self.visited.contains(obj)"],
    "",
    block "fn visit(&mut self, obj: ObjRef, relation: Option<&'static str>)" [
      block "if !self.visited.insert(obj)" [
        "return;"],
      block "match TypeTag::from_ordinal(obj.tag)" [
        hole "VISIT_ARMS",
        "None => \x7b\x7d"]],
    "",
    block ("fn visit_collection(&mut self, owner: ObjRef, " ++
        "relation: &'static str, items: &[ObjRef])") [
      block "if !self.visited.insert_collection(owner, relation)" [
        "return;"],
      "let store = self.store;",
      "self.listener.enter_collection(store, owner, relation, items);",
      block "for &item in items" [
        "self.visit(item, Some(relation));"],
      "self.listener.leave_collection(store, owner, relation, items);"],
    "",
    hole "VISIT_FNS"]]

/-- The fixed text of `listener_tracer.rs`. -/
def tracerFrame : Code := all [
  hole "BANNER",
  "use super::listener::Listener;",
  "use super::objects::\x7b<CLASSES>\x7d;",
  "use super::store::Store;",
  "use hdmgen_core::\x7bObjRef, ObjectHeader\x7d;",
  "",
  "/// [`Listener`] that records every hook call as one indented line.",
  "///",
  "/// Lines read `enter_module: [1,1:20,10]`, the bracket holding the source",
  "/// span. Lines between an enter and its leave are nested one level deeper.",
  "#[derive(Debug, Clone, Default)]",
  block "pub struct ListenerTracer" [
    "out: String,",
    "depth: usize,"],
  "",
  block "impl ListenerTracer" [
    "/// Creates an empty tracer.",
    block "pub fn new() -> Self" [
      "Self::default()"],
    "",
    "/// Trace written so far.",
    block "pub fn output(&self) -> &str" [
      "&self.out"],
    "",
    "/// Consumes the tracer, returning the trace.",
    block "pub fn into_output(self) -> String" [
      "self.out"],
    "",
    block "fn enter(&mut self, hook: &str, header: Option<&ObjectHeader>)" [
      "self.line(hook, header);",
      "self.depth += 1;"],
    "",
    block "fn leave(&mut self, hook: &str, header: Option<&ObjectHeader>)" [
      "self.depth = self.depth.saturating_sub(1);",
      "self.line(hook, header);"],
    "",
    block "fn line(&mut self, hook: &str, header: Option<&ObjectHeader>)" [
      "let indent = self.depth * 2;",
      "self.out.push_str(&format!(\"\x7b:indent$\x7d\x7bhook\x7d: \", \"\"));",
      block "if let Some(h) = header" [
        "self.out.push_str(&format!(",
        "    \"[\x7b\x7d,\x7b\x7d:\x7b\x7d,\x7b\x7d]\",",
        "    h.start_line, h.start_column, h.end_line, h.end_column",
        "));"],
      "self.out.push('\\n');"]],
  "",
  block "impl Listener for ListenerTracer" [
    hole "TRACER_HOOKS",
    block ("fn enter_collection(&mut self, store: &Store, owner: ObjRef, " ++
        "relation: &'static str, _items: &[ObjRef])") [
      "self.enter(&format!(\"enter_collection(\x7brelation\x7d)\"), store.header(owner));"],
    "",
    block ("fn leave_collection(&mut self, store: &Store, owner: ObjRef, " ++
        "relation: &'static str, _items: &[ObjRef])") [
      "self.leave(&format!(\"leave_collection(\x7brelation\x7d)\"), store.header(owner));"]]]

variable (b : Blueprint)

/-- The functions of a listener that are called for objects of an entity. -/
def hooks (e : Entity) : Code := moments.flatMap fun (moment, participle) => all [
  s!"/// Called when a `{e.name}` is {participle}.",
  line (s!"fn {moment}_{b.typeStem e}(&mut self, store: &Store, obj: ObjRef, object: " ++
    s!"&{b.className e}, relation: Option<&'static str>) \x7b\x7d"),
  ""]

/-- Follows a member of an object. -/
def follow (m : Member) : Code :=
  if m.isMany then block s!"if let Some(items) = object.{b.field m}.as_deref()" [
    s!"self.visit_collection(obj, \"{m.relation}\", items);"]
  else block s!"if let Some(child) = object.{b.field m}" [
    s!"self.visit(child, Some(\"{m.relation}\"));"]

/-- The function that visits an object of an entity. -/
def visit (e : Entity) : Code := all [
  block (s!"fn {b.visitor e}" ++
      "(&mut self, obj: ObjRef, relation: Option<&'static str>)") [
    "let store = self.store;",
    blockUpTo s!"let Some(object) = store.{b.storeField e}(obj) else" ["return;"] ";",
    s!"self.listener.enter_{b.typeStem e}(store, obj, object, relation);",
    (b.walked e).flatMap (follow b),
    s!"self.listener.leave_{b.typeStem e}(store, obj, object, relation);"],
  ""]

/-- The text of `listener.rs`. -/
def listener : Except TemplateError String :=
  b.fillFrame frame "listener.rs" "Push-style traversal" [
    ("CLASSES", b.classList),
    ("HOOKS", (b.forEach (hooks b)).textAt 1),
    ("VISIT_ARMS", (b.forEach fun e =>
      s!"Some({b.tagPath e}) => self.{b.visitor e}(obj, relation),").textAt 3),
    ("VISIT_FNS", (b.forEach (visit b)).textAt 1)]

/-- The functions that write down the calls for objects of an entity. -/
def tracerHooks (e : Entity) : Code := moments.flatMap fun (moment, _) => all [
  block (s!"fn {moment}_{b.typeStem e}(&mut self, _store: &Store, _obj: ObjRef, object: " ++
      s!"&{b.className e}, _relation: Option<&'static str>)") [
    s!"self.{moment}(\"{moment}_{b.typeStem e}\", Some(&object.header));"],
  ""]

/-- The text of `listener_tracer.rs`. -/
def tracer : Except TemplateError String :=
  b.fillFrame tracerFrame "listener_tracer.rs" "Tracing listener" [
    ("CLASSES", b.classList),
    ("TRACER_HOOKS", (b.forEach (tracerHooks b)).textAt 1)]

end ObjectModel.Generation.Listener
