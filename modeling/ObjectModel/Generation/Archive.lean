import ObjectModel.Generation.WireSchema

/-!
# Archives

`archive.rs` saves objects in the layout of the wire schema and restores them.
The members of an object are spread over the structs of its chain; all objects
are made before the first of them is filled, so that references find their
objects.
-/

namespace ObjectModel.Generation.Archive

open Code

/-- The version of the layout. -/
def version : Nat := 1

/-- The fixed text of `archive.rs`. -/
def frame : Code := all [
  all [
    hole "BANNER",
    "use super::model_capnp::\x7bhdm_root, obj_header, obj_index_type\x7d;",
    "use super::store::Store;",
    "use super::types::TypeTag;",
    "use hdmgen_core::\x7bObjRef, ObjectHeader, SymbolTable\x7d;",
    "use std::collections::\x7bBTreeSet, HashMap\x7d;",
    ""],
  all [
    "/// Archive format version written to the root.",
    "pub const VERSION: u32 = <VERSION>;",
    ""],
  all [
    "/// Objects reachable from `roots` through references and parent links, in",
    "/// `(tag, index)` order.",
    "#[must_use]",
    block "pub fn reachable(store: &Store, roots: &[ObjRef]) -> BTreeSet<ObjRef>" [
      "let mut seen = BTreeSet::new();",
      "let mut pending = roots.to_vec();",
      block "while let Some(obj) = pending.pop()" [
        blockUpTo "let Some(header) = store.header(obj) else" [
          "continue;"] ";",
        block "if !seen.insert(obj)" [
          "continue;"],
        "pending.extend(header.parent);",
        "pending.extend(store.references(obj).into_iter().map(|(_, r)| r));"],
      "seen"],
    ""],
  all [
    "/// Dense per-type ids and the symbol table of one save.",
    block "struct SaveState" [
      "ids: HashMap<ObjRef, u64>,",
      "by_type: HashMap<u32, Vec<ObjRef>>,",
      "symbols: SymbolTable,"],
    ""],
  all [
    block "impl SaveState" [
      block "fn new(store: &Store, roots: &[ObjRef]) -> Self" [
        "let mut ids = HashMap::new();",
        "let mut by_type: HashMap<u32, Vec<ObjRef>> = HashMap::new();",
        block "for obj in reachable(store, roots)" [
          "let objects = by_type.entry(obj.tag).or_default();",
          "objects.push(obj);",
          "ids.insert(obj, objects.len() as u64);"],
        block "Self" [
          "ids,",
          "by_type,",
          "symbols: SymbolTable::new(),"]],
      "",
      block "fn objects(&self, tag: TypeTag) -> Vec<ObjRef>" [
        "self.by_type.get(&tag.ordinal()).cloned().unwrap_or_default()"],
      "",
      block "fn symbol(&mut self, text: &str) -> u32" [
        "self.symbols.intern(text).0"],
      "",
      block "fn put_ref(&self, mut builder: obj_index_type::Builder<'_>, value: Option<ObjRef>)" [
        block "if let Some(obj) = value" [
          block "if let Some(&id) = self.ids.get(&obj)" [
            "builder.set_index(id);",
            "builder.set_type(obj.tag);"]]],
      "",
      block ("fn put_header(&mut self, mut builder: obj_header::Builder<'_>, " ++
          "header: &ObjectHeader)") [
        "builder.set_id(u64::from(header.id));",
        "self.put_ref(builder.reborrow().init_parent(), header.parent);",
        "builder.set_file(self.symbol(&header.file));",
        "builder.set_start_line(header.start_line);",
        "builder.set_end_line(header.end_line);",
        "builder.set_start_column(header.start_column);",
        "builder.set_end_column(header.end_column);"]],
    ""],
  all [
    block "fn get_ref(reader: obj_index_type::Reader<'_>) -> Option<ObjRef>" [
      "let index = u32::try_from(reader.get_index()).ok()?;",
      "ObjRef::from_wire(reader.get_type(), index)"],
    ""],
  all [
    "fn get_header(",
    "    header: &mut ObjectHeader,",
    "    reader: obj_header::Reader<'_>,",
    "    symbol: &dyn Fn(u32) -> String,",
    block ") -> capnp::Result<()>" [
      "header.id = u32::try_from(reader.get_id()).unwrap_or_default();",
      "header.parent = get_ref(reader.get_parent()?);",
      "header.file = symbol(reader.get_file());",
      "header.start_line = reader.get_start_line();",
      "header.end_line = reader.get_end_line();",
      "header.start_column = reader.get_start_column();",
      "header.end_column = reader.get_end_column();",
      "Ok(())"],
    ""],
  all [
    "/// Writes every object reachable from `roots` into `root`.",
    "///",
    "/// Objects get dense one-based ids per type in `(tag, index)` order; zero",
    "/// encodes a null reference.",
    block "pub fn save(store: &Store, roots: &[ObjRef], mut root: hdm_root::Builder<'_>)" [
      "let mut state = SaveState::new(store, roots);",
      "root.set_version(VERSION);",
      block "" [
        "let mut list = root.reborrow().init_roots(roots.len() as u32);",
        block "for (i, &obj) in roots.iter().enumerate()" [
          "state.put_ref(list.reborrow().get(i as u32), Some(obj));"]],
      hole "SAVE_BLOCKS",
      "let mut symbols = root.init_symbols(state.symbols.len() as u32);",
      block "for (id, text) in state.symbols.iter()" [
        "symbols.set(id.0 - 1, text.into());"]],
    ""],
  all [
    "/// Rebuilds a store from `root`, returning it with the restored roots.",
    "///",
    "/// Storage for every type is allocated before any field is read, so each",
    "/// reference resolves whether it points forward or backward.",
    "///",
    "/// # Errors",
    "/// Returns the capnp error of the first malformed segment.",
    block "pub fn restore(root: hdm_root::Reader<'_>) -> capnp::Result<(Store, Vec<ObjRef>)>" [
      "let mut store = Store::new();",
      "let mut symbols = Vec::new();",
      block "for text in root.get_symbols()?.iter()" [
        "symbols.push(text?.to_string()?);"],
      blockUpTo "let symbol = |id: u32| -> String" [
        block "match id" [
          "0 => String::new(),",
          "id => symbols.get(id as usize - 1).cloned().unwrap_or_default(),"]] ";",
      "",
      hole "ALLOCATE",
      hole "RESTORE_BLOCKS",
      "let roots = root.get_roots()?.iter().filter_map(get_ref).collect();",
      "Ok((store, roots))"]]]

variable (b : Blueprint)

/-- What the functions on the list of objects of an entity are made of. -/
def factoryStem (e : Entity) : String := WireSchema.accessorStem (WireSchema.factoryName b e)

/-- What the functions on the saved field of a member are made of. -/
def wireStem (m : Member) : String := WireSchema.accessorStem (WireSchema.fieldName b m)

/-- Saves a member of an object. -/
def saveMember (m : Member) : Code :=
  let field := b.field m
  let wire := wireStem b m
  match m.scalarKind? with
  | some kind =>
    if kind.isSymbol then s!"builder.set_{wire}(state.symbol(&object.{field}));"
    else s!"builder.set_{wire}(object.{field});"
  | none =>
    if m.isMany then block s!"if let Some(items) = &object.{field}" [
      s!"let mut refs = builder.reborrow().init_{wire}(items.len() as u32);",
      block "for (k, &item) in items.iter().enumerate()" [
        "state.put_ref(refs.reborrow().get(k as u32), Some(item));"]]
    else s!"state.put_ref(builder.reborrow().init_{wire}(), object.{field});"

/-- Saves the members that an entity adds, in its part of the struct. -/
def saveLevel (part : String) (level : Entity) : Code := all [
  s!"// {level.name}",
  s!"let mut builder = {part};",
  level.members.flatMap (saveMember b)]

/-- Restores a member of an object. -/
def restoreMember (m : Member) : Code :=
  let field := b.field m
  let wire := wireStem b m
  match m.scalarKind? with
  | some kind =>
    if kind.isSymbol then s!"object.{field} = symbol(reader.get_{wire}());"
    else s!"object.{field} = reader.get_{wire}();"
  | none =>
    if m.isMany then choice s!"object.{field} = if reader.has_{wire}()" [
      s!"Some(reader.get_{wire}()?.iter().filter_map(get_ref).collect())"] ["None"] ";"
    else s!"object.{field} = get_ref(reader.get_{wire}()?);"

/-- Restores the members that an entity adds, having found its part of the
    struct. -/
def restoreLevel (find : Code) (level : Entity) : Code := all [
  s!"// {level.name}",
  find,
  level.members.flatMap (restoreMember b)]

/-- Code for the entity itself, which comes first in its chain, and for each
    of its ancestors. -/
def alongChain (e : Entity) (own inherited : Entity → Code) : Code :=
  match b.chain e with
  | [] => []
  | first :: ancestors => own first ++ ancestors.flatMap inherited

/-- Saves the objects of an entity. -/
def save (e : Entity) : Code := block "" [
  s!"let objects = state.objects({b.tagPath e});",
  s!"let mut list = root.reborrow().init_{factoryStem b e}(objects.len() as u32);",
  block "for (i, obj) in objects.into_iter().enumerate()" [
    blockUpTo s!"let Some(object) = store.{b.storeField e}(obj) else" ["continue;"] ";",
    "let builder = list.reborrow().get(i as u32);",
    alongChain b e (saveLevel b "builder") (saveLevel b "builder.init_base()"),
    "state.put_header(builder.init_base(), &object.header);"]]

/-- Makes the objects of an entity. -/
def allocate (e : Entity) : Code :=
  block s!"for _ in 0..root.get_{factoryStem b e}()?.len()" [s!"store.make_{b.typeStem e}();"]

/-- Fills the objects of an entity. -/
def restore (e : Entity) : Code :=
  block s!"for (i, reader) in root.get_{factoryStem b e}()?.iter().enumerate()" [
    s!"let obj = ObjRef::new({b.tagPath e}.ordinal(), i as u32);",
    blockUpTo s!"let Some(object) = store.{b.typeStem e}_mut(obj) else" ["continue;"] ";",
    alongChain b e (restoreLevel b []) (restoreLevel b "let reader = reader.get_base()?;"),
    "get_header(&mut object.header, reader.get_base()?, &symbol)?;"]

/-- The text of `archive.rs`. -/
def archive : Except TemplateError String :=
  b.fillFrame frame "archive.rs" "Archive adapters" [
    ("VERSION", toString version),
    ("SAVE_BLOCKS", (b.forEach (save b)).textAt 1),
    ("ALLOCATE", (b.forEach (allocate b)).textAt 1),
    ("RESTORE_BLOCKS", (b.forEach (restore b)).textAt 1)]

end ObjectModel.Generation.Archive
