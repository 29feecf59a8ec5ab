import ObjectModel.Graph.Layout
import ObjectModel.Header

/-!
# Object graphs

A graph holds the objects of a model, by tag and position. Objects are made
one after the other with ids that count up, and are never removed; so a
reference, once it names an object, goes on naming it.

* `Graph.create`, `Graph.createTag`: new objects.
* `Graph.object`: the object that a reference names.
* `Graph.updateHeader`, `Graph.setValues`: changes to an object, which leave
  all others alone.
-/

namespace ObjectModel

/-- An object: its header, and its values by slot. -/
structure Object where
  header : Header
  values : List Value
deriving DecidableEq, Repr

/-- The objects of a model. -/
structure Graph where
  model : Model
  /-- The objects by tag, then by position. -/
  stores : List (List Object)
  /-- The last id that was handed out. -/
  lastId : UInt32
deriving DecidableEq

namespace Graph

/-- The graph of a model without objects. -/
def empty (m : Model) : Graph := ⟨m, m.layouts.map fun _ => [], 0⟩

/-- The graph of a resolved schema under a policy, without objects. -/
def ofResolution (r : Resolution) (policy : PolicyTable) : Except GraphError Graph :=
  empty <$> Model.ofResolution r policy

variable (g : Graph)

/-- The schema of the objects. -/
abbrev schema : Schema := g.model.schema

/-- The entity of an object, by its tag. -/
def entity (r : Ref) : Except GraphError Entity := g.model.entity r.tag

/-- The layout of an object, by its tag. -/
def layout (r : Ref) : Except GraphError Layout := g.model.layout r.tag

/-- The members of an object, by its tag. -/
def members (r : Ref) : Except GraphError (List Member) := Layout.members <$> g.layout r

/-- The object that `r` names, if there is one. -/
def object? (r : Ref) : Option Object := g.stores[r.tag]?.bind (·[r.index]?)

/-- The object that `r` names. -/
def object (r : Ref) : Except GraphError Object :=
  match g.object? r with
  | some o => pure o
  | none => throw (.danglingReference r)

/-- `r` names an object. -/
def contains (r : Ref) : Bool := (g.object? r).isSome

/-- The header of an object. -/
def header (r : Ref) : Except GraphError Header := Object.header <$> g.object r

/-- The number of objects of a tag. -/
def count (tag : Nat) : Nat := (g.stores[tag]?.getD []).length

/-- The number of objects. -/
def size : Nat := g.stores.flatten.length

/-- All objects, in the order of references. -/
def refs : List Ref :=
  g.stores.zipIdx.flatMap fun (store, tag) => (List.range store.length).map (⟨tag, ·⟩)

/-- The graph with another object in the place of `r`. -/
def modify (r : Ref) (f : Object → Object) : Graph :=
  { g with stores := g.stores.modify r.tag (·.modify r.index f) }

/-- The graph with the header of `r` changed. -/
def updateHeader (r : Ref) (f : Header → Header) : Except GraphError Graph := do
  let _ ← g.object r
  return g.modify r fun o => { o with header := f o.header }

/-- The graph with other values in `r`. -/
def setValues (r : Ref) (values : List Value) : Except GraphError Graph := do
  let _ ← g.object r
  return g.modify r fun o => { o with values }

/-- The highest id that there can be. -/
def topId : UInt32 := 4294967295

/-- The id of the next object. Ids do not start again once they have come to
    their end. -/
def nextId : Except GraphError UInt32 :=
  if g.lastId = topId then throw .idsExhausted else pure (g.lastId + 1)

/-- Makes an object of the entity of a tag. -/
def createTag (tag : Nat) : Except GraphError (Ref × Graph) := do
  let e ← g.model.entity tag
  if !e.kind.isConcrete then
    throw (.notInstantiable e.name)
  let l ← g.model.layout tag
  let id ← g.nextId
  return (⟨tag, g.count tag⟩,
    { g with
      stores := g.stores.modify tag (· ++ [⟨{ id }, l.defaults⟩])
      lastId := id })

/-- Makes an object of an entity. -/
def create (entity : String) : Except GraphError (Ref × Graph) :=
  match g.schema.entity? entity with
  | some e => g.createTag e.tag
  | none => throw (.unknownEntity entity)

end Graph

end ObjectModel
