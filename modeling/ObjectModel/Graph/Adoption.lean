import ObjectModel.Graph.Access

/-!
# Adoption

An object adopts others: they are its children, and it is their parent. Some
entities are collectors, which also file their children in lists by entity
(`Graph.bucketsFor`). Adopting and releasing a child keeps the parent link, the
list of children and the buckets together.

* `Graph.attachChild`: adopts an object, which leaves its former parent.
* `Graph.detachChild`: releases one.

If a step fails, what was done before it stays done; so these operations tell
the graph in either case (`Graph.Update`).
-/

namespace ObjectModel.Graph

/-- A change of a graph that may fail half-way. -/
abbrev Update := ExceptT GraphError (StateM Graph)

/-- Reads from the graph. -/
def Update.read {α : Type} (f : Graph → Except GraphError α) : Update α := fun g => (f g, g)

/-- Changes the graph, unless the change fails. -/
def Update.apply (f : Graph → Except GraphError Graph) : Update Unit := fun g =>
  match f g with
  | .ok h => (.ok (), h)
  | .error e => (.error e, g)

variable (g : Graph)

/-- The lists of `parent` in which `child` is filed, the root's first. -/
def bucketsFor (parent child : Ref) : Except GraphError (List String) := do
  let e ← g.entity parent
  let entries := (g.schema.levels e).flatMap fun level => g.model.policy.bucketsOf level.name
  let entries := entries.filter fun (entity, _) =>
    (g.schema.entity? entity).any (g.schema.isA child.tag)
  if entries.isEmpty then
    return []
  let members ← g.members parent
  let buckets := (entries.map (·.2)).filter fun bucket =>
    members.any fun m => m.name == bucket && m.isMany
  return buckets.eraseDups

/-- Takes `child` out of one list of `parent`. -/
def unfile (parent child : Ref) (bucket : String) : Update Unit := do
  if let .refs (some items) ← Update.read (·.get parent bucket) then
    let remaining := items.filter (· != child)
    if remaining.length ≠ items.length then
      Update.apply (·.set parent bucket (.refs (some remaining)))

/-- Puts `child` into one list of `parent`, if it is not there. -/
def file (parent child : Ref) (bucket : String) : Update Unit := do
  let items ← Update.read (·.elements parent bucket)
  if child ∉ items then
    Update.apply (·.push parent bucket child)

/-- Releases `child` from `parent`, and tells whether it had been adopted. -/
def detachChild (parent child : Ref) : Update Bool := do
  let _ ← Update.read (·.header child)
  let buckets ← Update.read (·.bucketsFor parent child)
  let adopted := (← Update.read (·.header parent)).children.contains child
  Update.apply (·.updateHeader parent fun h =>
    { h with children := h.children.filter (· != child) })
  buckets.forM (unfile parent child)
  Update.apply (·.updateHeader child fun h =>
    if h.parent = some parent then { h with parent := none } else h)
  return adopted

/-- Adopts `child` under `parent`. -/
def attachChild (parent child : Ref) : Update Unit := do
  let former := (← Update.read (·.header child)).parent
  let buckets ← Update.read (·.bucketsFor parent child)
  if let some p := former then
    if p ≠ parent then
      let _ ← detachChild p child
  Update.apply (·.updateHeader child fun h => { h with parent := some parent })
  Update.apply (·.updateHeader parent fun h =>
    if child ∈ h.children then h else { h with children := h.children ++ [child] })
  buckets.forM (file parent child)

end ObjectModel.Graph
