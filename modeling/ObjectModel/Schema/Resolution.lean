import ObjectModel.Schema.Error
import ObjectModel.Schema.Hierarchy
import ObjectModel.SortedMap

/-!
# Resolved schemas

A schema whose chains are complete and whose groups are spelt out: the closure
of a group is the set of concrete entities that it takes in, directly or
through other groups. References of a member may point to objects of its
target tags.

* `RawSchema.closures`: the closures of the groups. A schema that was put
  together by hand may lack a base, have tags that are no places, or groups
  that take in each other.
* `Resolution.ofSchema`: resolves a schema.
* `Resolution.closure`, `Resolution.targetTags`, `Resolution.groupsContaining`:
  the views on groups.
-/

namespace ObjectModel

namespace RawSchema

variable (s : RawSchema)

/-- The entity of that name, or an error. -/
def entity (name : String) : Except SchemaError Entity :=
  match s.entity? name with
  | some e => pure e
  | none => throw (.unknownEntity name)

/-- The names of the concrete entities that the group `name`, reached along
    `path`, takes in. The path never repeats a group, so its length bounds the
    recursion. -/
def expandGroup : Nat → List String → String → Except SchemaError (List String)
  | 0, _, _ => pure []
  | n + 1, path, name =>
    if name ∈ path then throw (.groupCycle (path ++ [name]))
    else match s.group? name with
      | none => throw (.unknownGroup name)
      | some g => do
        let parts ← g.refs.mapM fun
          | .entity name => do
            let e ← s.entity name
            return if e.kind.isConcrete then [e.name] else []
          | .family name => do
            let e ← s.entity name
            return (s.isATags e).filterMap fun tag => (s.entityAt? tag).map (·.name)
          | .group inner => expandGroup n (path ++ [name]) inner
        return parts.flatten

/-- The closure of a group. -/
def expand (name : String) : Except SchemaError (SortedSet String) := do
  return .ofList (← s.expandGroup (s.groups.length + 1) [] name)

/-- The closures of all groups. Chains are kept by the tags of their entities, which have
    to be places in the schema. -/
def closures : Except SchemaError (SortedMap String (SortedSet String)) := do
  s.entities.forM fun e =>
    match s.missingBase? e with
    | some base => throw (.unknownEntity base)
    | none => pure ()
  s.entities.forM fun e =>
    if e.tag < s.entities.length then pure () else throw (.misplacedEntity e.name)
  return .ofList (← s.groups.mapM fun g => return (g.name, ← s.expand g.name))

end RawSchema

/-- A schema with the closures of its groups. -/
structure Resolution where
  schema : Schema
  /-- The concrete entities in each group, by name. -/
  closures : SortedMap String (SortedSet String)
deriving DecidableEq

namespace Resolution

/-- Resolves a schema. -/
def ofSchema (s : Schema) : Except SchemaError Resolution :=
  return ⟨s, ← s.closures⟩

variable (r : Resolution)

/-- The concrete entities in a group. -/
def closure (group : String) : Except SchemaError (List String) :=
  match r.closures.get? group with
  | some names => pure names.keys
  | none => throw (.unknownGroup group)

/-- The tags that references of a member may have, ascending. -/
def targetTags (m : Member) : Except SchemaError (List Nat) :=
  match m.content with
  | .scalar _ => pure []
  | .object name _ => return r.schema.isATags (← r.schema.entity name)
  | .union name _ => do
    let tags ← (← r.closure name).mapM fun n => return (← r.schema.entity n).tag
    return SortedSet.ofList tags |>.keys

/-- The groups that contain the entity of a tag, ascending. -/
def groupsContaining (tag : Nat) : List String :=
  match r.schema.entityAt? tag with
  | some e => (r.closures.filter fun _ names => names.contains e.name).keys
  | none => []

/-- The tags that references of an object of `e` may have, ascending. Members
    without target tags are passed over. -/
def referencedTags (e : Entity) : List Nat :=
  (SortedSet.ofList ((r.schema.membersBaseFirst e).flatMap fun m =>
    match r.targetTags m with
    | .ok tags => tags
    | .error _ => [])).keys

end Resolution

end ObjectModel
