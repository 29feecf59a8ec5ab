import ObjectModel.Generation.Blueprint

/-!
# Groups

`groups.rs` holds for each group the predicate on tags that holds of the
objects in it.
-/

namespace ObjectModel.Generation.Groups

variable (b : Blueprint)

/-- The tags of the entities in a group, ascending. -/
def tags (g : Group) : Except SchemaError (List Nat) := do
  let names ← b.resolution.closure g.name
  let tags ← names.mapM fun name => return (← b.schema.entity name).tag
  return tags.mergeSort

/-- The predicate of a group. -/
def predicate (g : Group) : Except SchemaError Code := do
  return tagPredicate ("is_" ++ groupStem g.name)
    s!"Returns true if objects tagged `tag` may appear where `{g.name}` is expected." (← tags b g)

/-- The text of `groups.rs`. -/
def groups : Except SchemaError String := do
  return (b.banner "Group membership" ++ (← b.schema.groups.mapM (predicate b)).flatten).text

end ObjectModel.Generation.Groups
