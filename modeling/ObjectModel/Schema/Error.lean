/-!
# Errors of a schema

What can be wrong with a schema, or with a policy for it, and how it is told.
-/

namespace ObjectModel

/-- What is out of date in a policy table. -/
inductive StaleEntry
  | cloneEntity (entity : String)
  | cloneMember (entity member : String)
  /-- The key by which the member is rebound is no text member. -/
  | rebindKey (entity member : String)
  | entityClone (entity : String)
  | excludedEdge (entity relation : String)
  | collectorEntity (collector : String)
  | collectorChild (collector child : String)
  /-- The bucket holds no list of references. -/
  | bucketMember (collector bucket : String)
deriving DecidableEq, Repr

/-- An entry that is out of date, in words. -/
def StaleEntry.message : StaleEntry → String
  | cloneEntity entity => s!"clone policy names unknown entity '{entity}'"
  | cloneMember entity member => s!"clone policy names unknown member '{entity}.{member}'"
  | rebindKey entity member => s!"rebinding key of '{entity}.{member}' is not a text member"
  | entityClone entity => s!"entity clone policy names unknown entity '{entity}'"
  | excludedEdge entity relation =>
    s!"traversal exclusion '{entity}.{relation}' names unknown entity"
  | collectorEntity collector => s!"unknown collector entity '{collector}'"
  | collectorChild collector child => s!"collector '{collector}' names unknown child '{child}'"
  | bucketMember collector bucket =>
    s!"bucket '{bucket}' of collector '{collector}' is not a collection member"

/-- What is wrong with a schema. -/
inductive SchemaError
  /-- An entity is declared before the one it extends. -/
  | orderingViolation (entity base : String)
  /-- An entity extends one that is not declared. -/
  | unknownBase (entity base : String)
  /-- A member refers into an entity or group that is not declared. -/
  | unresolvedElementType (entity member element : String)
  /-- Two members of one entity get the same name. -/
  | namingCollision (entity first second derived : String)
  /-- Groups take in each other; the path ends with the group that closes it. -/
  | groupCycle (path : List String)
  | duplicateEntity (name : String)
  | duplicateMember (entity member : String)
  | duplicateGroup (name : String)
  | unknownEntity (name : String)
  | unknownGroup (name : String)
  /-- Resolving a schema stops, as the tag of an entity is beyond its last place. -/
  | misplacedEntity (name : String)
  /-- A policy speaks of what the schema does not have. -/
  | stalePolicy (entry : StaleEntry)
deriving DecidableEq, Repr

/-- An error in words. -/
def SchemaError.message : SchemaError → String
  | orderingViolation entity base =>
    s!"entity '{entity}' is declared before its base '{base}'"
  | unknownBase entity base => s!"entity '{entity}' extends unknown base '{base}'"
  | unresolvedElementType entity member element =>
    s!"member '{member}' of '{entity}' has unresolved element type '{element}'"
  | namingCollision entity first second derived =>
    s!"members '{first}' and '{second}' of '{entity}' both derive the name '{derived}'"
  | groupCycle path => "group reference cycle: " ++ String.intercalate " -> " path
  | duplicateEntity name => s!"duplicate entity definition: '{name}'"
  | duplicateMember entity member => s!"duplicate member definition: '{entity}.{member}'"
  | duplicateGroup name => s!"duplicate group definition: '{name}'"
  | unknownEntity name => s!"entity '{name}' not found"
  | unknownGroup name => s!"group '{name}' not found"
  | misplacedEntity name => s!"entity '{name}' has a tag beyond the schema"
  | stalePolicy entry => "policy error: " ++ entry.message

end ObjectModel
