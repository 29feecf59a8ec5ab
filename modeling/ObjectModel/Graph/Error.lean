import ObjectModel.Graph.Value
import ObjectModel.Wire.Fault

/-!
# Errors of a graph

What can go wrong with a graph, and how it is told.
-/

namespace ObjectModel

/-- What goes wrong with a graph. -/
inductive GraphError
  /-- The schema has no entity of this name. -/
  | unknownEntity (name : String)
  /-- The entity has no objects of its own. -/
  | notInstantiable (entity : String)
  /-- The entity has no such member. -/
  | unknownMember (entity member : String)
  /-- What is put into a member, or asked of it, does not go with it. -/
  | typeMismatch (entity member : String) (reason : Mismatch)
  /-- There is no such object. -/
  | danglingReference (target : Ref)
  /-- An archive is at fault, or a tag that it could hold. -/
  | archive (fault : Wire.Fault)
  /-- All ids have been handed out. -/
  | idsExhausted
  /-- A walk went deeper than the number of objects allows. -/
  | depthExceeded
deriving DecidableEq, Repr

/-- An error in words. -/
def GraphError.message : GraphError → String
  | unknownEntity name => s!"unknown entity '{name}'"
  | notInstantiable entity => s!"entity '{entity}' is abstract and cannot be instantiated"
  | unknownMember entity member => s!"entity '{entity}' has no member '{member}'"
  | typeMismatch entity member reason =>
    s!"type mismatch on '{entity}.{member}': {reason.message}"
  | danglingReference target => s!"dangling reference {target.text}"
  | archive fault => s!"core error: {fault.message}"
  | idsExhausted => "no object id left"
  | depthExceeded => "walk too deep"

end ObjectModel
