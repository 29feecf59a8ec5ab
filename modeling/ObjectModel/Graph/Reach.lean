import ObjectModel.Graph.Access

/-!
# What belongs together

The objects that have to be kept if some are: all that can be reached from
them through references, from child to parent and from parent to child.

* `Graph.reachable`: the objects reachable from a list of roots.
-/

namespace ObjectModel.Graph

variable (g : Graph)

/-- The objects next to `r`: its parent, its children, and what it refers to. -/
def neighbours (r : Ref) : Except GraphError (List Ref) := do
  let h ← g.header r
  let references ← g.references r
  return h.parent.toList ++ h.children ++ references.map (·.2)

/-- `seen` and what can be reached from `r` without passing through it, on
    paths of at most `n` objects. Of several neighbours the last goes first. -/
def reachUpTo : Nat → SortedSet Ref → Ref → Except GraphError (SortedSet Ref)
  | 0, _, _ => throw .depthExceeded
  | n + 1, seen, r => do
    if seen.contains r then
      return seen
    (← g.neighbours r).reverse.foldlM (reachUpTo n) (SortedSet.add seen r)

/-- The objects reachable from `roots`, in the order of references. -/
def reachable (roots : List Ref) : Except GraphError (List Ref) := do
  return (← roots.reverse.foldlM (g.reachUpTo (g.size + 1)) ∅).keys

end ObjectModel.Graph
