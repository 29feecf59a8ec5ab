import ObjectModel.Graph.Access

/-!
# Walking a graph

A walk enters an object, follows its references member by member, and leaves
it; a list is entered before its elements and left after them. It passes over
members that the policy excludes, and enters no object and no list twice, a
list being known by its owner and its relation. What happens on the way is
told as a sequence of events, also of a walk that meets a reference to no
object.

* `Graph.traverse`: the number of objects entered, and the events.
-/

namespace ObjectModel

/-- What a walk has entered. -/
structure Visited where
  objects : List Ref := []
  lists : List (Ref × String) := []
deriving DecidableEq, Repr

namespace Visited

/-- Enters an object, and tells whether it is new. -/
def insert (v : Visited) (r : Ref) : Bool × Visited :=
  if r ∈ v.objects then (false, v) else (true, { v with objects := v.objects ++ [r] })

/-- Enters a list, and tells whether it is new. -/
def insertList (v : Visited) (owner : Ref) (relation : String) : Bool × Visited :=
  if (owner, relation) ∈ v.lists then (false, v)
  else (true, { v with lists := v.lists ++ [(owner, relation)] })

/-- The object has been entered. -/
def contains (v : Visited) (r : Ref) : Bool := v.objects.contains r

/-- The number of objects. -/
def size (v : Visited) : Nat := v.objects.length

end Visited

/-- What happens on a walk. An object is reached through a relation, except the
    one from which the walk sets out. -/
inductive WalkEvent
  | enter (r : Ref) (relation : Option String)
  | leave (r : Ref) (relation : Option String)
  | enterList (owner : Ref) (relation : String) (items : List Ref)
  | leaveList (owner : Ref) (relation : String) (items : List Ref)
deriving DecidableEq, Repr

/-- The objects entered, in order. -/
def WalkEvent.entered (events : List WalkEvent) : List Ref :=
  events.filterMap fun
    | enter r _ => some r
    | _ => none

/-- The number of objects entered and left. -/
def WalkEvent.objectEvents (events : List WalkEvent) : Nat :=
  events.countP fun
    | enter _ _ | leave _ _ => true
    | _ => false

/-- The lists entered, in order, with their lengths. -/
def WalkEvent.enteredLists (events : List WalkEvent) : List (Ref × String × Nat) :=
  events.filterMap fun
    | enterList owner relation items => some (owner, relation, items.length)
    | _ => none

namespace Graph

/-- How far a walk has come. -/
structure Walk where
  visited : Visited := {}
  events : List WalkEvent := []
deriving DecidableEq, Repr

/-- A part of a walk, which may fail half-way. -/
abbrev Walking := ExceptT GraphError (StateM Walk)

/-- Tells an event. -/
def Walking.tell (e : WalkEvent) : Walking Unit :=
  modifyThe Walk fun w => { w with events := w.events ++ [e] }

/-- Enters an object, and tells whether it is new. -/
def Walking.mark (r : Ref) : Walking Bool :=
  modifyGetThe Walk fun w =>
    let (fresh, visited) := w.visited.insert r
    (fresh, { w with visited })

/-- Enters a list, and tells whether it is new. -/
def Walking.markList (owner : Ref) (relation : String) : Walking Bool :=
  modifyGetThe Walk fun w =>
    let (fresh, visited) := w.visited.insertList owner relation
    (fresh, { w with visited })

variable (g : Graph)

/-- Visits the elements of a list by `visit`. -/
def visitList (visit : Ref → Option String → Walking Unit) (owner : Ref) (relation : String)
    (items : List Ref) : Walking Unit := do
  if ← Walking.markList owner relation then
    Walking.tell (.enterList owner relation items)
    items.forM (visit · (some relation))
    Walking.tell (.leaveList owner relation items)

/-- Visits what a member of `r` refers to by `visit`. -/
def visitMember (visit : Ref → Option String → Walking Unit) (r : Ref) (m : Member) (v : Value) :
    Walking Unit :=
  match v with
  | .ref (some target) => visit target (some m.relation)
  | .refs (some items) => visitList visit r m.relation items
  | _ => pure ()

/-- The members of an object that a walk follows, with their values. -/
def walkedMembers (r : Ref) : Except GraphError (List (Member × Value)) := do
  let o ← g.object r
  let chain := g.schema.chain (← g.entity r)
  let members ← g.members r
  return (members.zip o.values).filter fun (m, _) =>
    m.isReference && !g.model.policy.skipsTraversal chain m

/-- Visits `r` and, by `visit`, what it refers to. -/
def visitWith (visit : Ref → Option String → Walking Unit) (r : Ref) (relation : Option String) :
    Walking Unit := do
  if ← Walking.mark r then
    let members ← ExceptT.mk (pure (g.walkedMembers r))
    Walking.tell (.enter r relation)
    members.forM fun (m, v) => visitMember visit r m v
    Walking.tell (.leave r relation)

/-- Visits `r` on a path of at most `n` objects. -/
def visitUpTo : Nat → Ref → Option String → Walking Unit
  | 0, _, _ => throw .depthExceeded
  | n + 1, r, relation => g.visitWith (visitUpTo n) r relation

/-- Walks from `root`. The objects on a path differ, so no path is longer than
    the graph. -/
def traverse (root : Ref) : Except GraphError Nat × List WalkEvent :=
  let (result, walk) := (g.visitUpTo (g.size + 1) root none).run {}
  (result.map fun _ => walk.visited.size, walk.events)

end Graph

end ObjectModel
