import ObjectModel.Graph.Basic

/-!
# Reading and writing members

Members are read and written by name. A value is written only if it fits the
member and refers to objects that the member takes; otherwise nothing changes
at all.

* `Graph.get`, `Graph.set`, `Graph.push`.
* `Graph.text`, `Graph.int`, `Graph.ref`, `Graph.list`, `Graph.elements`: what
  a member of a certain kind holds.
* `Graph.name?`, `Graph.keyText?`: the texts by which objects are found.
* `Graph.references`: all that an object refers to.
-/

namespace ObjectModel.Graph

variable (g : Graph)

/-- The slot of a member in the layout of an object. -/
def slotOf (r : Ref) (member : String) : Except GraphError Nat := do
  let l ← g.layout r
  match l.slotOf? member with
  | some i => return i
  | none => throw (.unknownMember (g.model.entityName r.tag) member)

/-- What an object holds in a member. -/
def get (r : Ref) (member : String) : Except GraphError Value := do
  let i ← g.slotOf r member
  let o ← g.object r
  return o.values.getD i default

/-- A slot of an object takes `target`: it exists, and has one of the tags. -/
def checkTarget (r : Ref) (slot : Slot) (target : Ref) : Except GraphError Unit := do
  if !g.contains target then
    throw (.danglingReference target)
  if !slot.targets.contains target.tag then
    throw (.typeMismatch (g.model.entityName r.tag) slot.member.name
      (.target (g.model.entityName target.tag)))

/-- Writes a value. -/
def set (r : Ref) (member : String) (v : Value) : Except GraphError Graph := do
  let i ← g.slotOf r member
  let l ← g.layout r
  if let some slot := l[i]? then
    if let some reason := v.mismatch? slot.member then
      throw (.typeMismatch (g.model.entityName r.tag) member reason)
    v.references.forM (g.checkTarget r slot)
  let o ← g.object r
  g.setValues r (o.values.set i v)

/-- Writes a reference to the end of a list, making the list if need be. -/
def push (r : Ref) (member : String) (item : Ref) : Except GraphError Graph := do
  let i ← g.slotOf r member
  let l ← g.layout r
  if let some slot := l[i]? then
    if !slot.member.isMany then
      throw (.typeMismatch (g.model.entityName r.tag) member .notAList)
    g.checkTarget r slot item
  let o ← g.object r
  match o.values[i]? with
  | some (.refs items) => g.setValues r (o.values.set i (.refs (some (items.getD [] ++ [item]))))
  | _ => return g

/-- A member holds something other than what is asked for. -/
def wrongKind {α : Type} (r : Ref) (member : String) (found : Value) (wanted : ValueKind) :
    Except GraphError α :=
  throw (.typeMismatch (g.model.entityName r.tag) member (.holds found.kind wanted))

/-- The text in a member. -/
def text (r : Ref) (member : String) : Except GraphError String := do
  match ← g.get r member with
  | .text s => return s
  | v => g.wrongKind r member v .text

/-- The signed integer in a member. -/
def int (r : Ref) (member : String) : Except GraphError Int64 := do
  match ← g.get r member with
  | .int n => return n
  | v => g.wrongKind r member v .int

/-- The reference in a member. -/
def ref (r : Ref) (member : String) : Except GraphError (Option Ref) := do
  match ← g.get r member with
  | .ref target => return target
  | v => g.wrongKind r member v .ref

/-- The list in a member, if it was made. -/
def list (r : Ref) (member : String) : Except GraphError (Option (List Ref)) := do
  match ← g.get r member with
  | .refs items => return items
  | v => g.wrongKind r member v .refs

/-- The elements of the list in a member. -/
def elements (r : Ref) (member : String) : Except GraphError (List Ref) :=
  (·.getD []) <$> g.list r member

/-- The name of an object. -/
def name? (r : Ref) : Option String := do
  let i ← (← (g.layout r).toOption).nameSlot?
  match (← g.object? r).values.getD i default with
  | .text s => some s
  | _ => none

/-- The text that an object holds in a member, if it holds one. -/
def keyText? (r : Ref) (member : String) : Option String := do
  match ← (g.get r member).toOption with
  | .text s => some s
  | _ => none

/-- All that an object refers to, with the members that do. -/
def references (r : Ref) : Except GraphError (List (Member × Ref)) := do
  let members ← g.members r
  let o ← g.object r
  return (members.zip o.values).flatMap fun (m, v) => v.references.map (m, ·)

end ObjectModel.Graph
