import ObjectModel.Graph.Error
import ObjectModel.Policy.Basic
import ObjectModel.Schema.Resolution

/-!
# Layouts

An object holds one value for each member of its entity, inherited ones first.
The layout of an entity lists these slots, each with the tags that references
in it may have. A name that occurs twice means the slot nearer to the entity,
which comes last (`Layout.slotOf?`).

* `Model.ofResolution`: the layouts of a resolved schema, with the policy that
  graphs over it go by.
-/

namespace ObjectModel

/-- The place of a member in an object. -/
structure Slot where
  member : Member
  /-- The tags that references may have, ascending. -/
  targets : List Nat
deriving DecidableEq, Repr

/-- The slots of an entity. -/
abbrev Layout := List Slot

/-- The last position of a list at which `p` holds. -/
def lastIndex? {α : Type} (p : α → Bool) : List α → Option Nat
  | [] => none
  | a :: r => match lastIndex? p r with
    | some i => some (i + 1)
    | none => if p a then some 0 else none

namespace Layout

variable (l : Layout)

/-- The slots for a list of members. -/
def ofMembers (r : Resolution) (members : List Member) : Except GraphError Layout :=
  members.mapM fun m =>
    match r.targetTags m with
    | .ok targets => pure ⟨m, targets⟩
    | .error _ => throw (.unknownEntity (m.target?.getD ""))

/-- The members, in order. -/
def members : List Member := l.map (·.member)

/-- The slot of the member of that name. -/
def slotOf? (name : String) : Option Nat := lastIndex? (·.member.name == name) l

/-- The slot of the name of an object: the first text member marked as its
    name or, if there is none, the first that is called `name`. -/
def nameSlot? : Option Nat :=
  l.findIdx? (fun s => s.member.isText && s.member.hasTag .nameIdentifier) <|>
    l.findIdx? (fun s => s.member.isText && s.member.name == "name")

/-- What a new object holds. -/
def defaults : List Value := l.map fun s => .default s.member

end Layout

/-- What graphs go by: a schema, a policy, and the layouts of the concrete
    entities by tag. -/
structure Model where
  resolution : Resolution
  policy : PolicyTable
  layouts : List (Option Layout)
deriving DecidableEq

namespace Model

/-- The model of a resolved schema under a policy. -/
def ofResolution (r : Resolution) (policy : PolicyTable) : Except GraphError Model := do
  let layouts ← r.schema.entities.mapM fun e =>
    if e.kind.isConcrete then some <$> Layout.ofMembers r (r.schema.membersBaseFirst e)
    else pure none
  return ⟨r, policy, layouts⟩

variable (m : Model)

/-- The schema. -/
abbrev schema : Schema := m.resolution.schema

/-- The entity of a tag. -/
def entity (tag : Nat) : Except GraphError Entity :=
  match m.schema.entityAt? tag with
  | some e => pure e
  | none => throw (.archive (.unknownTypeTag tag))

/-- The name of the entity of a tag, as far as there is one. -/
def entityName (tag : Nat) : String :=
  match m.schema.entityAt? tag with
  | some e => e.name
  | none => "?"

/-- The layout of a tag. -/
def layout (tag : Nat) : Except GraphError Layout :=
  match m.layouts[tag]? with
  | some (some l) => pure l
  | _ => throw (.archive (.unknownTypeTag tag))

end Model

end ObjectModel
