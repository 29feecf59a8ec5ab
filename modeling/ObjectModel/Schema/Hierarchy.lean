import ObjectModel.Schema.Basic

/-!
# The hierarchy of entities

The chain of an entity is the entity followed by all that it extends, the root
last. The members of an object are those of the whole chain: listed from the
root for storing them, from the entity itself for finding one.

* `RawSchema.chain`: the entity and its ancestors.
* `RawSchema.descendants`, `RawSchema.isATags`: the chain, looked at from above.
* `RawSchema.membersBaseFirst`, `RawSchema.membersDerivedFirst`: all members.
-/

namespace ObjectModel.RawSchema

variable (s : RawSchema)

/-- The entity that `e` extends. -/
def base? (e : Entity) : Option Entity := e.base.bind s.entity?

/-- At most `n` entities of the chain of `e`. -/
def chainUpTo : Nat → Entity → List Entity
  | 0, _ => []
  | n + 1, e => e :: match s.base? e with
    | some b => chainUpTo n b
    | none => []

/-- `e` and its ancestors. No chain is longer than the schema. -/
def chain (e : Entity) : List Entity := s.chainUpTo s.entities.length e

/-- The base that the chain of `e` stops at for want of a declaration. -/
def missingBase? (e : Entity) : Option String :=
  (s.chain e).getLast?.bind fun top => top.base.filter fun b => !s.hasEntity b

/-- The ancestors of `e` and `e`, the root first. -/
def levels (e : Entity) : List Entity := (s.chain e).reverse

/-- All that extends `e`, directly or not, in order of declaration. -/
def descendants (e : Entity) : List Entity :=
  s.entities.filter fun d => (s.chain d).tail.any (·.tag == e.tag)

/-- The tags whose objects are objects of `e`, ascending: the places of the concrete
    entities that are at the place of `e`, or have it among their ancestors. -/
def isATags (e : Entity) : List Nat :=
  (s.entities.zipIdx.filter fun (d, place) =>
    d.kind.isConcrete && (place == e.tag || (s.chain d).tail.any (·.tag == e.tag))).map (·.2)

/-- Objects tagged `tag` are objects of `e`. -/
def isA (tag : Nat) (e : Entity) : Bool := (s.isATags e).contains tag

/-- The members of `e` with the entities that declare them, the root's first. -/
def ownedBaseFirst (e : Entity) : List (Entity × Member) :=
  (s.levels e).flatMap fun l => l.members.map (l, ·)

/-- The members of `e` with the entities that declare them, its own first. -/
def ownedDerivedFirst (e : Entity) : List (Entity × Member) :=
  (s.chain e).flatMap fun l => l.members.map (l, ·)

/-- The members of `e`, the root's first. -/
def membersBaseFirst (e : Entity) : List Member := (s.levels e).flatMap (·.members)

/-- The members of `e`, its own first. -/
def membersDerivedFirst (e : Entity) : List Member := (s.chain e).flatMap (·.members)

/-- The member of `e` of that name, and who declares it. -/
def findMember? (e : Entity) (name : String) : Option (Entity × Member) :=
  (s.ownedDerivedFirst e).find? (·.2.name == name)

/-- The member of that name of the entity of that name. -/
def lookupMember? (entity member : String) : Option Member :=
  (s.entity? entity).bind fun e => (s.findMember? e member).map (·.2)

/-- `e` has a scalar named `type`. -/
def declaresType (e : Entity) : Bool :=
  (s.chain e).any fun l => l.members.any fun m => m.name == "type" && !m.isReference

/-- The text members of `e`, the root's first. -/
def symbolMembers (e : Entity) : List Member := (s.membersBaseFirst e).filter (·.isText)

end ObjectModel.RawSchema
