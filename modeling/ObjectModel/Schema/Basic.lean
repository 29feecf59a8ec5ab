/-!
# Schemas

A schema declares the entities of an object model, each with at most one base,
and the groups of entities that a reference may range over. An entity has
members: scalars, and references to objects of an entity or of a group, single
or in a list.

The type tag of an entity is its position in the schema. An entity without
subclasses is a leaf, and objects of it can be made even if it is declared
abstract; one with subclasses is abstract if it is declared so.

What has a name is found by an index of names. A schema that is put together by
hand may have an index that is not that of its lists (`RawSchema`); in a
`Schema` it is.
-/

namespace ObjectModel

/-- The types of scalar members. -/
inductive ScalarKind
  | bool
  | int16
  | uint16
  | int32
  | uint32
  | int64
  | uint64
  /-- Text. -/
  | string
  /-- The text of a literal. -/
  | value
  /-- The text of a delay. -/
  | delay
deriving DecidableEq, Repr

namespace ScalarKind

/-- Reads a type as schemas spell it. -/
def ofName? : String → Option ScalarKind
  | "bool" => some bool
  | "int16_t" | "int16" => some int16
  | "uint16_t" | "uint16" => some uint16
  | "int" | "int32_t" | "int32" => some int32
  | "unsigned" | "unsigned int" | "uint32_t" | "uint32" => some uint32
  | "int64_t" | "int64" => some int64
  | "uint64_t" | "uint64" => some uint64
  | "string" => some string
  | "value" => some value
  | "delay" => some delay
  | _ => none

/-- The principal spelling of a type. -/
def name : ScalarKind → String
  | bool => "bool"
  | int16 => "int16"
  | uint16 => "uint16"
  | int32 => "int32"
  | uint32 => "uint32"
  | int64 => "int64"
  | uint64 => "uint64"
  | string => "string"
  | value => "value"
  | delay => "delay"

/-- The type of a field in generated code. -/
def fieldType : ScalarKind → String
  | bool => "bool"
  | int16 => "i16"
  | uint16 => "u16"
  | int32 => "i32"
  | uint32 => "u32"
  | int64 => "i64"
  | uint64 => "u64"
  | string | value | delay => "String"

/-- The type of a field in the wire schema, where a text is a symbol's id. -/
def wireType : ScalarKind → String
  | bool => "Bool"
  | int16 => "Int16"
  | uint16 => "UInt16"
  | int32 => "Int32"
  | uint32 | string | value | delay => "UInt32"
  | int64 => "Int64"
  | uint64 => "UInt64"

/-- The content is text, kept in the symbol table. -/
def isSymbol : ScalarKind → Bool
  | string | value | delay => true
  | _ => false

end ScalarKind

/-- How many objects a reference member holds. -/
inductive Cardinality
  /-- One, or none. -/
  | one
  /-- A list. -/
  | many
deriving DecidableEq, Repr

/-- Reads a cardinality as schemas spell it. -/
def Cardinality.ofName? : String → Option Cardinality
  | "1" | "one" => some one
  | "any" | "many" => some many
  | _ => none

/-- The principal spelling of a cardinality. -/
def Cardinality.name : Cardinality → String
  | one => "one"
  | many => "many"

/-- Marks on members that policies go by. -/
inductive MemberTag
  /-- The object's name, by which it is rebound and merged. -/
  | nameIdentifier
  /-- A reference up, to an enclosing scope or a definition. -/
  | backReference
  /-- A scalar that tells the object's type. -/
  | typeDiscriminant
  /-- A reference to a type specification. -/
  | typeSpecification
  /-- The hierarchical name, kept at hand. -/
  | fullName
  /-- Where the object comes from. -/
  | provenance
deriving DecidableEq, Repr

/-- Reads a mark as schemas spell it. -/
def MemberTag.ofName? : String → Option MemberTag
  | "name" | "is-name-identifier" => some nameIdentifier
  | "back-reference" | "is-back-reference" => some backReference
  | "type-discriminant" | "is-type-discriminant" => some typeDiscriminant
  | "typespec" | "is-type-specification" => some typeSpecification
  | "full-name" => some fullName
  | "provenance" => some provenance
  | _ => none

/-- The principal spelling of a mark. -/
def MemberTag.name : MemberTag → String
  | nameIdentifier => "name"
  | backReference => "back-reference"
  | typeDiscriminant => "type-discriminant"
  | typeSpecification => "typespec"
  | fullName => "full-name"
  | provenance => "provenance"

/-- What a member holds. -/
inductive Content
  | scalar (kind : ScalarKind)
  /-- References to objects of an entity. -/
  | object (entity : String) (card : Cardinality)
  /-- References to objects of the entities of a group. -/
  | union (group : String) (card : Cardinality)
deriving DecidableEq, Repr

/-- A member of an entity. -/
structure Member where
  name : String
  content : Content
  /-- What the member stands for to those who walk objects; the name, if
      nothing else is said. -/
  relation : String
  tags : List MemberTag := []
deriving DecidableEq, Repr

namespace Member

/-- A member whose relation is its name, without marks. -/
def plain (name : String) (content : Content) : Member := { name, content, relation := name }

/-- The member with one more mark. -/
def withTag (m : Member) (tag : MemberTag) : Member :=
  if tag ∈ m.tags then m else { m with tags := m.tags ++ [tag] }

/-- The member carries the mark. -/
def hasTag (m : Member) (tag : MemberTag) : Bool := m.tags.contains tag

/-- The type of a scalar. -/
def scalarKind? (m : Member) : Option ScalarKind :=
  match m.content with
  | .scalar kind => some kind
  | _ => none

/-- The member holds references. -/
def isReference (m : Member) : Bool := m.scalarKind?.isNone

/-- The cardinality; a scalar is single. -/
def cardinality (m : Member) : Cardinality :=
  match m.content with
  | .scalar _ => .one
  | .object _ card | .union _ card => card

/-- The member holds a list. -/
def isMany (m : Member) : Bool := m.cardinality == .many

/-- The entity or group that references point into. -/
def target? (m : Member) : Option String :=
  match m.content with
  | .scalar _ => none
  | .object name _ | .union name _ => some name

/-- The member is text. -/
def isText (m : Member) : Bool := m.scalarKind?.any ScalarKind.isSymbol

end Member

/-- What an entity is, given its place in the hierarchy. -/
inductive EntityKind
  /-- Nothing extends it. -/
  | leaf
  /-- It is extended, and has objects of its own. -/
  | interior
  /-- It is extended, and has no objects of its own. -/
  | abstract
deriving DecidableEq, Repr

/-- Objects of this kind of entity can be made. -/
def EntityKind.isConcrete : EntityKind → Bool
  | leaf | interior => true
  | abstract => false

/-- Some entity extends one of this kind. -/
def EntityKind.hasSubclasses : EntityKind → Bool
  | leaf => false
  | interior | abstract => true

/-- An entity. -/
structure Entity where
  name : String
  kind : EntityKind
  /-- The entity that it extends. -/
  base : Option String
  /-- The members that it adds to those of its base. -/
  members : List Member
  /-- The position in the schema. -/
  tag : Nat
  /-- The entities that extend it directly, in order of declaration. -/
  subclasses : List String
deriving DecidableEq, Repr

/-- The entity's own member of that name. -/
def Entity.member? (e : Entity) (name : String) : Option Member :=
  e.members.find? (·.name == name)

/-- What a group takes in. -/
inductive GroupRef
  /-- The entity alone. -/
  | entity (name : String)
  /-- The entity and all that extend it. -/
  | family (name : String)
  /-- All that another group takes in. -/
  | group (name : String)
deriving DecidableEq, Repr

/-- A named union of entities. -/
structure Group where
  name : String
  refs : List GroupRef
deriving DecidableEq, Repr

/-- The index of a list of names: each leads to the last place where it stands. -/
def indexNames (names : List String) : List (String × Nat) := names.zipIdx.reverse

/-- A schema as it may be put together by hand. -/
structure RawSchema where
  name : String
  /-- The entities, by tag. -/
  entities : List Entity
  groups : List Group
  /-- The places of entities, by their names. -/
  entityIndex : List (String × Nat) := indexNames (entities.map (·.name))
  /-- The places of groups, by their names. -/
  groupIndex : List (String × Nat) := indexNames (groups.map (·.name))
deriving DecidableEq, Repr

namespace RawSchema

/-- What a name leads to in a list; an index that is not that of the list may lead
    beyond it, to nothing. -/
def named? {α : Type} (index : List (String × Nat)) (l : List α) (name : String) : Option α :=
  (index.lookup name).bind (l[·]?)

/-- The entity of that name. -/
def entity? (s : RawSchema) (name : String) : Option Entity := named? s.entityIndex s.entities name

/-- The group of that name. -/
def group? (s : RawSchema) (name : String) : Option Group := named? s.groupIndex s.groups name

/-- The entity of that tag. -/
def entityAt? (s : RawSchema) (tag : Nat) : Option Entity := s.entities[tag]?

/-- There is an entity of that name. -/
def hasEntity (s : RawSchema) (name : String) : Bool := (s.entityIndex.lookup name).isSome

/-- There is a group of that name. -/
def hasGroup (s : RawSchema) (name : String) : Bool := (s.groupIndex.lookup name).isSome

/-- The entities that have objects, by tag. -/
def concrete (s : RawSchema) : List Entity := s.entities.filter (·.kind.isConcrete)

/-- The index is the one of the lists. -/
structure Indexed (s : RawSchema) : Prop where
  entities : s.entityIndex = indexNames (s.entities.map (·.name))
  groups : s.groupIndex = indexNames (s.groups.map (·.name))

end RawSchema

/-- A schema whose index is the one of its lists. -/
structure Schema extends RawSchema where
  /-- Names lead to what has them. -/
  indexed : toRawSchema.Indexed := by exact ⟨rfl, rfl⟩
deriving DecidableEq, Repr

end ObjectModel
