import ObjectModel.Schema.Basic
import ObjectModel.SortedMap

/-!
# Policies

A policy table says, entity by entity and member by member, how objects are
cloned, walked and compared, and where adopted children are filed. All that is
special about an entity is said here and nowhere else.

What is said of an entity holds for all that extend it. So a question is put
along the chain of an entity, the entity first, and the first answer counts;
for members the wildcard comes last, and then what their marks suggest.

A table is made of entries (`PolicyEntry`), each of which is added to those
before (`PolicyTable.add`).
-/

namespace ObjectModel

/-- The name that stands for every entity. -/
def anyEntity : String := "*"

/-- The object from which the key of a rebinding is read. -/
inductive KeySource
  /-- The object that is cloned. -/
  | referrer
  /-- The object referred to. -/
  | target
deriving DecidableEq, Repr

/-- How the references in a member are cloned. -/
inductive MemberClone
  /-- Their objects are cloned. -/
  | deep
  /-- Their objects are shared. -/
  | alias
  /-- They are replaced by what is bound to the name in the member `key`; where
      nothing is, they stay. -/
  | rebind (key : String) (source : KeySource)
  /-- As `deep` where type specifications are to be made unique, and as `alias`
      otherwise. -/
  | uniquify
deriving DecidableEq, Repr

/-- Rebinding by the name of the object referred to. -/
def MemberClone.rebindByName : MemberClone := .rebind "name" .target

/-- Entities that are cloned in a way of their own. -/
inductive CustomClone
  /-- Calls, whose callee is rebound. -/
  | call
  /-- Functions and tasks, which bind their name. -/
  | taskFunc
  /-- Constants, which share all that they refer to. -/
  | constant
  /-- Arrays of generate scopes, which are scopes. -/
  | genScopeArray
  /-- Hierarchical paths. -/
  | hierPath
  /-- Continuous assignments, which refer to nets by name. -/
  | contAssign
deriving DecidableEq, Repr

namespace CustomClone

/-- The name in policy documents and generated code. -/
def name : CustomClone → String
  | call => "call"
  | taskFunc => "task_func"
  | constant => "constant"
  | genScopeArray => "gen_scope_array"
  | hierPath => "hier_path"
  | contAssign => "cont_assign"

/-- All of them. -/
def all : List CustomClone := [call, taskFunc, constant, genScopeArray, hierPath, contAssign]

/-- Reads a name. -/
def ofName? (s : String) : Option CustomClone := all.find? (·.name == s)

end CustomClone

/-- The tables in which clones are found by name. -/
inductive BindingKind
  | net
  | param
deriving DecidableEq, Repr

/-- How an object is cloned as a whole. -/
inductive EntityClone
  /-- Member by member. -/
  | generic
  /-- In a way of its own. -/
  | custom (kind : CustomClone)
  /-- A clone that is bound to the name already is used again. -/
  | dedupByName (kind : BindingKind)
deriving DecidableEq, Repr

/-- One thing that a policy says. -/
inductive PolicyEntry
  | memberClone (entity member : String) (clone : MemberClone)
  | entityClone (entity : String) (clone : EntityClone)
  /-- No walk follows the relation. -/
  | excludeRelation (relation : String)
  /-- No walk follows the relation from objects of the entity. -/
  | excludeEdge (entity relation : String)
  /-- The member is not compared. -/
  | compareExclude (member : String)
  /-- Adopted objects of `child` are filed in the member `bucket`. -/
  | collector (collector child bucket : String)
deriving DecidableEq, Repr

/-- All that a policy says. -/
structure PolicyTable where
  memberClone : SortedMap (String × String) MemberClone := ∅
  entityClone : SortedMap String EntityClone := ∅
  excludedRelations : SortedSet String := ∅
  excludedEdges : SortedSet (String × String) := ∅
  compareExcluded : SortedSet String := ∅
  /-- For each collector the children that it files with their buckets, in
      order of declaration. -/
  collectors : SortedMap String (List (String × String)) := ∅
deriving DecidableEq

namespace PolicyTable

/-- The table that says nothing. -/
def empty : PolicyTable := {}

variable (t : PolicyTable)

/-- The table with one more entry. Of two that answer the same question the
    later counts. -/
def add : PolicyEntry → PolicyTable
  | .memberClone entity member clone =>
    { t with memberClone := t.memberClone.insert (entity, member) clone }
  | .entityClone entity clone => { t with entityClone := t.entityClone.insert entity clone }
  | .excludeRelation relation =>
    { t with excludedRelations := SortedSet.add t.excludedRelations relation }
  | .excludeEdge entity relation =>
    { t with excludedEdges := SortedSet.add t.excludedEdges (entity, relation) }
  | .compareExclude member => { t with compareExcluded := SortedSet.add t.compareExcluded member }
  | .collector collector child bucket =>
    let buckets := (t.collectors.get? collector).getD []
    let extended := if (child, bucket) ∈ buckets then buckets else buckets ++ [(child, bucket)]
    { t with collectors := t.collectors.insert collector extended }

/-- The table with more entries. -/
def addAll (entries : List PolicyEntry) : PolicyTable := entries.foldl add t

/-- How references in `m` are cloned, for an object with this chain. -/
def memberCloneOf (chain : List Entity) (m : Member) : MemberClone :=
  match (chain.map (·.name) ++ [anyEntity]).findSome? fun e => t.memberClone.get? (e, m.name) with
  | some clone => clone
  | none =>
    if m.hasTag .backReference then .rebindByName
    else if m.hasTag .typeSpecification then .uniquify
    else .deep

/-- How an object with this chain is cloned. -/
def entityCloneOf (chain : List Entity) : EntityClone :=
  (chain.findSome? fun e => t.entityClone.get? e.name).getD .generic

/-- Walks pass over `m` in an object with this chain. -/
def skipsTraversal (chain : List Entity) (m : Member) : Bool :=
  t.excludedRelations.contains m.relation || t.excludedRelations.contains m.name ||
    (chain.map (·.name) ++ [anyEntity]).any fun e =>
      t.excludedEdges.contains (e, m.relation) || t.excludedEdges.contains (e, m.name)

/-- Comparison passes over `m`. -/
def skipsCompare (m : Member) : Bool :=
  m.hasTag .provenance || m.hasTag .fullName || t.compareExcluded.contains m.name

/-- The children that a collector files, with their buckets. -/
def bucketsOf (collector : String) : List (String × String) :=
  (t.collectors.get? collector).getD []

/-- Some entity is a collector. -/
def hasCollectors : Bool := !t.collectors.isEmpty

end PolicyTable

end ObjectModel
