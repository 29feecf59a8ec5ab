import ObjectModel.Policy.Basic
import ObjectModel.Schema.Error
import ObjectModel.Schema.Hierarchy

/-!
# Policies of a schema

A table may speak of entities and members that a schema does not have. Such
entries are out of date: `PolicyTable.check` tells the first, and
`PolicyTable.restrictTo` drops them.
-/

namespace ObjectModel.PolicyTable

variable (t : PolicyTable) (s : Schema)

/-- The schema has the entity, or it is the wildcard. -/
def knows (s : Schema) (entity : String) : Bool := entity == anyEntity || s.hasEntity entity

/-- The key of a rebinding, if read from the referrer, is a string of it. -/
def rebindKeyOk (s : Schema) (entity : String) : MemberClone → Bool
  | .rebind key .referrer => ((s.lookupMember? entity key).bind (·.scalarKind?)) == some .string
  | _ => true

/-- The bucket is a list of references. -/
def bucketOk (s : Schema) (collector bucket : String) : Bool :=
  (s.lookupMember? collector bucket).any fun m => m.isReference && m.isMany

/-- What is out of date in how a member is cloned. -/
def staleMemberClone? (s : Schema) (entity member : String) (clone : MemberClone) :
    Option StaleEntry :=
  if entity = anyEntity then none
  else if !s.hasEntity entity then some (.cloneEntity entity)
  else if (s.lookupMember? entity member).isNone then some (.cloneMember entity member)
  else if !rebindKeyOk s entity clone then some (.rebindKey entity member)
  else none

/-- What is out of date in a collector. -/
def staleCollector? (s : Schema) (collector : String) (buckets : List (String × String)) :
    Option StaleEntry :=
  if !s.hasEntity collector then some (.collectorEntity collector)
  else buckets.findSome? fun (child, bucket) =>
    if !s.hasEntity child then some (.collectorChild collector child)
    else if !bucketOk s collector bucket then some (.bucketMember collector bucket)
    else none

/-- The first entry that is out of date. -/
def stale? : Option StaleEntry :=
  (t.memberClone.entries.findSome? fun (k, clone) => staleMemberClone? s k.1 k.2 clone) <|>
  (t.entityClone.keys.findSome? fun entity =>
    if knows s entity then none else some (.entityClone entity)) <|>
  (t.excludedEdges.keys.findSome? fun (entity, relation) =>
    if knows s entity then none else some (.excludedEdge entity relation)) <|>
  (t.collectors.entries.findSome? fun (collector, buckets) => staleCollector? s collector buckets)

/-- Nothing in the table is out of date. -/
def check : Except SchemaError Unit :=
  match t.stale? s with
  | some entry => throw (.stalePolicy entry)
  | none => pure ()

/-- How a member is cloned is up to date. -/
def keepsMemberClone (s : Schema) (entity member : String) (clone : MemberClone) : Bool :=
  entity == anyEntity ||
    (knows s entity && (s.lookupMember? entity member).isSome && rebindKeyOk s entity clone)

/-- The buckets of a collector that are up to date, if there are any. -/
def restrictBuckets (s : Schema) (collector : String) (buckets : List (String × String)) :
    Option (List (String × String)) :=
  let kept := buckets.filter fun (child, bucket) => s.hasEntity child && bucketOk s collector bucket
  if knows s collector && !kept.isEmpty then some kept else none

/-- The table without what is out of date. -/
def restrictTo : PolicyTable :=
  { t with
    memberClone := t.memberClone.filter fun k clone => keepsMemberClone s k.1 k.2 clone
    entityClone := t.entityClone.filter fun entity _ => knows s entity
    excludedEdges := t.excludedEdges.filter fun k _ => knows s k.1
    collectors := t.collectors.filterMap (restrictBuckets s) }

end ObjectModel.PolicyTable
