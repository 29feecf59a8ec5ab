import ObjectModel.Graph.Access
import ObjectModel.Naming.Hardware
import ObjectModel.Schema.Declarations

/-!
# Models of any size

A schema with as many families of entities as are asked for, each three levels
deep and all below one abstract root, and a graph over it with as many objects
in each family as are asked for. The objects of a family form a chain, and the
heads of the chains a ring.

* `Synthetic.resolution`: the schema, resolved.
* `Synthetic.graph`: the graph, and the heads of its chains.
-/

namespace ObjectModel.Synthetic

/-- The concrete entity of the family `k`. -/
def leafName (k : Nat) : String := s!"n{k}_leaf"

/-- The entity between the root and the leaf of the family `k`. -/
def baseName (k : Nat) : String := s!"n{k}_base"

/-- The root of all families. -/
def root : EntityDecl where
  name := "node"
  isAbstract := true
  members := [
    (Member.plain "name" (.scalar .string)).withTag .nameIdentifier,
    (Member.plain "line" (.scalar .uint32)).withTag .provenance]

/-- The entities of the family `k`. -/
def family (families k : Nat) : List EntityDecl := [
  { name := baseName k
    base := some "node"
    isAbstract := true
    members := [
      .plain s!"size{k}" (.scalar .int32),
      .plain s!"label{k}" (.scalar .string)] },
  { name := leafName k
    base := some (baseName k)
    members := [
      .plain s!"flag{k}" (.scalar .bool),
      .plain s!"items{k}" (.union "nodes" .many),
      .plain s!"next{k}" (.object (leafName ((k + 1) % families)) .one)] }]

/-- The declarations of a schema with so many families. -/
def declarations (families : Nat) : Declarations where
  name := "synthetic"
  entities := root :: (List.range families).flatMap (family families)
  groups := [⟨"nodes", [.family "node"]⟩]

/-- A schema with so many families, resolved. -/
def resolution (families : Nat) : Except SchemaError Resolution := do
  Resolution.ofSchema (← (declarations families).toSchema .hardware)

/-- Adds the object `i` to the chain of the family `k` whose head and last
    object are given. -/
def extendChain (k : Nat) (chain : Graph × Option (Ref × Ref)) (i : Nat) :
    Except GraphError (Graph × Option (Ref × Ref)) := do
  let (r, g) ← chain.1.create (leafName k)
  let g ← g.set r "name" (.text s!"obj_{k}_{i}")
  let g ← g.set r s!"size{k}" (.int (Int64.ofNat i))
  let g ← g.set r s!"flag{k}" (.bool (i % 2 == 0))
  match chain.2 with
  | some (head, last) => return (← g.push last s!"items{k}" r, some (head, r))
  | none => return (g, some (r, r))

/-- Adds the chain of the family `k`, and its head to the heads. -/
def addChain (width : Nat) (state : Graph × List Ref) (k : Nat) :
    Except GraphError (Graph × List Ref) := do
  let (g, chain) ← (List.range width).foldlM (extendChain k) (state.1, none)
  return (g, state.2 ++ (chain.map (·.1)).toList)

/-- The graph with chains of the given length, and their heads. -/
def graph (r : Resolution) (width : Nat) : Except GraphError (Graph × List Ref) := do
  let empty ← Graph.ofResolution r .empty
  let families := List.range r.schema.concrete.length
  let (g, heads) ← families.foldlM (addChain width) (empty, [])
  let g ← heads.zipIdx.foldlM
    (fun g (head, k) => g.set head s!"next{k}" (.ref heads[(k + 1) % heads.length]?)) g
  return (g, heads)

end ObjectModel.Synthetic
