import ObjectModel.Graph.Access

/-!
# Comparing objects

Two objects are compared with all that they refer to, level by level from the
root of the hierarchy, on each level scalars first. Headers do not count, nor
do members that the policy of the left graph excludes. Lists compare by length
and then element by element, a list that was never made being empty.

A pair of objects that is met again counts as equal: if it is not, the first
meeting tells. The first pair found to differ in itself is kept.

* `Graph.compare`: the order of two objects, and the pair that decided it.
-/

namespace ObjectModel

/-- What is known in the course of a comparison. -/
structure Pairing where
  /-- The pairs that have been met. -/
  met : List (Ref × Ref) := []
  /-- The first pair that was found to differ. -/
  mismatch : Option (Ref × Ref) := none
deriving DecidableEq, Repr

namespace Pairing

/-- Meets a pair, and tells whether it is new. -/
def enter (p : Pairing) (a b : Ref) : Bool × Pairing :=
  if (a, b) ∈ p.met then (false, p) else (true, { p with met := p.met ++ [(a, b)] })

/-- Keeps a pair if it differs and is the first to do so. -/
def fail (p : Pairing) (a b : Ref) (o : Ordering) : Ordering × Pairing :=
  (o, if o ≠ .eq ∧ p.mismatch.isNone then { p with mismatch := some (a, b) } else p)

end Pairing

/-- The outcome of a comparison. -/
structure Comparison where
  ordering : Ordering
  /-- The pair that differs. -/
  mismatch : Option (Ref × Ref)
deriving DecidableEq, Repr

/-- The objects are equal. -/
def Comparison.isEqual (c : Comparison) : Bool := c.ordering == .eq

namespace Graph

/-- A part of a comparison. -/
abbrev Comparing := StateT Pairing (Except GraphError)

/-- Meets a pair, and tells whether it is new. -/
def Comparing.enter (a b : Ref) : Comparing Bool := modifyGet (·.enter a b)

/-- The order of a pair that may differ in itself. -/
def Comparing.decide (a b : Ref) (o : Ordering) : Comparing Ordering := modifyGet (·.fail a b o)

/-- The first order under `f` other than equality. -/
def firstDifference {α : Type} (f : α → Comparing Ordering) : List α → Comparing Ordering
  | [] => pure .eq
  | a :: r => do
    match ← f a with
    | .eq => firstDifference f r
    | o => return o

/-- The members that are compared on one level, scalars first. -/
def levelMembers (policy : PolicyTable) (level : Entity) : List Member :=
  let members := level.members.filter fun m => !policy.skipsCompare m
  members.filter (!·.isReference) ++ members.filter (·.isReference)

/-- The members that are compared in objects of an entity, in order. -/
def comparedMembers (m : Model) (e : Entity) : List Member :=
  (m.schema.levels e).flatMap (levelMembers m.policy)

/-- Compares what `a` and `b` hold in a reference member, the objects by
    `compare`. -/
def compareReferences (compare : Ref → Ref → Comparing Ordering) (a b : Ref) :
    Value → Value → Comparing Ordering
  | .ref (some c), .ref (some d) => compare c d
  | .ref c, .ref d => Comparing.decide a b (Ord.compare c.isSome.toNat d.isSome.toNat)
  | .refs c, .refs d => do
    let c := c.getD []
    let d := d.getD []
    match ← Comparing.decide a b (Ord.compare c.length d.length) with
    | .eq =>
      -- Elements that differ have been kept by now, so nothing is kept of the list.
      firstDifference (fun (x, y) => compare x y) (c.zip d) >>= Comparing.decide a b
    | o => return o
  | v, w => Comparing.decide a b (v.scalarCompare w)

/-- Compares what `a` and `b` hold in a member. -/
def compareMember (compare : Ref → Ref → Comparing Ordering) (a b : Ref) (m : Member)
    (v w : Value) : Comparing Ordering :=
  if m.isReference then compareReferences compare a b v w
  else Comparing.decide a b (v.scalarCompare w)

variable (left right : Graph)

/-- Compares `a` and `b`, what they refer to by `compare`. -/
def compareWith (compare : Ref → Ref → Comparing Ordering) (a b : Ref) : Comparing Ordering := do
  if a.tag ≠ b.tag then
    Comparing.decide a b (Ord.compare a.tag b.tag)
  else if ← Comparing.enter a b then
    let e ← left.entity a
    let l ← left.layout a
    let o ← left.object a
    let p ← right.object b
    firstDifference (fun m =>
      match l.slotOf? m.name with
      | some i => compareMember compare a b m (o.values.getD i default) (p.values.getD i default)
      | none => pure .eq) (comparedMembers left.model e)
  else
    return .eq

/-- Compares `a` and `b` along at most `n` pairs. -/
def compareUpTo : Nat → Ref → Ref → Comparing Ordering
  | 0, _, _ => throw .depthExceeded
  | n + 1, a, b => compareWith left right (compareUpTo n) a b

/-- Compares `a` in `left` with `b` in `right`. The pairs that lead from one to
    the next differ, so there are no more of them than pairs of objects. -/
def compare (a b : Ref) : Except GraphError Comparison := do
  let (ordering, pairing) ← (compareUpTo left right (left.size * right.size + 1) a b).run {}
  return ⟨ordering, pairing.mismatch⟩

end Graph

end ObjectModel
