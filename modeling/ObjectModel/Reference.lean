/-!
# Object references

An object is named by the type tag of its entity and its position among the
objects of that tag. References are ordered by tag, then by position
(`Ref.compare_eq`), which is the order in which a graph lists its objects.

In an archive the position is written one higher, zero standing for no
object: `Ref.ofWire` reads `Ref.wireIndex` back (`Ref.ofWire_wireIndex`).
-/

namespace ObjectModel

/-- The name of an object. -/
structure Ref where
  /-- The type tag of the object's entity. -/
  tag : Nat
  /-- The position among the objects of that tag. -/
  index : Nat
deriving DecidableEq, Repr, Inhabited

namespace Ref

/-- By tag, then by position. -/
instance : Ord Ref := ⟨compareLex (compareOn tag) (compareOn index)⟩

theorem compare_eq (a b : Ref) :
    compare a b = (compare a.tag b.tag).then (compare a.index b.index) := rfl

instance : Std.TransOrd Ref :=
  inferInstanceAs (Std.TransCmp (compareLex (compareOn tag) (compareOn index)))

instance : Std.LawfulEqOrd Ref where
  eq_of_compare {a b} h := by
    rw [compare_eq, Ordering.then_eq_eq] at h
    cases a; cases b
    simp_all

/-- The position as an archive holds it. -/
def wireIndex (r : Ref) : Nat := r.index + 1

/-- The reference an archive means by a tag and a position, if any. -/
def ofWire (tag : Nat) : Nat → Option Ref
  | 0 => none
  | index + 1 => some ⟨tag, index⟩

/-- What was written for a reference is read back as it. -/
theorem ofWire_wireIndex (r : Ref) : ofWire r.tag r.wireIndex = some r := rfl

/-- The reference as it is shown to a reader. -/
def text (r : Ref) : String := s!"#{r.tag}:{r.index}"

end Ref

end ObjectModel
