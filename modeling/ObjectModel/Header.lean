import ObjectModel.Reference

/-!
# Object headers

What every object carries whatever its entity: its id, where it was declared,
its owner, and the objects it has adopted. None of it takes part in
comparison.
-/

namespace ObjectModel

/-- A place in a source file. -/
structure Position where
  line : UInt32
  column : UInt16
deriving DecidableEq, Repr, Inhabited

/-- The record common to all objects. -/
structure Header where
  /-- The id, unique in the life of a graph; ids are handed out from one. -/
  id : UInt32
  /-- The owner. -/
  parent : Option Ref := none
  /-- The source file. -/
  file : String := ""
  /-- Where the declaration starts. -/
  start : Position := ⟨0, 0⟩
  /-- Where the declaration ends. -/
  stop : Position := ⟨0, 0⟩
  /-- The adopted objects, of whatever entity, in order of adoption. -/
  children : List Ref := []
deriving DecidableEq, Repr, Inhabited

/-- The header with the given span of source text. -/
def Header.withSpan (h : Header) (start stop : Position) : Header :=
  { h with start, stop }

end ObjectModel
