import ObjectModel.Naming.Spelling
import ObjectModel.Schema.Basic

/-!
# Names of generated things

From the name of an entity or a member in the schema come the names of all
that is generated for it. A list is named in the plural. Irregular names are
listed as overrides, looked up in capitals both before and after the plural
is formed.

* `Naming.className`, `Naming.typeStem`: for an entity.
* `Naming.accessorName`, `Naming.memberName`, `Naming.fieldStem`,
  `Naming.fieldName`: for a member.
-/

namespace ObjectModel

/-- Irregular names in capitals, with what stands for each; of two for one
    name the first counts. -/
abbrev Overrides := List (String × String)

/-- The name that stands for `name`. -/
def Overrides.apply (o : Overrides) (name : String) : String := (o.lookup name).getD name

/-- How names are derived. -/
structure Naming where
  /-- Irregular names of entities. -/
  classes : Overrides := []
  /-- Irregular names of members in capitals. -/
  accessors : Overrides := []
  /-- Irregular names of members in the wire schema. -/
  members : Overrides := []
deriving DecidableEq, Repr

namespace Naming

/-- Nothing is irregular. -/
def regular : Naming := {}

/-- The name of a member in capitals, in the plural for a list. -/
def plural (o : Overrides) (raw : String) (card : Cardinality) : String :=
  let name := o.apply (Spelling.pascal raw)
  o.apply (if card = .many ∧ name.toList.getLast? ≠ some 's' then name ++ "s" else name)

variable (n : Naming)

/-- The name of an entity in capitals. -/
def className (raw : String) : String := n.classes.apply (Spelling.pascal raw)

/-- The name of a member in capitals. -/
def accessorName (raw : String) (card : Cardinality) : String := plural n.accessors raw card

/-- The name of a member in the wire schema, its first letter lowered. -/
def memberName (raw : String) (card : Cardinality) : String :=
  Spelling.lowerFirst (plural n.members raw card)

/-- What the names of the functions for a member are made of. -/
def fieldStem (raw : String) (card : Cardinality) : String :=
  Spelling.snake (n.accessorName raw card)

/-- The name of a member's field. -/
def fieldName (raw : String) (card : Cardinality) : String := Spelling.escape (n.fieldStem raw card)

/-- What the names of the functions for an entity are made of. -/
def typeStem (raw : String) : String := Spelling.snake (n.className raw)

end Naming

end ObjectModel
