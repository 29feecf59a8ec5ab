import ObjectModel.Text.CaseTable

/-!
# Upper and lower case

The case of a single character, by the full mappings of Unicode: the result
is a sequence, as the upper case of `ß` is `SS`. Nothing around the character
is looked at.
-/

namespace ObjectModel

/-- The counterpart of a code point in a table of runs. -/
def CaseRun.apply? (runs : List CaseRun) (c : Nat) : Option Nat :=
  (runs.find? fun r => r.first ≤ c && c ≤ r.last && (c - r.first) % r.step == 0).map fun r =>
    ((c : Int) + r.shift).toNat

/-- The counterpart of `c` outside ASCII, or `c` itself. -/
def mapCase (runs : List CaseRun) (sequences : List (Nat × List Nat)) (c : Char) : List Char :=
  match sequences.lookup c.toNat with
  | some cs => cs.map Char.ofNat
  | none => match CaseRun.apply? runs c.toNat with
    | some n => [Char.ofNat n]
    | none => [c]

/-- The upper case of a character. -/
def upperCase (c : Char) : List Char :=
  if c.toNat < 128 then [c.toUpper] else mapCase upperRuns upperSequences c

/-- The lower case of a character. -/
def lowerCase (c : Char) : List Char :=
  if c.toNat < 128 then [c.toLower] else mapCase lowerRuns lowerSequences c

end ObjectModel
