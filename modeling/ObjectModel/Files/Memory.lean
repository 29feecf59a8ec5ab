import ObjectModel.Files.Path
import ObjectModel.Files.Writing

/-!
# Files in memory

A destination that keeps files by path, and remembers what each write did.
-/

namespace ObjectModel.Files

/-- A file in memory. -/
structure StoredFile where
  /-- The path as it was spelt when the file was first written. -/
  path : String
  content : String
deriving DecidableEq, Repr

/-- Files in memory. -/
structure Memory where
  files : SortedMap (List Step) StoredFile := ∅
  /-- What the writes so far did, in order. -/
  outcomes : List (String × Outcome) := []
deriving DecidableEq

namespace Memory

variable (m : Memory)

/-- The content of the file at a path. -/
def content? (path : String) : Option String := (m.files.get? (Path.steps path)).map (·.content)

/-- The files by path, with the content of each. -/
def stored : List (String × String) := m.files.entries.map fun e => (e.2.path, e.2.content)

/-- The files alone, without what the writes did. -/
def clearOutcomes : Memory := { m with outcomes := [] }

/-- The files with one more. -/
def put (path content : String) : SortedMap (List Step) StoredFile :=
  let first := ((m.files.get? (Path.steps path)).map (·.path)).getD path
  m.files.insert (Path.steps path) ⟨first, content⟩

/-- Writes content at a path. -/
def write (path content : String) : Outcome × Memory :=
  let outcome := Outcome.of (m.content? path) content
  (outcome, {
    files := if outcome = .unchanged then m.files else m.put path content
    outcomes := m.outcomes ++ [(path, outcome)] })

instance : Destination Memory where
  write path content := fun m => ((m.write path content).map .ok id)

end Memory

end ObjectModel.Files
