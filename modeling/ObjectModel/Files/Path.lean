import ObjectModel.SortedMap

/-!
# Paths

A path is written with a slash between its steps. Two spellings are one path
if they have the same steps (`Path.steps`): slashes in a row count once, and so
does one at the end; a dot is no step, unless the path starts with it. Paths
are ordered step by step, so that `a/b` comes before `a-b`.
-/

namespace ObjectModel.Files

/-- A step of a path. -/
inductive Step
  /-- To the root, from which the path starts. -/
  | root
  /-- To where the path starts. -/
  | here
  /-- To the directory above. -/
  | up
  /-- To what has the name in the directory. -/
  | named (name : String)
deriving DecidableEq, Repr

namespace Step

/-- What steps are ordered by. -/
def rank : Step → Nat × String
  | root => (0, "")
  | here => (1, "")
  | up => (2, "")
  | named name => (3, name)

theorem rank_injective {a b : Step} (h : a.rank = b.rank) : a = b := by
  cases a <;> cases b <;> simp_all [rank]

instance : Ord Step := ⟨fun a b => compare a.rank b.rank⟩

instance : Std.TransOrd Step := inferInstanceAs (Std.TransCmp (compareOn rank))

instance : Std.LawfulEqOrd Step where
  compare_self {a} := show compare a.rank a.rank = .eq from Std.ReflCmp.compare_self
  eq_of_compare {a b} h :=
    rank_injective (Std.LawfulEqCmp.eq_of_compare (show compare a.rank b.rank = .eq from h))

end Step

namespace Path

/-- The parts of a text between slashes; `part` is what there is of the first,
    its end first. -/
def split (part : List Char) : List Char → List String
  | [] => [String.ofList part.reverse]
  | c :: r =>
    if c = '/' then String.ofList part.reverse :: split [] r else split (c :: part) r

/-- The parts of a path between slashes. -/
def parts (path : String) : List String := split [] path.toList

/-- The step of a part, if it is one. -/
def step? : String → Option Step
  | "" | "." => none
  | ".." => some .up
  | name => some (.named name)

/-- The first step of a path that says from where it starts. -/
def start (path : String) : List Step :=
  if path.toList.head? = some '/' then [.root]
  else if (parts path).head? = some "." then [.here]
  else []

/-- The steps of a path. -/
def steps (path : String) : List Step := start path ++ (parts path).filterMap step?

end Path

end ObjectModel.Files
