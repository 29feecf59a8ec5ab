import ObjectModel.Generation.Generator

/-!
# Writing files

Generated files go to a destination. It compares what it is given with what it
has, so that a file that would stay the same is left alone.

* `writeAll`: writes files in turn and counts what was done (`Summary`).
-/

namespace ObjectModel.Files

/-- What writing a file did. -/
inductive Outcome
  /-- There was no such file. -/
  | created
  /-- There was, with other content. -/
  | rewritten
  /-- There was, with this content. -/
  | unchanged
deriving DecidableEq, Repr

/-- The name of an outcome. -/
def Outcome.name : Outcome → String
  | created => "created"
  | rewritten => "rewritten"
  | unchanged => "unchanged"

/-- What writing content does where there is `before`. -/
def Outcome.of (before : Option String) (content : String) : Outcome :=
  match before with
  | none => created
  | some old => if old = content then unchanged else rewritten

/-- No file can be at a path. -/
structure Refused where
  path : String
deriving DecidableEq, Repr

/-- A destination of files. -/
class Destination (σ : Type) where
  /-- Writes content at a path. -/
  write : String → String → ExceptT Refused (StateM σ) Outcome

/-- How many files were written, and how. -/
structure Summary where
  created : Nat := 0
  rewritten : Nat := 0
  unchanged : Nat := 0
deriving DecidableEq, Repr

namespace Summary

/-- The files that are not what they were. -/
def changed (s : Summary) : Nat := s.created + s.rewritten

/-- One file more. -/
def add (s : Summary) : Outcome → Summary
  | .created => { s with created := s.created + 1 }
  | .rewritten => { s with rewritten := s.rewritten + 1 }
  | .unchanged => { s with unchanged := s.unchanged + 1 }

end Summary

/-- Writes files in turn, up to the first that is refused. -/
def writeAll {σ : Type} [Destination σ] (artifacts : List Generation.Artifact) :
    ExceptT Refused (StateM σ) Summary :=
  artifacts.foldlM (fun s a => return s.add (← Destination.write a.path a.content)) {}

end ObjectModel.Files
