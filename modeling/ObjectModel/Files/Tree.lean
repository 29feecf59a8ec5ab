import ObjectModel.Files.Path
import ObjectModel.Files.Writing

/-!
# Directories

A tree of directories with files in them, as a destination. A path is followed
from the top one directory after the other. To write a file, what is there is
read first; then the directories above it are made where they are missing, and
the file is put into the last of them. Directories that were made stay even if
the file is refused after all.

A path that ends with a slash or a dot can only mean a directory, so no file is
written there. Nor is one above the top, or by a name or a path that is too
long.

* `Node.at?`, `Node.put`: what there is at a place, and putting something there.
* `Tree.read?`, `Tree.write`: reading and writing a file by its path.
-/

namespace ObjectModel.Files

/-- What a name in a directory stands for. -/
inductive Node
  | file (content : String)
  /-- A directory, with what the names in it stand for. -/
  | directory (entries : List (String × Node))
deriving Repr, Inhabited

namespace Node

/-- It is a directory. -/
def isDirectory : Node → Bool
  | file _ => false
  | directory _ => true

/-- The entries with `node` under a name, in the place of what was there. -/
def enter (name : String) (node : Node) : List (String × Node) → List (String × Node)
  | [] => [(name, node)]
  | e :: r => if e.1 = name then (name, node) :: r else e :: enter name node r

/-- What the names that lead to a place lead to. -/
def at? : List String → Node → Option Node
  | [], n => some n
  | _ :: _, file _ => none
  | name :: place, directory entries => (entries.lookup name).bind (at? place)

/-- Puts `node` at a place. Below a file there is none. -/
def put (node : Node) : List String → Node → Node
  | [], _ => node
  | _ :: _, file content => file content
  | name :: place, directory entries =>
    directory (enter name (put node place ((entries.lookup name).getD (directory []))) entries)

mutual

/-- The places of the files in a node. -/
def filePlaces : Node → List (List String)
  | file _ => [[]]
  | directory entries => entryPlaces entries

/-- The places of the files in the entries of a directory. -/
def entryPlaces : List (String × Node) → List (List String)
  | [] => []
  | (name, node) :: r => (filePlaces node).map (name :: ·) ++ entryPlaces r

end

end Node

/-- Directories and files below a top directory. -/
structure Tree where
  top : Node := .directory []
deriving Repr

/-- Why following a path came to nothing. -/
inductive Lost
  /-- A name stands for nothing. -/
  | missing
  | refused
deriving DecidableEq, Repr

namespace Tree

/-- The most bytes that a name may have. -/
def maxNameSize : Nat := 255

/-- The most bytes that a path may have, that of the top included. -/
def maxPathSize : Nat := 4095

/-- The bytes of the path of the top. -/
def topSize : Nat := 15

/-- The bytes of the name under which a file is written before it is put into
    its place. -/
def stagingSize : Nat := 10

/-- The name can be one in a directory. -/
def isAllowed (name : String) : Bool := name.utf8ByteSize ≤ maxNameSize

/-- The bytes of a path with these parts below the top. -/
def pathSize (parts : List String) : Nat :=
  parts.foldl (fun n part => n + 1 + part.utf8ByteSize) topSize

/-- The parts of a path. One that starts from the root, has a zero character in
    it or is too long is no path below the top. -/
def parts? (path : String) : Option (List String) :=
  let parts := Path.parts path
  if path.toList.head? = some '/' ∨ '\x00' ∈ path.toList ∨ maxPathSize < pathSize parts then none
  else some parts

/-- The part leads nowhere else. -/
def isIdle (part : String) : Bool := part = "" || part = "."

variable (t : Tree)

/-- What there is at a place. -/
def node? (place : List String) : Option Node := t.top.at? place

/-- There is a directory at a place. -/
def hasDirectory (place : List String) : Bool := (t.node? place).any Node.isDirectory

/-- Follows parts of a path from `place`. -/
def follow (place : List String) : List String → Except Lost (List String)
  | [] => pure place
  | part :: r => do
    if !t.hasDirectory place then
      throw .refused
    if isIdle part then follow place r
    else if part = ".." then
      if place = [] then throw .refused else follow place.dropLast r
    else if !isAllowed part then throw .refused
    else if (t.node? (place ++ [part])).isNone then throw .missing
    else follow (place ++ [part]) r

/-- The content of the file at the end of the parts. -/
def readParts (parts : List String) : Except Lost String := do
  match t.node? (← t.follow [] parts) with
  | some (.file content) => return content
  | _ => throw .refused

/-- The content of the file at a path. -/
def read? (path : String) : Option String :=
  (parts? path).bind fun parts => (t.readParts parts).toOption

/-- The paths of all files. -/
def files : List String := (t.top.filePlaces.map (String.intercalate "/")).mergeSort

/-- The tree with `node` at a place. -/
def put (place : List String) (node : Node) : Tree := { top := Node.put node place t.top }

/-- What is done to a tree to write a file. -/
abbrev Update := ExceptT Refused (StateM Tree)

/-- Follows parts of a path from `place` and makes the directories that are
    missing. -/
def makeDirectories (path : String) (place : List String) : List String → Update (List String)
  | [] => pure place
  | part :: r => do
    if isIdle part then makeDirectories path place r
    else if part = ".." then
      if place = [] then throw ⟨path⟩ else makeDirectories path place.dropLast r
    else if !isAllowed part then throw ⟨path⟩
    else
      let inner := place ++ [part]
      match (← get).node? inner with
      | some (.directory _) => makeDirectories path inner r
      | some (.file _) => throw ⟨path⟩
      | none =>
        modify (·.put inner (.directory []))
        makeDirectories path inner r

/-- The parts without those at the end that lead nowhere else. -/
def withoutIdleEnd (parts : List String) : List String :=
  (parts.reverse.dropWhile isIdle).reverse

/-- The parts that lead to the directory of what the parts lead to. -/
def above (parts : List String) : List String := withoutIdleEnd (withoutIdleEnd parts).dropLast

/-- The last part, if it can be the name of a file. -/
def fileName? (parts : List String) : Option String :=
  parts.getLast?.filter fun part => !isIdle part && part != ".." && isAllowed part

/-- Puts a file where there is none or another. -/
def place (path : String) (parts : List String) (content : String) : Update Unit := do
  let directory ← makeDirectories path [] (above parts)
  if maxPathSize < pathSize (above parts) + 1 + stagingSize then
    throw ⟨path⟩
  match fileName? parts with
  | none => throw ⟨path⟩
  | some name =>
    if (← get).hasDirectory (directory ++ [name]) then
      throw ⟨path⟩
    modify (·.put (directory ++ [name]) (.file content))

/-- Writes content at a path. -/
def write (path content : String) : Update Outcome := do
  let some parts := parts? path | throw ⟨path⟩
  match (← get).readParts parts with
  | .ok old =>
    if old ≠ content then
      place path parts content
    return Outcome.of (some old) content
  | .error .missing =>
    place path parts content
    return .created
  | .error .refused => throw ⟨path⟩

instance : Destination Tree where
  write := write

end Tree

end ObjectModel.Files
