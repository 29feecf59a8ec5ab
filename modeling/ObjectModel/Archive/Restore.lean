import ObjectModel.Graph.Basic
import ObjectModel.Symbols
import ObjectModel.Wire.Reader

/-!
# Restoring a graph

An archive is read item by item in the order in which it was written
(`ObjectModel.Archive.Save`). Nothing in it is taken on trust: no more objects,
symbols or elements are announced than the bytes left can hold, and a reference
has to name an object of the archive.

Lists of references are made room for by their announced length. Only the
children of an object are put into a list that is given room as it grows
(`Growing`).

* `Model.restore`: the graph in an archive, and its roots.
-/

namespace ObjectModel

open Wire

/-- A list that is given room as it grows. -/
structure Growing (α : Type) where
  elements : List α
  /-- The number of elements that there is room for. -/
  capacity : Nat
  fits : elements.length ≤ capacity
  thrifty : capacity ≤ max 4 (2 * elements.length)

namespace Growing

variable {α : Type}

/-- The empty list, which is given no room. -/
def empty : Growing α := ⟨[], 0, Nat.zero_le _, Nat.zero_le _⟩

/-- Puts an element behind the others. If the list is full, its room is doubled, and
    made such that it holds four elements at least. -/
def push (l : Growing α) (a : α) : Growing α where
  elements := l.elements ++ [a]
  capacity :=
    if l.elements.length < l.capacity then l.capacity
    else max (max (2 * l.capacity) (l.elements.length + 1)) 4
  fits := by
    rw [List.length_append, List.length_singleton]
    split <;> omega
  thrifty := by
    have hfits := l.fits
    have hthrifty := l.thrifty
    rw [List.length_append, List.length_singleton]
    split <;> omega

end Growing

/-- The most room that lists have been given, as numbers of elements. -/
structure Room where
  /-- The room of lists that are given it before they are read. -/
  reserved : Nat := 0
  /-- The number of children in a list. -/
  children : Nat := 0
  /-- The room of lists of children, which grow as they are read. -/
  grown : Nat := 0

namespace Room

variable (room : Room)

/-- Room is made for `n` elements. -/
def reserve (n : Nat) : Room := { room with reserved := max room.reserved n }

/-- A list of children has grown. -/
def grow (l : Growing Ref) : Room :=
  { room with children := max room.children l.elements.length, grown := max room.grown l.capacity }

end Room

/-- How far an archive has been restored. -/
structure Restoration where
  /-- The bytes that have not been read. -/
  unread : List UInt8
  symbols : SymbolTable := {}
  graph : Graph
  room : Room := {}

/-- A part of restoring an archive, which may fail half-way. -/
abbrev Restoring := ExceptT GraphError (StateM Restoration)

namespace Restoring

/-- Reads from the archive. -/
def take {α : Type} (r : Reader α) : Restoring α := fun s =>
  let (result, unread) := r.run s.unread
  (result.mapError .archive, { s with unread })

/-- Reads from the graph so far. -/
def fromGraph {α : Type} (f : Graph → Except GraphError α) : Restoring α := fun s =>
  (f s.graph, s)

/-- Changes the graph, unless the change fails. -/
def changeGraph (f : Graph → Except GraphError Graph) : Restoring Unit := fun s =>
  match f s.graph with
  | .ok graph => (.ok (), { s with graph })
  | .error e => (.error e, s)

/-- Does the same `n` times. -/
def times {α : Type} (x : Restoring α) : Nat → Restoring (List α)
  | 0 => pure []
  | n + 1 => return (← x) :: (← times x n)

/-- Reads the length of a list of references, and makes room for them. -/
def takeLength : Restoring Nat := do
  let n ← take (takeCount refSize)
  modifyThe Restoration fun s => { s with room := s.room.reserve n }
  return n

/-- A reference names an object. -/
def checkRef (r : Ref) : Restoring Unit :=
  fromGraph fun g =>
    if g.contains r then pure () else throw (.archive (.indexOutOfRange r (g.count r.tag)))

/-- Reads a reference to an object of the archive. -/
def takeTarget : Restoring (Option Ref) := do
  let target ← take takeRef
  if let some r := target then
    checkRef r
  return target

/-- Reads a list of references; one to no object is left out. -/
def takeTargets : Restoring (List Ref) := do
  let n ← takeLength
  return (← times takeTarget n).filterMap id

/-- Reads `n` references and puts them behind those of a list, one by one; one to no object
    is left out. -/
def pushTargets (l : Growing Ref) : Nat → Restoring (List Ref)
  | 0 => pure l.elements
  | n + 1 => do
    match ← takeTarget with
    | none => pushTargets l n
    | some r =>
      modifyThe Restoration fun s => { s with room := s.room.grow (l.push r) }
      pushTargets (l.push r) n

/-- Reads the children of an object. No room is made for them by their announced number. -/
def takeChildren : Restoring (List Ref) := do
  let n ← take (takeCount refSize)
  pushTargets .empty n

/-- Reads a text by its symbol. -/
def takeSymbol : Restoring String := do
  let id ← take (takeNat 4)
  match (← getThe Restoration).symbols.resolve? id with
  | some s => return s
  | none => throw (.archive (.unknownSymbol id))

/-- The least number of bytes of a symbol: those of its length. -/
def symbolMinSize : Nat := 4

/-- Reads a symbol. -/
def takeText : Restoring Unit := do
  let s ← take Wire.takeText
  modifyThe Restoration fun st => { st with symbols := (st.symbols.intern s).2 }

/-- Reads all symbols. -/
def takeSymbols : Restoring Unit := do
  let n ← take (takeCount symbolMinSize)
  let _ ← times takeText n

/-- Reads the roots; one that is no object is left out. -/
def takeRoots : Restoring (List Ref) := do
  let n ← takeLength
  return (← times (take takeRef) n).filterMap id

/-- The least number of bytes of an object: those of a header without
    children. -/
def objectMinSize : Nat := 4 + refSize + 4 + 4 + 2 + 4 + 2 + 4

/-- Makes an object with the values of a new one. -/
def makeObject (tag : Nat) : Restoring Unit :=
  changeGraph fun g => (·.2) <$> g.createTag tag

/-- Reads the numbers of objects of the tags, and makes the objects. There are
    `total` already. The result are the numbers read. -/
def takeCounts (total : Nat) : List Nat → Restoring (List (Nat × Nat))
  | [] => pure []
  | expected :: tags => do
    let tag ← take (takeNat 4)
    if tag ≠ expected then
      throw (.archive (.unknownTypeTag tag))
    let count ← take (takeNat 4)
    take (checkCount (total + count) objectMinSize)
    let _ ← times (makeObject tag) count
    return (tag, count) :: (← takeCounts (total + count) tags)

/-- Reads a header. -/
def takeHeader : Restoring Header := do
  let id ← take takeU32
  let parent ← takeTarget
  let file ← takeSymbol
  let start : Position := ⟨← take takeU32, ← take takeU16⟩
  let stop : Position := ⟨← take takeU32, ← take takeU16⟩
  let children ← takeChildren
  return { id, parent, file, start, stop, children }

/-- Reads the value of a member. -/
def takeValue (m : Member) : Restoring Value := do
  match m.content with
  | .scalar .bool => return .bool (← take takeBool)
  | .scalar .int16 => return .int (← take takeI16).toInt64
  | .scalar .int32 => return .int (← take takeI32).toInt64
  | .scalar .int64 => return .int (← take takeI64)
  | .scalar .uint16 => return .uint (← take takeU16).toUInt64
  | .scalar .uint32 => return .uint (← take takeU32).toUInt64
  | .scalar .uint64 => return .uint (← take takeU64)
  | .scalar .string | .scalar .value | .scalar .delay => return .text (← takeSymbol)
  | .object _ .many | .union _ .many =>
    if ← take takeBool then
      return .refs (some (← takeTargets))
    return .refs none
  | .object _ .one | .union _ .one => return .ref (← takeTarget)

/-- Reads an object, which has been made. -/
def takeObject (r : Ref) : Restoring Unit := do
  let header ← takeHeader
  changeGraph (·.updateHeader r fun _ => header)
  let members ← fromGraph (·.members r)
  let values ← members.mapM takeValue
  changeGraph (·.setValues r values)

/-- The highest id of an object. -/
def maxId (g : Graph) : UInt32 :=
  g.stores.flatten.foldl (fun id o => max id o.header.id) 0

/-- Reads an archive. -/
def takeArchive : Restoring (List Ref) := do
  let _ ← take takePreamble
  takeSymbols
  let roots ← takeRoots
  let tags ← fromGraph fun g => pure (g.schema.concrete.map (·.tag))
  let counts ← takeCounts 0 tags
  counts.forM fun (tag, count) => (List.range count).forM fun index => takeObject ⟨tag, index⟩
  changeGraph fun g => pure { g with lastId := maxId g }
  roots.forM checkRef
  return roots

end Restoring

/-- The state before anything of an archive has been read. -/
def Restoration.start (m : Model) (archive : List UInt8) : Restoration :=
  { unread := archive, graph := .empty m }

/-- The graph in an archive, and its roots. -/
def Model.restore (m : Model) (archive : List UInt8) : Except GraphError (Graph × List Ref) :=
  let (result, s) := Restoring.takeArchive.run (.start m archive)
  result.map (s.graph, ·)

end ObjectModel
