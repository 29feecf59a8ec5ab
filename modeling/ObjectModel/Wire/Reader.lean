import ObjectModel.Wire.Fault
import ObjectModel.Wire.Item

/-!
# Reading an archive

A reader takes items off the front of the bytes that are still unread. It
never reads past their end: a missing byte is a fault, and what was taken
before the fault stays taken. Counts are checked against the bytes left
before anything is made room for (`checkCount`).

* `Kind.read`: reads one item of a kind, as the `Datum` it stands for.
-/

namespace ObjectModel.Wire

/-- A computation that takes bytes off the front of its input. -/
abbrev Reader := ExceptT Fault (StateM (List UInt8))

/-- Takes `n` bytes. -/
def takeBytes (n : Nat) : Reader (List UInt8) := do
  let unread ← get
  let bytes := unread.take n
  if bytes.length < n then
    throw (.bufferTooShort n unread.length)
  set (unread.drop n)
  return bytes

/-- Takes a number of `n` bytes. -/
def takeNat (n : Nat) : Reader Nat := do
  return ofLittleEndian (← takeBytes n)

def takeBool : Reader Bool := do
  return (← takeNat 1) != 0

def takeU8 : Reader UInt8 := do
  return UInt8.ofNat (← takeNat 1)

def takeU16 : Reader UInt16 := do
  return UInt16.ofNat (← takeNat 2)

def takeI16 : Reader Int16 := do
  return (← takeU16).toInt16

def takeU32 : Reader UInt32 := do
  return UInt32.ofNat (← takeNat 4)

def takeI32 : Reader Int32 := do
  return (← takeU32).toInt32

def takeU64 : Reader UInt64 := do
  return UInt64.ofNat (← takeNat 8)

def takeI64 : Reader Int64 := do
  return (← takeU64).toInt64

/-- Takes a text: its length, then its bytes. -/
def takeText : Reader String := do
  let length ← takeNat 4
  let bytes ← takeBytes length
  match String.fromUTF8? ⟨bytes.toArray⟩ with
  | some s => return s
  | none => throw (.invalidUtf8 length)

/-- The bytes left can hold `count` elements of at least `minSize` bytes. -/
def checkCount (count minSize : Nat) : Reader Unit := do
  let unread ← get
  if unread.length < count * minSize then
    throw (.countTooLarge count minSize unread.length)

/-- Takes the number of elements that follow. -/
def takeCount (minSize : Nat) : Reader Nat := do
  let count ← takeNat 4
  checkCount count minSize
  return count

/-- The bytes of a reference. -/
def refSize : Nat := 8

/-- Takes a reference. -/
def takeRef : Reader (Option Ref) := do
  let tag ← takeNat 4
  let index ← takeNat 4
  return Ref.ofWire tag index

/-- Takes the preamble, which has to be one that this version reads. -/
def takePreamble : Reader Preamble := do
  let magic ← takeU32
  if magic ≠ Preamble.currentMagic then
    throw (.badMagic Preamble.currentMagic magic)
  let version ← takeU16
  if Preamble.currentVersion < version then
    throw (.unsupportedVersion version Preamble.currentVersion)
  return ⟨magic, version, ← takeU16⟩

/-- What kinds of items there are. -/
inductive Kind
  | bool | u8 | u16 | i16 | u32 | i32 | u64 | i64 | text | ref | preamble
deriving DecidableEq, Repr

/-- What an item stands for. -/
inductive Datum
  | bool (b : Bool)
  | u8 (n : UInt8)
  | u16 (n : UInt16)
  | i16 (n : Int16)
  | u32 (n : UInt32)
  | i32 (n : Int32)
  | u64 (n : UInt64)
  | i64 (n : Int64)
  | text (s : String)
  | ref (target : Option Ref)
  | preamble (p : Preamble)
deriving DecidableEq, Repr

/-- Reads an item of a kind. -/
def Kind.read : Kind → Reader Datum
  | bool => return .bool (← takeBool)
  | u8 => return .u8 (← takeU8)
  | u16 => return .u16 (← takeU16)
  | i16 => return .i16 (← takeI16)
  | u32 => return .u32 (← takeU32)
  | i32 => return .i32 (← takeI32)
  | u64 => return .u64 (← takeU64)
  | i64 => return .i64 (← takeI64)
  | text => return .text (← takeText)
  | ref => return .ref (← takeRef)
  | preamble => return .preamble (← takePreamble)

/-- The kind of an item. -/
def Item.kind : Item → Kind
  | bool _ => .bool
  | u8 _ => .u8
  | u16 _ => .u16
  | i16 _ => .i16
  | u32 _ => .u32
  | i32 _ => .i32
  | u64 _ => .u64
  | i64 _ => .i64
  | text _ => .text
  | ref _ _ => .ref
  | preamble _ => .preamble

/-- What an item stands for. -/
def Item.datum : Item → Datum
  | bool b => .bool b
  | u8 n => .u8 n
  | u16 n => .u16 n
  | i16 n => .i16 n
  | u32 n => .u32 n
  | i32 n => .i32 n
  | u64 n => .u64 n
  | i64 n => .i64 n
  | text s => .text s
  | ref tag index => .ref (Ref.ofWire tag.toNat index.toNat)
  | preamble p => .preamble p

end ObjectModel.Wire
