import ObjectModel.Reference

/-!
# What an archive is made of

An archive is a plain sequence of items: numbers of fixed width, low byte
first, texts behind their length, references as a tag and a position, and the
preamble that opens it. `Item.encode` gives the bytes of one item, and those
of a sequence are the concatenation (`encodeAll_append`).
-/

namespace ObjectModel.Wire

/-- The opening of an archive. -/
structure Preamble where
  /-- The mark of an archive. -/
  magic : UInt32
  version : UInt16
  /-- Kept for later use. -/
  flags : UInt16
deriving DecidableEq, Repr, Inhabited

/-- The letters `HDM1`. -/
def Preamble.currentMagic : UInt32 := 0x48444D31

/-- The version that is written, and the highest that is read. -/
def Preamble.currentVersion : UInt16 := 1

/-- The preamble of every archive that is written. -/
def Preamble.current : Preamble := ⟨currentMagic, currentVersion, 0⟩

/-- One thing to write. -/
inductive Item
  | bool (b : Bool)
  | u8 (n : UInt8)
  | u16 (n : UInt16)
  | i16 (n : Int16)
  | u32 (n : UInt32)
  | i32 (n : Int32)
  | u64 (n : UInt64)
  | i64 (n : Int64)
  | text (s : String)
  /-- A tag and a position, zero for no object. -/
  | ref (tag index : UInt32)
  | preamble (p : Preamble)
deriving DecidableEq, Repr

/-- The low `k` bytes of `n`, lowest first. -/
def littleEndian : Nat → Nat → List UInt8
  | 0, _ => []
  | k + 1, n => UInt8.ofNat n :: littleEndian k (n / 256)

/-- The number whose bytes are given, lowest first. -/
def ofLittleEndian : List UInt8 → Nat
  | [] => 0
  | b :: r => b.toNat + 256 * ofLittleEndian r

/-- No object. -/
def Item.nullRef : Item := .ref 0 0

/-- The item of an optional reference. -/
def Item.ofRef? : Option Ref → Item
  | some r => .ref (UInt32.ofNat r.tag) (UInt32.ofNat r.wireIndex)
  | none => nullRef

/-- The bytes of an item. -/
def Item.encode : Item → List UInt8
  | bool b => [if b then 1 else 0]
  | u8 n => [n]
  | u16 n => littleEndian 2 n.toNat
  | i16 n => littleEndian 2 n.toUInt16.toNat
  | u32 n => littleEndian 4 n.toNat
  | i32 n => littleEndian 4 n.toUInt32.toNat
  | u64 n => littleEndian 8 n.toNat
  | i64 n => littleEndian 8 n.toUInt64.toNat
  | text s => littleEndian 4 s.utf8ByteSize ++ s.toUTF8.data.toList
  | ref tag index => littleEndian 4 tag.toNat ++ littleEndian 4 index.toNat
  | preamble p =>
    littleEndian 4 p.magic.toNat ++ littleEndian 2 p.version.toNat ++ littleEndian 2 p.flags.toNat

/-- The bytes of a sequence of items. -/
def encodeAll (items : List Item) : List UInt8 := items.flatMap Item.encode

theorem encodeAll_cons (i : Item) (items : List Item) :
    encodeAll (i :: items) = i.encode ++ encodeAll items := List.flatMap_cons

theorem encodeAll_singleton (i : Item) : encodeAll [i] = i.encode := List.flatMap_singleton ..

theorem encodeAll_append (a b : List Item) : encodeAll (a ++ b) = encodeAll a ++ encodeAll b :=
  List.flatMap_append

end ObjectModel.Wire
