import ObjectModel.Reference
import ObjectModel.Text.Hex

/-!
# Faults of an archive

What can be wrong with the bytes of an archive, and how it is told.
-/

namespace ObjectModel.Wire

/-- What is wrong with an archive. -/
inductive Fault
  /-- Fewer bytes are left than the next item takes. -/
  | bufferTooShort (required available : Nat)
  /-- The archive does not begin with the mark of one. -/
  | badMagic (expected actual : UInt32)
  /-- The archive was written for a later version. -/
  | unsupportedVersion (version supported : UInt16)
  /-- The bytes left cannot hold so many elements. -/
  | countTooLarge (count minSize available : Nat)
  /-- No entity with objects has this tag. -/
  | unknownTypeTag (tag : Nat)
  /-- The reference points past the objects of its tag. -/
  | indexOutOfRange (target : Ref) (count : Nat)
  /-- No symbol has this id. -/
  | unknownSymbol (id : Nat)
  /-- The bytes of a text of this length are not UTF-8. -/
  | invalidUtf8 (length : Nat)
deriving DecidableEq, Repr

/-- A fault in words. -/
def Fault.message : Fault → String
  | bufferTooShort required available =>
    s!"buffer too short: required {required} bytes, available {available} bytes"
  | badMagic expected actual =>
    s!"bad archive magic: expected 0x{hexText 8 expected.toNat}, actual 0x{hexText 8 actual.toNat}"
  | unsupportedVersion version supported =>
    s!"unsupported archive version {version}, supported {supported}"
  | countTooLarge count minSize available =>
    s!"declared count {count} exceeds input: {available} bytes left, " ++
      s!"at least {minSize} bytes per element"
  | unknownTypeTag tag => s!"unknown type tag {tag}"
  | indexOutOfRange target count =>
    s!"object index {target.index} out of range for type tag {target.tag} ({count} objects)"
  | unknownSymbol id => s!"unknown symbol id {id}"
  | invalidUtf8 length => s!"invalid UTF-8 in symbol {length}"

end ObjectModel.Wire
