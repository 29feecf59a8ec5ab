/-!
# Hexadecimal numbers

Lower-case digits, zeros in front up to a width.
-/

namespace ObjectModel

/-- `n` in hexadecimal, at least `width` digits long. -/
def hexText (width n : Nat) : String :=
  let digits := Nat.toDigits 16 n
  String.ofList (List.replicate (width - digits.length) '0' ++ digits)

end ObjectModel
