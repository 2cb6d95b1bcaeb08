namespace ConceptLogic

/-- A number that is not negative: digits, and the power of ten that they count. -/
structure Decimal where
  digits : Nat
  exponent : Int
  deriving DecidableEq, Repr

/-- A power with an exponent that counts as zero where it is negative. -/
def power (base : Nat) (exponent : Int) : Nat :=
  Nat.pow base exponent.toNat

namespace Decimal

/-- The least power of ten that a number with digits stays below. -/
def magnitude (d : Decimal) : Int :=
  (Nat.toDigits 10 d.digits).length + d.exponent

/-- The digits with a point in its place, which only a fraction needs, and with
zeros where digits are missing. -/
def text (d : Decimal) : String :=
  let places := (-d.exponent).toNat
  let all := (Nat.toDigits 10 (d.digits * power 10 d.exponent)).leftpad (places + 1) '0'
  let (whole, fraction) := all.splitAt (all.length - places)
  String.ofList (if fraction.isEmpty then whole else whole ++ '.' :: fraction)

end Decimal

end ConceptLogic
