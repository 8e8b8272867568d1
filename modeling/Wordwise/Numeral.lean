/-
Numerals: how a number is written out in digits, the most significant digit first and without
leading zeros. Zero is the single digit `0`.
-/

namespace Wordwise

/-- The base and the letters of a numeral. -/
inductive Radix where
  | decimal
  | lowerHex
  | upperHex
deriving DecidableEq

namespace Radix

def digits (r : Radix) (n : Nat) : List Char :=
  match r with
  | decimal => Nat.toDigits 10 n
  | lowerHex => Nat.toDigits 16 n
  | upperHex => (Nat.toDigits 16 n).map Char.toUpper

end Radix

/-- An integer in decimal, with a minus sign when it is negative. -/
def decimal (i : Int) : List Char :=
  if i < 0 then '-' :: Radix.decimal.digits i.natAbs else Radix.decimal.digits i.natAbs

end Wordwise
