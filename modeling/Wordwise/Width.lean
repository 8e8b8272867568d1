/-
The five word widths and the words of a width. A word of width `W` is a bit vector of `W.bits`
bits, and bit `i` stands for position `i`, so a word is read both as an unsigned number and as a
set of positions.
-/

namespace Wordwise

inductive Width where
  | w8
  | w16
  | w32
  | w64
  | w128
deriving DecidableEq

namespace Width

def bits : Width → Nat
  | w8 => 8
  | w16 => 16
  | w32 => 32
  | w64 => 64
  | w128 => 128

/-- The width with this number of bits, if there is one. -/
def ofBits? : Nat → Option Width
  | 8 => some w8
  | 16 => some w16
  | 32 => some w32
  | 64 => some w64
  | 128 => some w128
  | _ => none

@[simp] theorem ofBits?_bits (W : Width) : ofBits? W.bits = some W := by cases W <;> rfl

theorem eight_le_bits (W : Width) : 8 ≤ W.bits := by cases W <;> decide

theorem bits_le (W : Width) : W.bits ≤ 128 := by cases W <;> decide

theorem bits_pos (W : Width) : 0 < W.bits := Nat.lt_of_lt_of_le (by decide) W.eight_le_bits

end Width

abbrev Word (W : Width) := BitVec W.bits

end Wordwise
