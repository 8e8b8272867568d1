/-
Masks: words in the plain form in which constants are written. A mask can be compared and combined
bit by bit, and everything else is done with the set that it stands for.
-/
import Wordwise.Position

namespace Wordwise

/-- A word as a constant. -/
@[ext] structure Mask (W : Width) where
  bits : Word W
deriving DecidableEq

namespace Mask

variable {W : Width}

def empty : Mask W := ⟨0⟩

instance : Inhabited (Mask W) := ⟨empty⟩

/-- The bit at this position alone, which is `1` shifted by the position. -/
def single (p : Position) : Except Fault (Mask W) :=
  if 0 ≤ p.val then return ⟨← Checked.shiftLeft 1 p.val.toNat⟩ else .error .shiftLeftOverflow

def union (a b : Mask W) : Mask W := ⟨a.bits ||| b.bits⟩

def intersection (a b : Mask W) : Mask W := ⟨a.bits &&& b.bits⟩

def symmetricDifference (a b : Mask W) : Mask W := ⟨a.bits ^^^ b.bits⟩

def complement (a : Mask W) : Mask W := ⟨~~~a.bits⟩

instance : OrOp (Mask W) := ⟨union⟩
instance : AndOp (Mask W) := ⟨intersection⟩
instance : XorOp (Mask W) := ⟨symmetricDifference⟩
instance : Complement (Mask W) := ⟨complement⟩

@[simp] theorem bits_or (a b : Mask W) : (a ||| b).bits = a.bits ||| b.bits := rfl

@[simp] theorem bits_and (a b : Mask W) : (a &&& b).bits = a.bits &&& b.bits := rfl

@[simp] theorem bits_xor (a b : Mask W) : (a ^^^ b).bits = a.bits ^^^ b.bits := rfl

@[simp] theorem bits_complement (a : Mask W) : (~~~a).bits = ~~~a.bits := rfl

/-! ## Order -/

instance : LT (Mask W) := ⟨fun a b => a.bits < b.bits⟩
instance : LE (Mask W) := ⟨fun a b => a.bits ≤ b.bits⟩
instance : DecidableLT (Mask W) := fun a b => inferInstanceAs (Decidable (a.bits < b.bits))
instance : DecidableLE (Mask W) := fun a b => inferInstanceAs (Decidable (a.bits ≤ b.bits))
instance : Ord (Mask W) := ⟨fun a b => compare a.bits.toNat b.bits.toNat⟩

end Mask

end Wordwise
