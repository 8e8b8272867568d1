/-
Operands: what stands for some bits of a word, either one position or a whole word in any of its
forms. Reading an operand gives the bits, and only a position outside the word is refused.
-/
import Wordwise.WordSet.Algebra

namespace Wordwise

/-- Some bits of a word of width `W`. -/
inductive Operand (W : Width) where
  | position (p : Position)
  | form (f : Form W)
deriving DecidableEq

namespace Operand

variable {W : Width}

/-- The word with exactly these bits set. -/
def read : Operand W → Except Fault (Word W)
  | position p => p.toWord W
  | form f => .ok f.toWord

@[simp] theorem read_position (p : Position) :
    (position p : Operand W).read = p.toWord W := rfl

@[simp] theorem read_form (f : Form W) : (form f).read = .ok f.toWord := rfl

end Operand

end Wordwise
