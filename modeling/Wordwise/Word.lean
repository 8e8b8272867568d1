/-
Operations on words that no set bit has to be found for: shifts by any amount, the tricks that
isolate or remove the lowest set bit, the test for a single bit, the change to another width, and
the list of the positions whose bits are set, which is the view in which words are reasoned about.
-/
import Wordwise.Checked

namespace Wordwise

/-! ## Shifts -/

/-- A shift towards the highest bit. Every bit is lost when the amount reaches the width. -/
def shiftUp {w : Nat} (a : BitVec w) (n : Nat) : BitVec w :=
  if n < w then a <<< n else 0

/-- A shift towards bit zero. Every bit is lost when the amount reaches the width. -/
def shiftDown {w : Nat} (a : BitVec w) (n : Nat) : BitVec w :=
  if n < w then a >>> n else 0

/-- An integer read as an unsigned thirty-two bit shift amount. A negative one stands for a huge
amount, which clears any word. -/
def shiftAmount (i : Int) : Nat :=
  (BitVec.ofInt 32 i).toNat

@[simp] theorem shiftUp_eq {w : Nat} (a : BitVec w) (n : Nat) : shiftUp a n = a <<< n := by
  unfold shiftUp
  split
  · rfl
  · rename_i h
    exact (BitVec.shiftLeft_eq_zero (Nat.le_of_not_lt h)).symm

@[simp] theorem shiftDown_eq {w : Nat} (a : BitVec w) (n : Nat) : shiftDown a n = a >>> n := by
  unfold shiftDown
  split
  · rfl
  · rename_i h
    exact (BitVec.ushiftRight_eq_zero (Nat.le_of_not_lt h)).symm

/-! ## The lowest bit -/

/-- The lowest set bit alone, or zero. -/
def lowestBit {w : Nat} (a : BitVec w) : BitVec w :=
  a &&& -a

/-- The word without its lowest set bit. Zero stays zero. -/
def dropLowest {w : Nat} (a : BitVec w) : BitVec w :=
  a &&& (a - 1)

/-- Exactly one bit is set: the word is not zero, and nothing is left without its lowest bit. -/
def isPowerOfTwo {w : Nat} (a : BitVec w) : Except Fault Bool :=
  if a = 0 then .ok false
  else do
    let below ← Checked.sub a 1
    .ok (a &&& below == 0)

/-! ## Other widths -/

def low64 {w : Nat} (a : BitVec w) : BitVec 64 :=
  a.setWidth 64

/-- A word of at most one hundred and twenty-eight bits, widened to that many. -/
def wide {w : Nat} (a : BitVec w) : BitVec 128 :=
  a.setWidth 128

/-! ## The set bits -/

/-- The positions whose bits are set, in ascending order. -/
def setBits {w : Nat} (a : BitVec w) : List Nat :=
  (List.range w).filter a.getLsbD

theorem mem_setBits {w : Nat} {a : BitVec w} {i : Nat} : i ∈ setBits a ↔ a.getLsbD i = true := by
  simp only [setBits, List.mem_filter, List.mem_range, and_iff_right_iff_imp]
  exact BitVec.lt_of_getLsbD

end Wordwise
