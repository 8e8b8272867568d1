/-
Sets of positions kept in one word: bit `i` of the word says whether position `i` is a member, and
there is no other state. The module has the constructors, the questions that the word answers by
itself, shifts, the order and the wrapping arithmetic that makes a set a counter.
-/
import Wordwise.Engine.Basic
import Wordwise.Mask

namespace Wordwise

/-- A set of positions of a word of width `W`. -/
@[ext] structure WordSet (W : Width) where
  mask : Mask W
deriving DecidableEq

namespace WordSet

variable {W : Width}

/-! ## Making sets -/

def ofMask (m : Mask W) : WordSet W := ⟨m⟩

/-- The set whose members are the set bits of a word. -/
def ofWord (a : Word W) : WordSet W := ofMask ⟨a⟩

/-- The set without members. -/
def empty : WordSet W := ofWord 0

/-- The set of all positions of the word. -/
def full : WordSet W := ofWord (BitVec.allOnes W.bits)

def singleton (p : Position) : Except Fault (WordSet W) := do
  return ofWord (← p.toWord W)

instance : Inhabited (WordSet W) := ⟨empty⟩

/-! ## Reading sets -/

def toMask (s : WordSet W) : Mask W := s.mask

def word (s : WordSet W) : Word W := s.mask.bits

@[simp] theorem word_ofWord (a : Word W) : (ofWord a).word = a := rfl

@[simp] theorem word_ofMask (m : Mask W) : (ofMask m).word = m.bits := rfl

@[simp] theorem word_empty : (empty : WordSet W).word = 0 := rfl

@[simp] theorem word_full : (full : WordSet W).word = BitVec.allOnes W.bits := rfl

@[simp] theorem ofWord_word (s : WordSet W) : ofWord s.word = s := rfl

/-- A set is its word. -/
theorem eq_of_word_eq {s t : WordSet W} (h : s.word = t.word) : s = t := by
  rw [← ofWord_word s, ← ofWord_word t, h]

def capacity (_ : WordSet W) : Nat := W.bits

def isFull (s : WordSet W) : Bool := s.word == BitVec.allOnes W.bits

def isInhabited (s : WordSet W) : Bool := s.word != 0

def isEmpty (s : WordSet W) : Bool := s.word == 0

def isSingleton (s : WordSet W) : Except Fault Bool := isPowerOfTwo s.word

def count (e : Engine) (s : WordSet W) : Except Fault Nat := e.ones s.word

/-! ## Shifts and arithmetic -/

/-- Every member moved `n` places up. Those that reach the width are lost. -/
def shiftUp (s : WordSet W) (n : Nat) : WordSet W := ofWord (Wordwise.shiftUp s.word n)

/-- Every member moved `n` places down. Those below `n` are lost. -/
def shiftDown (s : WordSet W) (n : Nat) : WordSet W := ofWord (Wordwise.shiftDown s.word n)

/-- The set whose word is the sum, which wraps. -/
def add (s : WordSet W) (a : Word W) : WordSet W := ofWord (s.word + a)

/-- The set whose word is the difference, which wraps. -/
def sub (s : WordSet W) (a : Word W) : WordSet W := ofWord (s.word - a)

/-- The set whose word is the next number. The full set is followed by the empty one. -/
def increment (s : WordSet W) : WordSet W := s.add 1

/-- The set whose word is the previous number. The empty set is preceded by the full one. -/
def decrement (s : WordSet W) : WordSet W := s.sub 1

@[simp] theorem word_shiftUp (s : WordSet W) (n : Nat) : (s.shiftUp n).word = s.word <<< n :=
  shiftUp_eq s.word n

@[simp] theorem word_shiftDown (s : WordSet W) (n : Nat) : (s.shiftDown n).word = s.word >>> n :=
  shiftDown_eq s.word n

@[simp] theorem word_add (s : WordSet W) (a : Word W) : (s.add a).word = s.word + a := rfl

@[simp] theorem word_sub (s : WordSet W) (a : Word W) : (s.sub a).word = s.word - a := rfl

@[simp] theorem word_increment (s : WordSet W) : s.increment.word = s.word + 1 := rfl

@[simp] theorem word_decrement (s : WordSet W) : s.decrement.word = s.word - 1 := rfl

/-! ## Order -/

/-! Sets are ordered as the numbers that their words are, not by inclusion. -/

instance : LT (WordSet W) := ⟨fun s t => s.mask < t.mask⟩
instance : LE (WordSet W) := ⟨fun s t => s.mask ≤ t.mask⟩
instance : DecidableLT (WordSet W) := fun s t => inferInstanceAs (Decidable (s.mask < t.mask))
instance : DecidableLE (WordSet W) := fun s t => inferInstanceAs (Decidable (s.mask ≤ t.mask))
instance : Ord (WordSet W) := ⟨fun s t => compare s.mask t.mask⟩
instance : Min (WordSet W) := minOfLe
instance : Max (WordSet W) := maxOfLe

end WordSet

end Wordwise
