/-
The bitwise operators. Masks and sets combine freely: two masks give a mask, and as soon as a set
takes part the result is a set. A set also combines with a plain word on its right.
-/
import Wordwise.WordSet.Basic

namespace Wordwise

variable {W : Width}

/-! ## Operators -/

namespace WordSet

instance : OrOp (WordSet W) := ⟨fun s t => ofWord (s.word ||| t.word)⟩
instance : AndOp (WordSet W) := ⟨fun s t => ofWord (s.word &&& t.word)⟩
instance : XorOp (WordSet W) := ⟨fun s t => ofWord (s.word ^^^ t.word)⟩
instance : Complement (WordSet W) := ⟨fun s => ofWord (~~~s.word)⟩

instance : HOr (WordSet W) (Mask W) (WordSet W) := ⟨fun s m => s ||| ofMask m⟩
instance : HAnd (WordSet W) (Mask W) (WordSet W) := ⟨fun s m => s &&& ofMask m⟩
instance : HXor (WordSet W) (Mask W) (WordSet W) := ⟨fun s m => s ^^^ ofMask m⟩

instance : HOr (Mask W) (WordSet W) (WordSet W) := ⟨fun m s => ofMask m ||| s⟩
instance : HAnd (Mask W) (WordSet W) (WordSet W) := ⟨fun m s => ofMask m &&& s⟩
instance : HXor (Mask W) (WordSet W) (WordSet W) := ⟨fun m s => ofMask m ^^^ s⟩

instance : HOr (WordSet W) (Word W) (WordSet W) := ⟨fun s a => ofWord (s.word ||| a)⟩
instance : HAnd (WordSet W) (Word W) (WordSet W) := ⟨fun s a => ofWord (s.word &&& a)⟩
instance : HXor (WordSet W) (Word W) (WordSet W) := ⟨fun s a => ofWord (s.word ^^^ a)⟩

@[simp] theorem word_or (s t : WordSet W) : (s ||| t).word = s.word ||| t.word := rfl

@[simp] theorem word_and (s t : WordSet W) : (s &&& t).word = s.word &&& t.word := rfl

@[simp] theorem word_xor (s t : WordSet W) : (s ^^^ t).word = s.word ^^^ t.word := rfl

@[simp] theorem word_complement (s : WordSet W) : (~~~s).word = ~~~s.word := rfl

end WordSet

/-! ## Connectives -/

/-- A bitwise operator of two sides. -/
inductive Connective where
  | or
  | and
  | xor
deriving DecidableEq

/-- The operator at work, on any two sides that have all three. -/
def Connective.apply {α β γ : Type} [HOr α β γ] [HAnd α β γ] [HXor α β γ] (op : Connective)
    (a : α) (b : β) : γ :=
  match op with
  | or => a ||| b
  | and => a &&& b
  | xor => a ^^^ b

/-- The forms in which a whole word can be given. -/
inductive Form (W : Width) where
  | word (a : Word W)
  | mask (m : Mask W)
  | set (s : WordSet W)
deriving DecidableEq

namespace Form

def toWord : Form W → Word W
  | word a => a
  | mask m => m.bits
  | set s => s.word

end Form

/-- A set combined with a word in any form. -/
def WordSet.combine (op : Connective) (s : WordSet W) : Form W → WordSet W
  | .word a => op.apply s a
  | .mask m => op.apply s m
  | .set t => op.apply s t

/-- Every form combines as the word that it gives. -/
theorem WordSet.word_combine (op : Connective) (s : WordSet W) (f : Form W) :
    (s.combine op f).word = op.apply s.word f.toWord := by
  cases op <;> cases f <;> rfl

/-- Two forms combined. A plain word has no operators of its own, so it stands only on the right
of a set. -/
def Form.combine? (op : Connective) : Form W → Form W → Option (Form W)
  | .mask m, .mask n => some (.mask (op.apply m n))
  | .mask m, .set s => some (.set (op.apply m s))
  | .set s, f => some (.set (s.combine op f))
  | _, _ => none

end Wordwise
