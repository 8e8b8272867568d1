/-
Checked arithmetic: sums, differences and shifts that refuse instead of wrapping. The words of
this library wrap, save in the few places where a wrapped result would be wrong; there the
operations of this module are used, so that "it never overflows" is a statement about the result.
-/
import Wordwise.Fault

namespace Wordwise.Checked

/-- A chain succeeds exactly when both of its parts do. -/
theorem bind_eq_ok {ε α β : Type} {x : Except ε α} {f : α → Except ε β} {b : β} :
    x >>= f = .ok b ↔ ∃ a, x = .ok a ∧ f a = .ok b := by
  cases x <;> simp [bind, Except.bind]

@[simp] theorem ok_bind {ε α β : Type} (a : α) (f : α → Except ε β) :
    (Except.ok a : Except ε α) >>= f = f a := rfl

@[simp] theorem error_bind {ε α β : Type} (c : ε) (f : α → Except ε β) :
    (Except.error c : Except ε α) >>= f = .error c := rfl

@[simp] theorem pure_eq_ok {ε α : Type} (a : α) : (pure a : Except ε α) = .ok a := rfl

/-! ## Words -/

/-- The sum of two words, refused when it does not fit. -/
def add {w : Nat} (a b : BitVec w) : Except Fault (BitVec w) :=
  if a.uaddOverflow b then .error .addOverflow else .ok (a + b)

def sub {w : Nat} (a b : BitVec w) : Except Fault (BitVec w) :=
  if a.usubOverflow b then .error .subtractOverflow else .ok (a - b)

/-- A left shift by fewer places than the word has. -/
def shiftLeft {w : Nat} (a : BitVec w) (n : Nat) : Except Fault (BitVec w) :=
  if n < w then .ok (a <<< n) else .error .shiftLeftOverflow

def shiftRight {w : Nat} (a : BitVec w) (n : Nat) : Except Fault (BitVec w) :=
  if n < w then .ok (a >>> n) else .error .shiftRightOverflow

/-! ## Counts and signed numbers -/

/-- The sum of two counts, refused when it reaches the limit. -/
def addCount (limit m n : Nat) : Except Fault Nat :=
  if m + n < limit then .ok (m + n) else .error .addOverflow

def subSigned (i j : Int) : Except Fault Int :=
  if -2147483648 ≤ i - j ∧ i - j < 2147483648 then .ok (i - j) else .error .subtractOverflow

end Wordwise.Checked
