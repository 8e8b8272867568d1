/-
The digits of a set: one character for every position of the word, the highest position first.
Members are written with one character and the other positions with another. A digit is written
before the next position is looked at, and once a sink refuses one, none is offered to it any more.
Where the two characters differ the digits can be read back.
-/
import Wordwise.Text.Sink
import Wordwise.WordSet.Update

namespace Wordwise.WordSet

variable {W : Width}

/-! ## Writing -/

/-- The digit below a position, and the position that it stands for. There is none below the first
bit. -/
def nextDigit (s : WordSet W) (zero one : Char) (p : Position) :
    Except Fault (Option (Char × Position)) :=
  if p = .first then return none
  else do
    let q ← p.pred
    let isMember ← s.meets (.position q)
    return some (if isMember then one else zero, q)

/-- A digit stands for the position one down, which is not before the first bit. -/
theorem val_of_nextDigit {s : WordSet W} {zero one c : Char} {p q : Position}
    (h : s.nextDigit zero one p = .ok (some (c, q))) : 0 < p.val ∧ q.val = p.val - 1 := by
  unfold nextDigit at h
  split at h
  case isTrue => cases h
  rename_i hp
  obtain ⟨r, hr, h⟩ := Checked.bind_eq_ok.1 h
  obtain ⟨isMember, -, h⟩ := Checked.bind_eq_ok.1 h
  cases h
  obtain ⟨hlow, hval⟩ := Position.val_of_pred hr
  have hne : p.val ≠ 0 := fun hzero => hp (Position.ext hzero)
  rw [Position.lt_def, Position.before_val] at hlow
  omega

/-- Write the digits below a position up to the first one that is refused, and say whether all of
them went in. -/
def writeFrom (s : WordSet W) (zero one : Char) (out : Sink) (p : Position) :
    Except (Refusal Sink) (Sink × Bool) :=
  match _h : s.nextDigit zero one p with
  | .error f => .error ⟨f, out⟩
  | .ok none => .ok (out, true)
  | .ok (some (c, q)) =>
    match out.push? c with
    | none => .ok (out, false)
    | some out' => s.writeFrom zero one out' q
termination_by p.val.toNat
decreasing_by
  have := val_of_nextDigit ‹s.nextDigit zero one p = .ok (some (c, q))›
  omega

/-- Write the digits of all positions. -/
def writeTo (s : WordSet W) (out : Sink) (zero one : Char) : Except (Refusal Sink) (Sink × Bool) :=
  s.writeFrom zero one out (.past W)

/-- The text that the digits of all positions make. -/
def digits (s : WordSet W) (zero one : Char) : Except Fault (List Char) := do
  let (out, _) ← (s.writeTo .unbounded zero one).mapError Refusal.fault
  return out.written

/-! ## Reading -/

/-- The number that digits stand for in base two. A character that is not a digit is refused. -/
def readDigits? (zero one : Char) : List Char → Nat → Option Nat
  | [], n => some n
  | c :: cs, n =>
    if c = one then readDigits? zero one cs (2 * n + 1)
    else if c = zero then readDigits? zero one cs (2 * n)
    else none

/-- The set that is written with these digits, of which there is one for every position. -/
def ofDigits? (zero one : Char) (cs : List Char) : Option (WordSet W) :=
  if cs.length = W.bits then (readDigits? zero one cs 0).map fun n => ofWord (.ofNat W.bits n)
  else none

end Wordwise.WordSet
