/-
Scans: from a position to the next or the previous member of a word, found with one shift and one
count of zeros. A scan that finds no member stops at the position past the last bit or before the
first. The start is checked before the operand is read, and a scan from the last bit upwards does
not read its operand at all. A scan moves its position in place, and upwards it makes the first step
before it reads the operand: refused then, it leaves the position one up.
-/
import Wordwise.Engine.Basic
import Wordwise.Operand

namespace Wordwise.Position

variable {W : Width}

/-! ## Looking through a word -/

/-- The lowest member of a word that is not below the position, or past the last bit. -/
def seekUp (e : Engine) (p : Position) (a : Word W) : Except Fault Position :=
  if shiftDown a (shiftAmount p.val) = 0 then .ok (past W)
  else do p.add (← e.trailing (shiftDown a (shiftAmount p.val)))

/-- The highest member of a word that is below the position, or before the first bit. The members
from the position upwards are shifted out, so that the zeros above the highest one left tell how
far down it lies. -/
def seekDown (e : Engine) (p : Position) (a : Word W) : Except Fault Position := do
  let gap ← (past W).sub p.val
  if shiftUp a (shiftAmount gap.val) = 0 then return before
  else
    let zeros ← e.leading (shiftUp a (shiftAmount gap.val))
    let step ← hold .addOverflow (zeros + 1)
    p.sub step.val

/-! ## Scans -/

/-- The upward scan: the lowest member above the position, or past the last bit. It starts before
the first bit or at a bit. -/
def next (e : Engine) (p : Position) (o : Operand W) : Except (Refusal Position) Position :=
  if before ≤ p ∧ p < past W then do
    let q ← leaving p (p.add 1)
    if q = past W then return q else leaving q do q.seekUp e (← o.read)
  else .error ⟨.upwardScan p.val W, p⟩

/-- The downward scan: the highest member below the position, or before the first bit. It starts
above the first bit, past the last one at most. -/
def prev (e : Engine) (p : Position) (o : Operand W) : Except (Refusal Position) Position :=
  if p.canDescend ∧ p ≤ past W then leaving p do p.seekDown e (← o.read)
  else .error ⟨.downwardScan p.val W, p⟩

end Wordwise.Position
