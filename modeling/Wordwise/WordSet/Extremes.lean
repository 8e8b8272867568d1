/-
The lowest and the highest member of a set, each as a set of its own and as a position. The empty
set has none: the sets are then empty too, the lowest position is the one past the last bit, and
the highest the one before the first.
-/
import Wordwise.WordSet.Basic

namespace Wordwise

/-- The position of the lowest set bit of a word that is not zero. -/
def Position.ofWord {W : Width} (e : Engine) (a : Word W) : Except Fault Position :=
  if a = 0 then .error .emptyWord else return .wrap (← e.trailing a)

namespace WordSet

variable {W : Width}

def lowest (s : WordSet W) : WordSet W := ofWord (lowestBit s.word)

def highest (e : Engine) (s : WordSet W) : Except Fault (WordSet W) := do
  let log ← e.log2 s.word
  if log = -1 then return empty
  else return ofWord (Wordwise.shiftUp 1 (shiftAmount log))

/-- The position of the lowest member, or past the last bit. -/
def lowestPosition (e : Engine) (s : WordSet W) : Except Fault Position :=
  if s.isInhabited then Position.ofWord e s.word else .ok (.past W)

/-- The position of the highest member, or before the first bit. -/
def highestPosition (e : Engine) (s : WordSet W) : Except Fault Position := do
  return .wrap (← e.log2 s.word)

end WordSet

end Wordwise
