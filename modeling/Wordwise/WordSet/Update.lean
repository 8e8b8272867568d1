/-
Adding, removing, toggling and testing members. The members concerned are given by an operand; an
operand that cannot be read is refused and nothing changes.
-/
import Wordwise.Operand

namespace Wordwise.WordSet

variable {W : Width}

/-- The set with these members added. -/
def insert (s : WordSet W) (o : Operand W) : Except Fault (WordSet W) := do
  return ofWord (s.word ||| (← o.read))

def erase (s : WordSet W) (o : Operand W) : Except Fault (WordSet W) := do
  return ofWord (s.word &&& ~~~(← o.read))

/-- The set with these positions changed from member to non-member and back. -/
def toggle (s : WordSet W) (o : Operand W) : Except Fault (WordSet W) := do
  return ofWord (s.word ^^^ (← o.read))

/-- At least one of these positions is a member. -/
def meets (s : WordSet W) (o : Operand W) : Except Fault Bool := do
  return s.word &&& (← o.read) != 0

/-! ## Collecting -/

/-- The set of the positions of a list. The first one outside the word is refused. -/
def ofPositions (ps : List Position) : Except Fault (WordSet W) :=
  ps.foldlM (fun s p => s.insert (.position p)) empty

def ofSets (ss : List (WordSet W)) : WordSet W :=
  ss.foldl (· ||| ·) empty

end Wordwise.WordSet
