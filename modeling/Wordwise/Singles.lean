/-
Singles: a cursor over the members of a set, each as a set of its own, the lowest first. The
cursor keeps the members that are left in one word, stands on the lowest of them, and is at the
end when there is none.
-/
import Wordwise.WordSet.Extremes
import Wordwise.WordSet.Update

namespace Wordwise

@[ext] structure Singles (W : Width) where
  rest : Word W
deriving DecidableEq

/-- The cursor at the lowest member of a set. -/
def WordSet.singles {W : Width} (s : WordSet W) : Singles W := ⟨s.word⟩

namespace Singles

variable {W : Width}

def done : Singles W := ⟨0⟩

instance : Inhabited (Singles W) := ⟨done⟩

/-- The member that the cursor stands on, or the empty set at the end. -/
def current (c : Singles W) : WordSet W := .ofWord (lowestBit c.rest)

/-- The cursor after the member that it stands on. The end stays the end. -/
def drop (c : Singles W) : Singles W := ⟨dropLowest c.rest⟩

def isDone (c : Singles W) : Bool := c.rest == 0

def remaining (c : Singles W) : WordSet W := .ofWord c.rest

def next (c : Singles W) : Option (WordSet W) × Singles W :=
  if c.isDone then (none, c) else (some c.current, c.drop)

def nextAt (c : Singles W) : Nat → Option (WordSet W) × Singles W
  | 0 => c.next
  | n + 1 =>
    match c.next with
    | (none, c') => (none, c')
    | (some _, c') => c'.nextAt n

/-- The members that at most `n` steps take. -/
def take (c : Singles W) : Nat → List (WordSet W)
  | 0 => []
  | n + 1 =>
    match c.next with
    | (none, _) => []
    | (some s, c') => s :: c'.take n

/-- All members that are left. A word has no more members than bits. -/
def toList (c : Singles W) : List (WordSet W) := c.take W.bits

def last (c : Singles W) : Option (WordSet W) := c.toList.getLast?

/-- The number of members that are left, by taking them all. -/
def count (c : Singles W) : Nat := c.toList.length

def toSet (c : Singles W) : WordSet W := .ofSets c.toList

/-- The number of members that are left, from the word. -/
def length (e : Engine) (c : Singles W) : Except Fault Nat := e.ones c.rest

/-- Bounds on the number of members that are left. Both are exact. -/
def bounds (e : Engine) (c : Singles W) : Except Fault (Nat × Option Nat) := do
  let n ← c.length e
  return (n, some n)

end Singles

end Wordwise
