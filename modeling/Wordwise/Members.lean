/-
Members: a queue of the member positions of a set that is open at both ends, the lowest position
at the front. The positions that are left are kept in one word: the front takes its lowest set
bit, the back its highest.
-/
import Wordwise.WordSet.Extremes
import Wordwise.WordSet.Update

namespace Wordwise

@[ext] structure Members (W : Width) where
  rest : Word W
deriving DecidableEq

def WordSet.members {W : Width} (s : WordSet W) : Members W := ⟨s.word⟩

namespace Members

variable {W : Width}

/-- A step of a queue: what it takes, if anything is left, and what then remains. -/
abbrev Taken (W : Width) := Option Position × Members W

/-! ## Either end -/

def popFront (e : Engine) (q : Members W) : Except Fault (Taken W) :=
  if q.rest = 0 then return (none, q)
  else do
    let p ← Position.ofWord e q.rest
    return (some p, ⟨dropLowest q.rest⟩)

def popBack (e : Engine) (q : Members W) : Except Fault (Taken W) :=
  if q.rest = 0 then return (none, q)
  else do
    let log ← e.log2 q.rest
    return (some (.wrap log), ⟨q.rest ^^^ shiftUp 1 (shiftAmount log)⟩)

/-- Skip `n` positions by a step and take one by it. The first step that finds nothing is the
last. A refused step leaves what the steps before it have left. -/
def popAt (step : Members W → Except Fault (Taken W)) :
    Nat → Members W → Except (Refusal (Members W)) (Taken W)
  | 0, q => leaving q (step q)
  | n + 1, q => do
    match ← leaving q (step q) with
    | (none, q') => return (none, q')
    | (some _, q') => popAt step n q'

/-- The positions that at most `n` steps take. -/
def drain (step : Members W → Except Fault (Taken W)) :
    Nat → Members W → Except Fault (List Position)
  | 0, _ => return []
  | n + 1, q => do
    match ← step q with
    | (none, _) => return []
    | (some p, q') => return p :: (← drain step n q')

/-- Skip `n` positions at the front and take one. -/
def popFrontAt (e : Engine) (q : Members W) (n : Nat) : Except (Refusal (Members W)) (Taken W) :=
  popAt (popFront e) n q

def popBackAt (e : Engine) (q : Members W) (n : Nat) : Except (Refusal (Members W)) (Taken W) :=
  popAt (popBack e) n q

/-! ## The whole queue -/

/-- All positions that are left, from the front. A word has no more members than bits. -/
def toList (e : Engine) (q : Members W) : Except Fault (List Position) :=
  drain (popFront e) W.bits q

def toListRev (e : Engine) (q : Members W) : Except Fault (List Position) :=
  drain (popBack e) W.bits q

def last (e : Engine) (q : Members W) : Except Fault (Option Position) := do
  return (← q.toList e).getLast?

/-- The number of positions that are left, by taking all from the front. -/
def count (e : Engine) (q : Members W) : Except Fault Nat := do
  return (← q.toList e).length

def toSet (e : Engine) (q : Members W) : Except Fault (WordSet W) := do
  WordSet.ofPositions (← q.toList e)

/-- The number of positions that are left, from the word. -/
def length (e : Engine) (q : Members W) : Except Fault Nat := e.ones q.rest

/-- Bounds on the number of positions that are left. Both are exact. -/
def bounds (e : Engine) (q : Members W) : Except Fault (Nat × Option Nat) := do
  let n ← q.length e
  return (n, some n)

end Members

end Wordwise
