/-
Scripts on the two iterators, the cursor over single-member sets and the queue of positions: moves,
which take members away, and questions, which work on a copy and leave it as it is, refused or not.
-/
import Wordwise.Members
import Wordwise.Script.Basic
import Wordwise.Singles

namespace Wordwise

variable {W : Width}

/-! ## The cursor over single-member sets -/

namespace Singles

inductive Step (W : Width) where
  | next
  | drop
  | nextAt (n : Nat)
  | current
  | isDone
  | length
  | bounds
  | equals (c : Singles W)
  | last
  | count
  | toList
  | toSet
deriving DecidableEq

inductive Reply (W : Width) where
  | none
  | flag (b : Bool)
  | count (n : Nat)
  | bounds (low : Nat) (high : Option Nat)
  | set (s : WordSet W)
  | set? (s : Option (WordSet W))
  | sets (ss : List (WordSet W))
deriving DecidableEq

def step (e : Engine) (c : Singles W) :
    Step W → Except (Refusal (Singles W)) (Script.Outcome (Singles W) (Reply W))
  | .next => return ⟨c.next.2, .set? c.next.1⟩
  | .drop => return ⟨c.drop, .none⟩
  | .nextAt n => return ⟨(c.nextAt n).2, .set? (c.nextAt n).1⟩
  | .current => return ⟨c, .set c.current⟩
  | .isDone => return ⟨c, .flag c.isDone⟩
  | .length => return ⟨c, .count (← leaving c (c.length e))⟩
  | .bounds => do
    let (low, high) ← leaving c (c.bounds e)
    return ⟨c, .bounds low high⟩
  | .equals d => return ⟨c, .flag (c == d)⟩
  | .last => return ⟨c, .set? c.last⟩
  | .count => return ⟨c, .count c.count⟩
  | .toList => return ⟨c, .sets c.toList⟩
  | .toSet => return ⟨c, .set c.toSet⟩

end Singles

/-! ## The queue of positions -/

namespace Members

inductive Step where
  | popFront
  | popBack
  | popFrontAt (n : Nat)
  | popBackAt (n : Nat)
  | length
  | bounds
  | last
  | count
  | toListRev
  | toSet
deriving DecidableEq

inductive Reply (W : Width) where
  | count (n : Nat)
  | bounds (low : Nat) (high : Option Nat)
  | position? (p : Option Position)
  | positions (ps : List Position)
  | set (s : WordSet W)
deriving DecidableEq

def outcome (t : Taken W) : Script.Outcome (Members W) (Reply W) := ⟨t.2, .position? t.1⟩

def step (e : Engine) (q : Members W) :
    Step → Except (Refusal (Members W)) (Script.Outcome (Members W) (Reply W))
  | .popFront => return outcome (← leaving q (q.popFront e))
  | .popBack => return outcome (← leaving q (q.popBack e))
  | .popFrontAt n => return outcome (← q.popFrontAt e n)
  | .popBackAt n => return outcome (← q.popBackAt e n)
  | .length => return ⟨q, .count (← leaving q (q.length e))⟩
  | .bounds => do
    let (low, high) ← leaving q (q.bounds e)
    return ⟨q, .bounds low high⟩
  | .last => return ⟨q, .position? (← leaving q (q.last e))⟩
  | .count => return ⟨q, .count (← leaving q (q.count e))⟩
  | .toListRev => return ⟨q, .positions (← leaving q (q.toListRev e))⟩
  | .toSet => return ⟨q, .set (← leaving q (q.toSet e))⟩

end Members

end Wordwise
