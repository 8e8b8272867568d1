/-
Scripts on a set: updates, operators, shifts and wrapping arithmetic, which leave a new set, and
questions, which answer and leave the set as it is. An update reads its operand before it writes, so
a refused step leaves the set as it was.
-/
import Wordwise.Script.Basic
import Wordwise.Text.Shown

namespace Wordwise.WordSet

variable {W : Width}

inductive Step (W : Width) where
  | insert (o : Operand W)
  | erase (o : Operand W)
  | toggle (o : Operand W)
  | meets (o : Operand W)
  | fill
  | clear
  | increment
  | decrement
  | complement
  | lowest
  | highest
  | shiftUp (n : Nat)
  | shiftDown (n : Nat)
  | add (a : Word W)
  | sub (a : Word W)
  | combine (op : Connective) (f : Form W)
  | count
  | isFull
  | isInhabited
  | isEmpty
  | isSingleton
  | lowestPosition
  | highestPosition
  | members
  | text
deriving DecidableEq

inductive Reply where
  | none
  | flag (b : Bool)
  | count (n : Nat)
  | position (p : Position)
  | positions (ps : List Position)
  | text (cs : List Char)
deriving DecidableEq

def step (e : Engine) (s : WordSet W) :
    Step W → Except (Refusal (WordSet W)) (Script.Outcome (WordSet W) Reply)
  | .insert o => return ⟨← leaving s (s.insert o), .none⟩
  | .erase o => return ⟨← leaving s (s.erase o), .none⟩
  | .toggle o => return ⟨← leaving s (s.toggle o), .none⟩
  | .meets o => return ⟨s, .flag (← leaving s (s.meets o))⟩
  | .fill => return ⟨full, .none⟩
  | .clear => return ⟨empty, .none⟩
  | .increment => return ⟨s.increment, .none⟩
  | .decrement => return ⟨s.decrement, .none⟩
  | .complement => return ⟨~~~s, .none⟩
  | .lowest => return ⟨s.lowest, .none⟩
  | .highest => return ⟨← leaving s (s.highest e), .none⟩
  | .shiftUp n => return ⟨s.shiftUp n, .none⟩
  | .shiftDown n => return ⟨s.shiftDown n, .none⟩
  | .add a => return ⟨s.add a, .none⟩
  | .sub a => return ⟨s.sub a, .none⟩
  | .combine op f => return ⟨s.combine op f, .none⟩
  | .count => return ⟨s, .count (← leaving s (s.count e))⟩
  | .isFull => return ⟨s, .flag s.isFull⟩
  | .isInhabited => return ⟨s, .flag s.isInhabited⟩
  | .isEmpty => return ⟨s, .flag s.isEmpty⟩
  | .isSingleton => return ⟨s, .flag (← leaving s s.isSingleton)⟩
  | .lowestPosition => return ⟨s, .position (← leaving s (s.lowestPosition e))⟩
  | .highestPosition => return ⟨s, .position (← leaving s (s.highestPosition e))⟩
  | .members => return ⟨s, .positions (← leaving s (s.members.toList e))⟩
  | .text => return ⟨s, .text (← leaving s s.text)⟩

end Wordwise.WordSet
