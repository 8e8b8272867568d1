/-
Scripts on a position: moves, scans and jumps, which leave a new position, and questions. A
position has no width, so every step that needs one brings its own. A scan says itself what it
leaves when it is refused; a refused move leaves the position as it was.
-/
import Wordwise.Scan
import Wordwise.Script.Basic

namespace Wordwise.Position

inductive Step where
  | succ
  | pred
  | add (n : Int)
  | sub (n : Int)
  | next (W : Width) (o : Operand W)
  | prev (W : Width) (o : Operand W)
  | goto (p : Position)
  | toBefore
  | toFirst
  | toPast (W : Width)
  | canDescend
  | isBefore
  | isPast (W : Width)
  | isBit (W : Width)
  | text
deriving DecidableEq

inductive Reply where
  | none
  | flag (b : Bool)
  | text (cs : List Char)
deriving DecidableEq

def step (e : Engine) (p : Position) :
    Step → Except (Refusal Position) (Script.Outcome Position Reply)
  | .succ => return ⟨← leaving p p.succ, .none⟩
  | .pred => return ⟨← leaving p p.pred, .none⟩
  | .add n => return ⟨← leaving p (p.add n), .none⟩
  | .sub n => return ⟨← leaving p (p.sub n), .none⟩
  | .next _ o => return ⟨← p.next e o, .none⟩
  | .prev _ o => return ⟨← p.prev e o, .none⟩
  | .goto q => return ⟨q, .none⟩
  | .toBefore => return ⟨before, .none⟩
  | .toFirst => return ⟨first, .none⟩
  | .toPast W => return ⟨past W, .none⟩
  | .canDescend => return ⟨p, .flag p.canDescend⟩
  | .isBefore => return ⟨p, .flag p.isBefore⟩
  | .isPast W => return ⟨p, .flag (p.isPast W)⟩
  | .isBit W => return ⟨p, .flag (p.isBit W)⟩
  | .text => return ⟨p, .text p.text⟩

end Wordwise.Position
