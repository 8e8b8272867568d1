/-
Faults: the ways in which an operation can refuse its input, each with the position and the width
that its message names, and the one function that words them. What changes a value in place can be
refused when part of the change is made, and its refusal says what it leaves.
-/
import Wordwise.Numeral
import Wordwise.Width

namespace Wordwise

inductive Fault where
  | outOfBounds (position : Int)
  /-- The position of the lowest bit of the empty word. -/
  | emptyWord
  | noSuccessor (position : Int)
  | noPredecessor (position : Int)
  /-- An upward scan that starts neither at a bit nor before the first one. -/
  | upwardScan (position : Int) (width : Width)
  /-- A downward scan that starts at the first bit or outside the word. -/
  | downwardScan (position : Int) (width : Width)
  | addOverflow
  | subtractOverflow
  | shiftLeftOverflow
  | shiftRightOverflow
  /-- A number handed over as a word of a width that it does not fit in. -/
  | wordTooWide
deriving DecidableEq

namespace Fault

/-- The wording of a refused scan, which names its direction, its start and the width. -/
def scanMessage (direction : String) (p : Int) (W : Width) : String :=
  direction ++ " bit scan from bit index " ++ String.ofList (decimal p) ++ " in a " ++
    String.ofList (decimal W.bits) ++ " bit mask"

def message : Fault → String
  | outOfBounds p => "Bit index " ++ String.ofList (decimal p) ++ " out of bounds"
  | emptyWord => "Index of the lowest bit of an empty mask"
  | noSuccessor p => "Bit index " ++ String.ofList (decimal p) ++ " cannot be incremented"
  | noPredecessor p => "Bit index " ++ String.ofList (decimal p) ++ " cannot be decremented"
  | upwardScan p W => scanMessage "Next" p W
  | downwardScan p W => scanMessage "Previous" p W
  | addOverflow => "attempt to add with overflow"
  | subtractOverflow => "attempt to subtract with overflow"
  | shiftLeftOverflow => "attempt to shift left with overflow"
  | shiftRightOverflow => "attempt to shift right with overflow"
  | wordTooWide => "assertion failed: width == 128 || x >> width == 0"

end Fault

/-! ## Changes in place -/

/-- A refused change in place: what refused it, and the value that it leaves. -/
structure Refusal (σ : Type) where
  fault : Fault
  state : σ
deriving DecidableEq

/-- A part of a change in place that leaves `s` when it is refused. -/
def leaving {σ α : Type} (s : σ) (x : Except Fault α) : Except (Refusal σ) α :=
  x.mapError (⟨·, s⟩)

section
variable {σ α : Type}

@[simp] theorem leaving_ok (s : σ) (a : α) : leaving s (.ok a) = .ok a := rfl

@[simp] theorem leaving_error (s : σ) (f : Fault) :
    leaving s (.error f : Except Fault α) = .error ⟨f, s⟩ := rfl

/-- What is said of a fault makes no difference to an answer. -/
theorem mapError_eq_ok_iff {ε ε' : Type} {f : ε → ε'} {x : Except ε α} {a : α} :
    x.mapError f = .ok a ↔ x = .ok a := by
  cases x with
  | error e => exact ⟨nofun, nofun⟩
  | ok b =>
    constructor
    · rintro ⟨⟩
      rfl
    · rintro ⟨⟩
      rfl

theorem leaving_eq_ok_iff {s : σ} {x : Except Fault α} {a : α} : leaving s x = .ok a ↔ x = .ok a :=
  mapError_eq_ok_iff

end

end Wordwise
