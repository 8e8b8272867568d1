/-
Shown values: the text of each kind of value under a layout. A set is shown by its digits whatever
the layout, in brackets when its structure is asked for. A position has a text of its own, the
plain decimal; all else is shown by its structure only.
-/
import Wordwise.Members
import Wordwise.Singles
import Wordwise.Text.Digits
import Wordwise.Text.Record

namespace Wordwise

/-- A value to be shown. A position is shown as a coordinate or in the plain form of constants. -/
inductive Shown (W : Width) where
  | set (s : WordSet W)
  | coordinate (p : Position)
  | constant (p : Position)
  | mask (m : Mask W)
  | singles (c : Singles W)
  | members (q : Members W)
deriving DecidableEq

/-- The structure of a position in the plain form of constants. -/
def Position.constantRecord (p : Position) : Record :=
  .field "RawIndex" "position" (.number 16 p.val)

def Position.record (p : Position) : Record := .field "BitIndex" "raw" p.constantRecord

def wordRecord {W : Width} (name label : String) (a : Word W) : Record :=
  .field name label (.number W.bits a.toNat)

def Mask.record {W : Width} (m : Mask W) : Record := wordRecord "RawBitSet" "bitmask" m.bits

def Singles.record {W : Width} (c : Singles W) : Record := wordRecord "Iter" "mask" c.rest

def Members.record {W : Width} (q : Members W) : Record := wordRecord "Indices" "mask" q.rest

namespace WordSet

variable {W : Width}

/-- The text of a set: its digits in base two. -/
def text (s : WordSet W) : Except Fault (List Char) := s.digits '0' '1'

def bracketed (s : WordSet W) : Except Fault (List Char) := do
  return "BitSet(".toList ++ (← s.text) ++ ")".toList

end WordSet

namespace Shown

variable {W : Width}

/-- The text of a value under a layout, if the value has a text in its style. -/
def text? (f : Format) (v : Shown W) : Except Fault (Option (List Char)) :=
  match f.style, v with
  | .display, set s => return some (← s.text)
  | .binary, set s => return some (← s.text)
  | .debug _, set s => return some (← s.bracketed)
  | .display, coordinate p => return some p.text
  | .debug radix, coordinate p => return some (p.record.text f radix)
  | .debug radix, constant p => return some (p.constantRecord.text f radix)
  | .debug radix, mask m => return some (m.record.text f radix)
  | .debug radix, singles c => return some (c.record.text f radix)
  | .debug radix, members q => return some (q.record.text f radix)
  | _, _ => return none

end Shown

end Wordwise
