/-
Formats: how a value is to be laid out, as a placeholder in braces asks for it. A placeholder
holds, in this order and each optional, a fill character with an alignment, a sign, a `#` for the
alternate form, a `0` for padding with zeros, a width, a precision after a point, and the style.
-/
import Wordwise.Numeral

namespace Wordwise

/-- Where a text stands in a field that is wider than it. -/
inductive Align where
  | left
  | center
  | right
deriving DecidableEq

/-- What a value is shown as. -/
inductive Style where
  /-- The text that is meant for readers. -/
  | display
  | binary
  /-- The structure of the value, with its numbers in this radix. -/
  | debug (radix : Radix)
deriving DecidableEq

structure Format where
  fill : Char
  align : Option Align
  plus : Bool
  alternate : Bool
  zeroPad : Bool
  width : Option Nat
  precision : Option Nat
  style : Style
deriving DecidableEq

namespace Format

/-- The layout of the empty placeholder. -/
def plain : Format := ⟨' ', none, false, false, false, none, none, .display⟩

instance : Inhabited Format := ⟨plain⟩

/-! ## Reading placeholders -/

/-- The alignment that a character stands for. -/
def align? : Char → Option Align
  | '<' => some .left
  | '^' => some .center
  | '>' => some .right
  | _ => none

/-- An alignment in front of the text, with the fill character before it if there is one. -/
def takeAlign : List Char → Char × Option Align × List Char
  | [] => (' ', none, [])
  | [c] =>
    match align? c with
    | some a => (' ', some a, [])
    | none => (' ', none, [c])
  | c :: d :: cs =>
    match align? d with
    | some a => (c, some a, cs)
    | none =>
      match align? c with
      | some a => (' ', some a, d :: cs)
      | none => (' ', none, c :: d :: cs)

/-- Whether the text starts with this character, and what follows it then. -/
def takeFlag (flag : Char) : List Char → Bool × List Char
  | [] => (false, [])
  | c :: cs => if c = flag then (true, cs) else (false, c :: cs)

/-- A sign in front of the text: whether it is a plus, and what follows it. -/
def takeSign (cs : List Char) : Bool × List Char :=
  match takeFlag '+' cs with
  | (true, rest) => (true, rest)
  | (false, _) => (false, (takeFlag '-' cs).2)

/-- A decimal number in front of the text. -/
def takeNumber (cs : List Char) : Option Nat × List Char :=
  match cs.takeWhile Char.isDigit with
  | [] => (none, cs)
  | ds => (some (Nat.ofDigitChars 10 ds 0), cs.dropWhile Char.isDigit)

/-- A point with a number after it in front of the text. -/
def takePrecision (cs : List Char) : Option Nat × List Char :=
  match takeFlag '.' cs with
  | (true, rest) => takeNumber rest
  | (false, _) => (none, cs)

/-- The style that a placeholder ends with. -/
def style? : List Char → Option Style
  | [] => some .display
  | ['b'] => some .binary
  | ['?'] => some (.debug .decimal)
  | ['x', '?'] => some (.debug .lowerHex)
  | ['X', '?'] => some (.debug .upperHex)
  | _ => none

/-- The layout that the text between the colon and the closing brace asks for. -/
def parseOptions? (cs : List Char) : Option Format := do
  let (fill, align, cs) := takeAlign cs
  let (plus, cs) := takeSign cs
  let (alternate, cs) := takeFlag '#' cs
  let (zeroPad, cs) := takeFlag '0' cs
  let (width, cs) := takeNumber cs
  let (precision, cs) := takePrecision cs
  let style ← style? cs
  some ⟨fill, align, plus, alternate, zeroPad, width, precision, style⟩

def parse? : List Char → Option Format
  | ['\x7b', '\x7d'] => some plain
  | '\x7b' :: ':' :: cs =>
    if cs.getLast? = some '\x7d' then parseOptions? cs.dropLast else none
  | _ => none

/-! ## Laying out numbers -/

/-- The characters that fill a field up to its width. -/
def padding (f : Format) (n : Nat) : List Char := List.replicate n f.fill

/-- Lay out a number that has been written in digits. The sign comes first, then the mark of the
radix in the alternate form. Zeros stand between these and the digits; other padding goes around
the whole, and the number stands at the right unless the layout aligns it. -/
def layout (f : Format) (negative : Bool) (mark digits : List Char) : List Char :=
  let sign := if negative then ['-'] else if f.plus then ['+'] else []
  let head := sign ++ if f.alternate then mark else []
  let gap := f.width.getD 0 - (head.length + digits.length)
  if f.zeroPad then head ++ List.replicate gap '0' ++ digits
  else
    match f.align.getD .right with
    | .left => head ++ digits ++ f.padding gap
    | .center => f.padding (gap / 2) ++ (head ++ digits) ++ f.padding (gap - gap / 2)
    | .right => f.padding gap ++ (head ++ digits)

/-- Lay out an integer of this many bits in a radix. Hexadecimal digits are those of its two's
complement, marked `0x`. -/
def number (f : Format) (radix : Radix) (bits : Nat) (i : Int) : List Char :=
  match radix with
  | .decimal => f.layout (decide (i < 0)) [] (radix.digits i.natAbs)
  | _ => f.layout false ['0', 'x'] (radix.digits (BitVec.ofInt bits i).toNat)

end Format

end Wordwise
