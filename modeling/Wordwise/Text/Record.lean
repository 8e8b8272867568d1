/-
Records: the structure of a value, as names around one integer. A record is written on one line,
or in the alternate form with each field on a line of its own, indented by four blanks a level and
followed by a comma. The rest of the layout reaches the integer only.
-/
import Wordwise.Text.Format

namespace Wordwise

inductive Record where
  /-- An integer of this many bits. -/
  | number (bits : Nat) (value : Int)
  /-- A named record with one field. -/
  | field (name label : String) (value : Record)
deriving DecidableEq

namespace Record

def line (f : Format) (radix : Radix) : Record → List Char
  | number bits i => f.number radix bits i
  | field name label r =>
    name.toList ++ " \x7b ".toList ++ label.toList ++ ": ".toList ++ r.line f radix ++
      " \x7d".toList

def indent (depth : Nat) : List Char := List.replicate (4 * depth) ' '

/-- The record over several lines, from a line of this depth on. -/
def lines (f : Format) (radix : Radix) (depth : Nat) : Record → List Char
  | number bits i => f.number radix bits i
  | field name label r =>
    name.toList ++ " \x7b\n".toList ++ indent (depth + 1) ++ label.toList ++ ": ".toList ++
      r.lines f radix (depth + 1) ++ ",\n".toList ++ indent depth ++ "\x7d".toList

/-- The record as the layout asks for it. -/
def text (f : Format) (radix : Radix) (r : Record) : List Char :=
  if f.alternate then r.lines f radix 0 else r.line f radix

end Record

end Wordwise
