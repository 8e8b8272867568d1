/-
Sinks: where text is written one character at a time. A sink may have a capacity in bytes, and
then it refuses a character that would take it above.
-/

namespace Wordwise

/-- What has been written, and how many bytes may be. -/
structure Sink where
  cap : Option Nat
  written : List Char
deriving DecidableEq

namespace Sink

/-- The sink that a text is made in. -/
def unbounded : Sink := ⟨none, []⟩

def bounded (cap : Nat) : Sink := ⟨some cap, []⟩

/-- The length of a text in bytes of UTF-8. -/
def byteLength : List Char → Nat
  | [] => 0
  | c :: cs => c.utf8Size + byteLength cs

@[simp] theorem byteLength_nil : byteLength [] = 0 := rfl

@[simp] theorem byteLength_cons (c : Char) (cs : List Char) :
    byteLength (c :: cs) = c.utf8Size + byteLength cs := rfl

@[simp] theorem byteLength_append (cs ds : List Char) :
    byteLength (cs ++ ds) = byteLength cs + byteLength ds := by
  induction cs with
  | nil => simp
  | cons c cs ih => simp [ih, Nat.add_assoc]

/-- The sink with one more character, unless it is refused. -/
def push? (out : Sink) (c : Char) : Option Sink :=
  match out.cap with
  | none => some { out with written := out.written ++ [c] }
  | some cap =>
    if byteLength out.written + c.utf8Size ≤ cap then
      some { out with written := out.written ++ [c] }
    else none

end Sink

end Wordwise
