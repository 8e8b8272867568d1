/-
Engines: the four counts on which every search for a set bit rests. A library that has them as
machine instructions and one that computes them with shifts and masks differ in nothing else, so
the operations that need them take an engine.
-/
import Wordwise.Fault

namespace Wordwise

/-- A way to count the bits of words of every width. -/
structure Engine where
  /-- The number of clear bits below the lowest set one; the width for zero. -/
  trailing : {W : Width} → Word W → Except Fault Nat
  /-- The number of clear bits above the highest set one; the width for zero. -/
  leading : {W : Width} → Word W → Except Fault Nat
  /-- The position of the highest set bit; minus one for zero. -/
  log2 : {W : Width} → Word W → Except Fault Int
  /-- The number of set bits. -/
  ones : {W : Width} → Word W → Except Fault Nat

end Wordwise
