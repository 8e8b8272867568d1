/-
Relations: everything that the comparison operators say about two values, in one record.
-/
import Wordwise.WordSet.Basic

namespace Wordwise

/-- The answers of the six operators and of the comparison. -/
structure Relations where
  eq : Bool
  ne : Bool
  lt : Bool
  le : Bool
  gt : Bool
  ge : Bool
  ordering : Ordering
deriving DecidableEq

/-- How two values of one type relate. -/
def Relations.between {α : Type} [BEq α] [LT α] [LE α] [DecidableLT α] [DecidableLE α] [Ord α]
    (a b : α) : Relations where
  eq := a == b
  ne := a != b
  lt := decide (a < b)
  le := decide (a ≤ b)
  gt := decide (a > b)
  ge := decide (a ≥ b)
  ordering := compare a b

/-- How a set relates to a mask: both are compared in the plain form. -/
def WordSet.relateMask {W : Width} (s : WordSet W) (m : Mask W) : Relations :=
  .between s.toMask m

def Mask.relateSet {W : Width} (m : Mask W) (s : WordSet W) : Relations :=
  .between m s.toMask

end Wordwise
