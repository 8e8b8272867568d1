/-
What a build shows. The counts have a plain meaning: look at the bits one after the other, from the
one end or from the other, until one is set; or look at all of them and count. The engine that does
so is the common measure of all builds: with any engine that a build can have, every operation that
needs a count answers the same, every walk visits the same positions, and every script has the same
outcomes, with the same values in between and the same refusals.
-/
import Mathlib.Data.Nat.Log
import Wordwise.Proofs.Engine.Agreement
import Wordwise.Script.Cursors
import Wordwise.Script.Positions
import Wordwise.Script.Sets
import Wordwise.Walk

namespace Wordwise.Engine

variable {W : Width}

/-! ## Counts by looking -/

/-- The engine that looks at the bits of a word. Zeros are counted up to the first set bit, from
below and from above; a word without a set bit is looked through to its end. -/
def looking : Engine where
  trailing {W} a := .ok ((List.range W.bits).findIdx a.getLsbD)
  leading {W} a := .ok ((List.range W.bits).reverse.findIdx a.getLsbD)
  log2 a := .ok (if a = 0 then -1 else (Nat.log 2 a.toNat : Int))
  ones {W} a := .ok ((List.range W.bits).countP a.getLsbD)

theorem findIdx_range_eq_ctz (a : Word W) :
    (List.range W.bits).findIdx a.getLsbD = a.ctz.toNat := by
  by_cases ha : a = 0
  · have hnone : ∀ i ∈ List.range W.bits, a.getLsbD i = false := fun i _ => by
      rw [ha]
      exact BitVec.getLsbD_zero
    rw [List.findIdx_eq_length.2 hnone, List.length_range, ha, ctz_zero]
  · rw [List.findIdx_eq (by rw [List.length_range]; exact ctz_lt ha), List.getElem_range]
    refine ⟨BitVec.getLsbD_true_ctz_of_ne_zero ha, fun i hi => ?_⟩
    rw [List.getElem_range]
    exact BitVec.getLsbD_false_of_lt_ctz hi

/-- Looked at from above, bit `W.bits - 1 - i` stands at index `i`. -/
theorem findIdx_reverse_eq_clz (a : Word W) :
    (List.range W.bits).reverse.findIdx a.getLsbD = a.clz.toNat := by
  by_cases ha : a = 0
  · have hnone : ∀ i ∈ (List.range W.bits).reverse, a.getLsbD i = false := fun i _ => by
      rw [ha]
      exact BitVec.getLsbD_zero
    rw [List.findIdx_eq_length.2 hnone, List.length_reverse, List.length_range, ha, clz_zero]
  · have hlog := log2_lt ha
    rw [clz_eq ha, List.findIdx_eq (by rw [List.length_reverse, List.length_range]; omega)]
    refine ⟨?_, fun i hi => ?_⟩
    · rw [List.getElem_reverse, List.getElem_range, List.length_range,
        show W.bits - 1 - (W.bits - 1 - a.toNat.log2) = a.toNat.log2 by omega]
      exact getLsbD_log2 ha
    · rw [List.getElem_reverse, List.getElem_range, List.length_range, ← Bool.not_eq_true]
      intro hset
      have := le_log2_of_getLsbD hset
      omega

/-- The direct engine, and so every other, finds what looking finds. -/
theorem direct_eq_looking : direct = looking := by
  apply eq_of_counts
  case trailing => exact fun W a => congrArg Except.ok (findIdx_range_eq_ctz a).symm
  case leading => exact fun W a => congrArg Except.ok (findIdx_reverse_eq_clz a).symm
  case log2 =>
    intro W a
    rw [direct_log2, Nat.log2_eq_log_two]
    rfl
  case ones => exact fun W a => congrArg Except.ok (countP_range_eq_cpop a).symm

/-! ## What can be observed -/

/-- Two engines that no operation and no script tells apart. The operations that take no engine are
the same in every build anyhow. -/
structure Alike (e d : Engine) : Prop where
  trailing : ∀ {W : Width} (a : Word W), e.trailing a = d.trailing a
  leading : ∀ {W : Width} (a : Word W), e.leading a = d.leading a
  log2 : ∀ {W : Width} (a : Word W), e.log2 a = d.log2 a
  ones : ∀ {W : Width} (a : Word W), e.ones a = d.ones a
  ofWord : ∀ {W : Width} (a : Word W), Position.ofWord e a = Position.ofWord d a
  count : ∀ {W : Width} (s : WordSet W), s.count e = s.count d
  highest : ∀ {W : Width} (s : WordSet W), s.highest e = s.highest d
  lowestPosition : ∀ {W : Width} (s : WordSet W), s.lowestPosition e = s.lowestPosition d
  highestPosition : ∀ {W : Width} (s : WordSet W), s.highestPosition e = s.highestPosition d
  next : ∀ {W : Width} (p : Position) (o : Operand W), p.next e o = p.next d o
  prev : ∀ {W : Width} (p : Position) (o : Operand W), p.prev e o = p.prev d o
  walkUp : ∀ {W : Width} (o : Operand W) (p : Position),
    Position.walkUp e o p = Position.walkUp d o p
  walkDown : ∀ {W : Width} (o : Operand W) (p : Position),
    Position.walkDown e o p = Position.walkDown d o p
  toList : ∀ {W : Width} (q : Members W), q.toList e = q.toList d
  sets : ∀ {W : Width} (s : WordSet W) (is : List (WordSet.Step W)),
    Script.run (WordSet.step e) s is = Script.run (WordSet.step d) s is
  positions : ∀ (p : Position) (is : List Position.Step),
    Script.run (Position.step e) p is = Script.run (Position.step d) p is
  copies : ∀ (p : Position) (is : List Position.Step),
    Script.run (Script.onCopy (Position.step e)) p is = Script.run (Script.onCopy (Position.step d)) p is
  cursors : ∀ {W : Width} (c : Singles W) (is : List (Singles.Step W)),
    Script.run (Singles.step e) c is = Script.run (Singles.step d) c is
  queues : ∀ {W : Width} (q : Members W) (is : List Members.Step),
    Script.run (Members.step e) q is = Script.run (Members.step d) q is

theorem Alike.refl (e : Engine) : Alike e e := by
  constructor <;> intros <;> rfl

/-- Every build, portable or not, shows what looking at the bits shows. -/
theorem builds_alike (portable : Bool) : Alike (select portable) looking := by
  rw [select_eq_direct, direct_eq_looking]
  exact Alike.refl looking

end Wordwise.Engine
