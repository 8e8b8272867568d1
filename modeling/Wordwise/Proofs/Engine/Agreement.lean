/-
The two engines agree: on every word of every width the halving engine never refuses and gives the
counts of the bit vector. The narrower words lose nothing when they are widened; only the leading
zeros have to be taken from their own width.
-/
import Wordwise.Proofs.Engine.LaneSums
import Wordwise.Proofs.Engine.Search

namespace Wordwise.Engine

variable {W : Width}

/-! ## Widening -/

theorem toNat_wide (a : Word W) : (wide a).toNat = a.toNat :=
  BitVec.toNat_setWidth_of_le W.bits_le

theorem toNat_wide_lt (a : Word W) : (wide a).toNat < 2 ^ W.bits := by
  rw [toNat_wide]
  exact a.isLt

theorem wide_eq_zero_iff {a : Word W} : wide a = 0 ↔ a = 0 :=
  setWidth_eq_zero_iff W.bits_le

theorem ctz_wide {a : Word W} (ha : a ≠ 0) : (wide a).ctz.toNat = a.ctz.toNat :=
  ctz_setWidth W.bits_le ha

/-! ## Leading zeros -/

namespace Halving

theorem checkWidth_eq {a : BitVec 128} {width : Nat} (ha : a.toNat < 2 ^ width)
    (hw : width ≤ 128) : checkWidth a width = .ok () := by
  unfold checkWidth
  by_cases hfull : width = 128
  · rw [if_pos hfull]
  have hzero : a >>> width = 0 := by
    apply BitVec.eq_of_toNat_eq
    rw [BitVec.toNat_ushiftRight, Nat.shiftRight_eq_div_pow, Nat.div_eq_of_lt ha]
    rfl
  unfold Checked.shiftRight
  rw [if_neg hfull, if_pos (by omega), hzero]
  rfl

theorem subSigned_eq {i j : Int} (h : -2147483648 ≤ i - j ∧ i - j < 2147483648) :
    Checked.subSigned i j = .ok (i - j) :=
  if_pos h

/-- The logarithm of a word stays below its width. -/
theorem log2_fits {a : BitVec 128} {width : Nat} (ha : a.toNat < 2 ^ width) :
    ∃ log : Int, log2 a = .ok log ∧ -1 ≤ log ∧ log < width := by
  refine ⟨_, log2_eq a, ?_⟩
  by_cases hz : a = 0
  · rw [if_pos hz]
    omega
  · have hlt : a.toNat.log2 < width := by
      rw [Nat.log2_lt (toNat_ne_zero hz)]
      exact ha
    rw [if_neg hz]
    omega

/-- The leading zeros of a word that fits in its width are what the logarithm leaves of it. The
difference is small, so it fits in a signed and in an unsigned count. -/
theorem leading_eq_sub {a : BitVec 128} {width : Nat} {log : Int} (ha : a.toNat < 2 ^ width)
    (hw : width ≤ 128) (hlog : log2 a = .ok log) : leading a width = .ok (width - 1 - log).toNat := by
  obtain ⟨log', hlog', hlo, hhi⟩ := log2_fits ha
  obtain rfl : log' = log := Except.ok.inj (hlog'.symm.trans hlog)
  unfold leading
  rw [checkWidth_eq ha hw, subSigned_eq (by omega), hlog, Checked.ok_bind, Checked.ok_bind, Checked.ok_bind,
    subSigned_eq (by omega), Checked.ok_bind, BitVec.toNat_ofInt, Int.emod_eq_of_lt (by omega) (by omega)]

theorem leading_eq {a : BitVec 128} {width : Nat} (ha : a.toNat < 2 ^ width) (hw : width ≤ 128) :
    leading a width = .ok (if a = 0 then width else width - 1 - a.toNat.log2) := by
  rw [leading_eq_sub ha hw (log2_eq a)]
  congr 1
  split <;> omega

end Halving

/-! ## Agreement -/

/-- An engine is its four counts. -/
theorem eq_of_counts {e d : Engine}
    (trailing : ∀ (W : Width) (a : Word W), e.trailing a = d.trailing a)
    (leading : ∀ (W : Width) (a : Word W), e.leading a = d.leading a)
    (log2 : ∀ (W : Width) (a : Word W), e.log2 a = d.log2 a)
    (ones : ∀ (W : Width) (a : Word W), e.ones a = d.ones a) : e = d := by
  have htrailing : @e.trailing = @d.trailing := funext fun W => funext (trailing W)
  have hleading : @e.leading = @d.leading := funext fun W => funext (leading W)
  have hlog2 : @e.log2 = @d.log2 := funext fun W => funext (log2 W)
  have hones : @e.ones = @d.ones := funext fun W => funext (ones W)
  calc e = ⟨e.trailing, e.leading, e.log2, e.ones⟩ := rfl
    _ = ⟨d.trailing, d.leading, d.log2, d.ones⟩ := by rw [htrailing, hleading, hlog2, hones]
    _ = d := rfl

theorem halving_trailing (a : Word W) : halving.trailing a = .ok a.ctz.toNat := by
  show Halving.trailing (wide a) W.bits = _
  by_cases ha : a = 0
  · unfold Halving.trailing
    rw [if_pos (wide_eq_zero_iff.2 ha), ha, ctz_zero]
  · rw [Halving.trailing_of_ne_zero (fun hz => ha (wide_eq_zero_iff.1 hz)), ctz_wide ha]

theorem halving_leading (a : Word W) : halving.leading a = .ok a.clz.toNat := by
  show Halving.leading (wide a) W.bits = _
  rw [Halving.leading_eq (toNat_wide_lt a) W.bits_le, toNat_wide]
  by_cases ha : a = 0
  · rw [if_pos (wide_eq_zero_iff.2 ha), ha, clz_zero]
  · rw [if_neg fun hz => ha (wide_eq_zero_iff.1 hz), clz_eq ha]

theorem halving_log2 (a : Word W) :
    halving.log2 a = .ok (if a = 0 then -1 else (a.toNat.log2 : Int)) := by
  show Halving.log2 (wide a) = _
  rw [Halving.log2_eq, toNat_wide]
  simp only [wide_eq_zero_iff]

theorem halving_ones (a : Word W) : halving.ones a = .ok a.cpop.toNat := by
  show Halving.ones (wide a) = _
  rw [Halving.ones_eq, wide, BitVec.toNat_cpop_setWidth_eq_of_le W.bits_le]

/-- The halving engine is the direct one. -/
theorem halving_eq_direct : halving = direct :=
  eq_of_counts (fun _ => halving_trailing) (fun _ => halving_leading) (fun _ => halving_log2)
    (fun _ => halving_ones)

/-- Every build counts alike. -/
theorem select_eq_direct (portable : Bool) : select portable = direct := by
  cases portable
  · rfl
  · exact halving_eq_direct

end Wordwise.Engine
