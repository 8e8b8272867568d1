/-
Arithmetic lane by lane. A number below `2 ^ (k * n)` is read as `n` lanes of `k` bits; as long as
every lane has room for its result, adding and subtracting work in each lane by itself and nothing is
carried into a neighbour. A product with a one in every lane gathers, in each lane, the sum of the
lanes up to it.
-/
import Mathlib.Algebra.BigOperators.Intervals
import Mathlib.Algebra.BigOperators.Ring.Finset
import Mathlib.Algebra.Order.BigOperators.Group.Finset
import Mathlib.Data.Nat.ModEq
import Mathlib.Tactic.Ring
import Wordwise.Checked

namespace Wordwise.Engine.Halving

open Finset

/-! ## Lanes -/

/-- The lane of `k` bits at an index. -/
def lane (k x i : Nat) : Nat := x / 2 ^ (k * i) % 2 ^ k

/-- The number with these lanes. -/
def ofLanes (k n : Nat) (f : Nat → Nat) : Nat := ∑ i ∈ range n, f i * 2 ^ (k * i)

theorem lane_lt (k x i : Nat) : lane k x i < 2 ^ k := Nat.mod_lt _ (Nat.two_pow_pos k)

theorem lane_succ (k x i : Nat) : lane k x (i + 1) = lane k (x / 2 ^ k) i := by
  unfold lane
  rw [Nat.div_div_eq_div_mul, ← Nat.pow_add, Nat.mul_succ, Nat.add_comm]

theorem ofLanes_succ (k n : Nat) (f : Nat → Nat) :
    ofLanes k (n + 1) f = 2 ^ k * ofLanes k n (fun i => f (i + 1)) + f 0 := by
  unfold ofLanes
  rw [sum_range_succ', mul_sum]
  congr 1
  · refine sum_congr rfl fun i _ => ?_
    rw [Nat.mul_succ, Nat.pow_add]
    ring
  · rw [Nat.mul_zero, Nat.pow_zero, Nat.mul_one]

theorem ofLanes_congr {k n : Nat} {f g : Nat → Nat} (h : ∀ i < n, f i = g i) :
    ofLanes k n f = ofLanes k n g :=
  sum_congr rfl fun i hi => by rw [h i (mem_range.1 hi)]

theorem ofLanes_add (k n : Nat) (f g : Nat → Nat) :
    ofLanes k n f + ofLanes k n g = ofLanes k n fun i => f i + g i := by
  unfold ofLanes
  rw [← sum_add_distrib]
  exact sum_congr rfl fun i _ => (Nat.add_mul _ _ _).symm

theorem ofLanes_lt {k : Nat} : ∀ {n : Nat} {f : Nat → Nat}, (∀ i < n, f i < 2 ^ k) →
    ofLanes k n f < 2 ^ (k * n)
  | 0, _, _ => by simp [ofLanes]
  | n + 1, f, hf => by
    have h0 := hf 0 (by omega)
    have ih := ofLanes_lt (k := k) (n := n) (f := fun i => f (i + 1)) fun i hi => hf (i + 1) (by omega)
    rw [ofLanes_succ, Nat.mul_succ, Nat.pow_add, Nat.mul_comm (2 ^ (k * n))]
    calc 2 ^ k * ofLanes k n (fun i => f (i + 1)) + f 0
        < 2 ^ k * ofLanes k n (fun i => f (i + 1)) + 2 ^ k := by omega
      _ = 2 ^ k * (ofLanes k n (fun i => f (i + 1)) + 1) := by ring
      _ ≤ 2 ^ k * 2 ^ (k * n) := Nat.mul_le_mul_left _ ih

/-- Lanes that fit can be read back. -/
theorem lane_ofLanes {k : Nat} : ∀ {n : Nat} {f : Nat → Nat}, (∀ i < n, f i < 2 ^ k) →
    ∀ {j : Nat}, j < n → lane k (ofLanes k n f) j = f j
  | 0, _, _, j, hj => absurd hj (Nat.not_lt_zero j)
  | n + 1, f, hf, 0, _ => by
    unfold lane
    rw [ofLanes_succ, Nat.mul_zero, Nat.pow_zero, Nat.div_one, Nat.mul_add_mod]
    exact Nat.mod_eq_of_lt (hf 0 (by omega))
  | n + 1, f, hf, j + 1, hj => by
    rw [lane_succ, ofLanes_succ, Nat.mul_add_div (Nat.two_pow_pos k),
      Nat.div_eq_of_lt (hf 0 (by omega)), Nat.add_zero]
    exact lane_ofLanes (fun i hi => hf (i + 1) (by omega)) (by omega)

/-- A number is made of its lanes. -/
theorem ofLanes_lane {k : Nat} : ∀ {n x : Nat}, x < 2 ^ (k * n) → ofLanes k n (lane k x) = x
  | 0, x, hx => by
    have : x = 0 := by simpa using hx
    simp [ofLanes, this]
  | n + 1, x, hx => by
    have hdiv : x / 2 ^ k < 2 ^ (k * n) := by
      rw [Nat.div_lt_iff_lt_mul (Nat.two_pow_pos k), ← Nat.pow_add]
      exact hx
    have h0 : lane k x 0 = x % 2 ^ k := by simp [lane]
    rw [ofLanes_succ, ofLanes_congr fun i _ => lane_succ k x i, ofLanes_lane hdiv, h0,
      Nat.div_add_mod]

theorem lane_and (k x y i : Nat) : lane k (x &&& y) i = lane k x i &&& lane k y i := by
  unfold lane
  rw [Nat.and_div_two_pow, Nat.and_mod_two_pow]

/-! ## Words lane by lane -/

section
variable {k n : Nat} {a b : BitVec 128} {f g : Nat → Nat}

theorem toNat_eq_ofLanes (hkn : k * n = 128) (ha : ∀ i < n, lane k a.toNat i = f i) :
    a.toNat = ofLanes k n f := by
  rw [← ofLanes_congr ha, ofLanes_lane]
  rw [hkn]
  exact a.isLt

/-- Words whose lanes have room for the sums are added without a carry. -/
theorem add_lanes (hkn : k * n = 128) (ha : ∀ i < n, lane k a.toNat i = f i)
    (hb : ∀ i < n, lane k b.toNat i = g i) (hfg : ∀ i < n, f i + g i < 2 ^ k) :
    ∃ s, Checked.add a b = .ok s ∧ ∀ i < n, lane k s.toNat i = f i + g i := by
  have hsum : a.toNat + b.toNat = ofLanes k n fun i => f i + g i := by
    rw [toNat_eq_ofLanes hkn ha, toNat_eq_ofLanes hkn hb, ofLanes_add]
  have hlt : a.toNat + b.toNat < 2 ^ 128 := by
    rw [hsum, ← hkn]
    exact ofLanes_lt hfg
  refine ⟨a + b, ?_, fun i hi => ?_⟩
  · have hover : a.uaddOverflow b = false := decide_eq_false (Nat.not_le.2 hlt)
    unfold Checked.add
    rw [hover]
    rfl
  · rw [BitVec.toNat_add, Nat.mod_eq_of_lt hlt, hsum]
    exact lane_ofLanes hfg hi

/-- A word with smaller lanes is subtracted without a borrow. -/
theorem sub_lanes (hkn : k * n = 128) (ha : ∀ i < n, lane k a.toNat i = f i)
    (hb : ∀ i < n, lane k b.toNat i = g i) (hgf : ∀ i < n, g i ≤ f i) :
    ∃ d, Checked.sub a b = .ok d ∧ ∀ i < n, lane k d.toNat i = f i - g i := by
  have hsum : ofLanes k n (fun i => f i - g i) + b.toNat = a.toNat := by
    rw [toNat_eq_ofLanes hkn ha, toNat_eq_ofLanes hkn hb, ofLanes_add]
    exact ofLanes_congr fun i hi => Nat.sub_add_cancel (hgf i hi)
  have hle : b.toNat ≤ a.toNat := by omega
  refine ⟨a - b, ?_, fun i hi => ?_⟩
  · have hunder : a.usubOverflow b = false := decide_eq_false (Nat.not_lt.2 hle)
    unfold Checked.sub
    rw [hunder]
    rfl
  · rw [BitVec.toNat_sub_of_le hle, ← hsum, Nat.add_sub_cancel]
    refine lane_ofLanes (fun i hi => ?_) hi
    have := lane_lt k a.toNat i
    rw [ha i hi] at this
    omega

end

/-! ## The product -/

/-- Times a one in every lane, a number has the sums of its lanes up to each one in that lane. -/
theorem mul_ones_modEq (k : Nat) : ∀ (n : Nat) (f : Nat → Nat),
    ofLanes k n f * ofLanes k n (fun _ => 1) ≡
      ofLanes k n (fun j => ∑ i ∈ range (j + 1), f i) [MOD 2 ^ (k * n)]
  | 0, f => by simp [ofLanes, Nat.ModEq]
  | n + 1, f => by
    have hones : ofLanes k (n + 1) (fun _ => 1) = ofLanes k n (fun _ => 1) + 2 ^ (k * n) := by
      unfold ofLanes
      rw [sum_range_succ, Nat.one_mul]
    have hsums : ofLanes k (n + 1) (fun j => ∑ i ∈ range (j + 1), f i) =
        f 0 * ofLanes k (n + 1) (fun _ => 1) +
          2 ^ k * ofLanes k n (fun j => ∑ i ∈ range (j + 1), f (i + 1)) := by
      have hshift : 2 ^ k * ofLanes k n (fun j => ∑ i ∈ range (j + 1), f (i + 1)) =
          ofLanes k (n + 1) fun j => ∑ i ∈ range j, f (i + 1) := by
        rw [ofLanes_succ, sum_range_zero, Nat.add_zero]
      have hfirst : f 0 * ofLanes k (n + 1) (fun _ => 1) = ofLanes k (n + 1) fun _ => f 0 := by
        unfold ofLanes
        rw [mul_sum]
        exact sum_congr rfl fun i _ => by rw [Nat.one_mul]
      rw [hshift, hfirst, ofLanes_add]
      refine ofLanes_congr fun j _ => ?_
      rw [sum_range_succ', Nat.add_comm]
    have ih : 2 ^ k * (ofLanes k n (fun i => f (i + 1)) * ofLanes k n (fun _ => 1)) ≡
        2 ^ k * ofLanes k n (fun j => ∑ i ∈ range (j + 1), f (i + 1)) [MOD 2 ^ (k * (n + 1))] := by
      rw [Nat.mul_succ, Nat.pow_add, Nat.mul_comm (2 ^ (k * n))]
      exact (mul_ones_modEq k n fun i => f (i + 1)).mul_left' _
    rw [hsums]
    calc ofLanes k (n + 1) f * ofLanes k (n + 1) (fun _ => 1)
        = f 0 * ofLanes k (n + 1) (fun _ => 1) +
            2 ^ k * (ofLanes k n (fun i => f (i + 1)) * ofLanes k n (fun _ => 1)) +
            2 ^ (k * (n + 1)) * ofLanes k n (fun i => f (i + 1)) := by
          rw [ofLanes_succ k n f, hones, Nat.mul_succ, Nat.pow_add]
          ring
      _ ≡ f 0 * ofLanes k (n + 1) (fun _ => 1) +
            2 ^ k * (ofLanes k n (fun i => f (i + 1)) * ofLanes k n (fun _ => 1))
            [MOD 2 ^ (k * (n + 1))] := by
          unfold Nat.ModEq
          rw [Nat.add_mul_mod_self_left]
      _ ≡ _ [MOD 2 ^ (k * (n + 1))] := Nat.ModEq.add_left _ ih

/-- When every lane has room for the whole sum, no lane of that product spills into the next one. -/
theorem lane_mul_ones {k n : Nat} {f : Nat → Nat} (hf : ∑ i ∈ range n, f i < 2 ^ k) {j : Nat}
    (hj : j < n) : lane k (ofLanes k n f * ofLanes k n (fun _ => 1) % 2 ^ (k * n)) j =
      ∑ i ∈ range (j + 1), f i := by
  have hsums : ∀ j < n, ∑ i ∈ range (j + 1), f i < 2 ^ k := fun j hj =>
    Nat.lt_of_le_of_lt (sum_le_sum_of_subset (range_subset_range.2 (Nat.succ_le_of_lt hj))) hf
  rw [mul_ones_modEq k n f, Nat.mod_eq_of_lt (ofLanes_lt hsums), lane_ofLanes hsums hj]

/-- What is left above all other lanes is the top one. -/
theorem div_eq_lane {k n x : Nat} (hx : x < 2 ^ (k * (n + 1))) : x / 2 ^ (k * n) = lane k x n := by
  unfold lane
  rw [Nat.mod_eq_of_lt]
  rw [Nat.div_lt_iff_lt_mul (Nat.two_pow_pos _), ← Nat.pow_add, Nat.add_comm, ← Nat.mul_succ]
  exact hx

end Wordwise.Engine.Halving
