/-
The lane sums of the halving engine. Each stage counts the set bits in lanes twice as wide as those
before it: pairs hold at most two, nibbles at most four, bytes at most eight, so every lane has room
for its sum and nothing is carried or borrowed. The product then gathers the bytes into the top one,
which has room for the whole count of 128.
-/
import Wordwise.Engine.Halving
import Wordwise.Proofs.Engine.Lanes
import Wordwise.Proofs.SetBits

namespace Wordwise.Engine.Halving

open Finset

/-! ## Counts of lanes -/

/-- The number of set bits in the lane of `k` bits at an index. -/
def laneCount (k : Nat) (a : BitVec 128) (i : Nat) : Nat :=
  (List.range k).countP fun j => a.getLsbD (k * i + j)

theorem laneCount_le (k : Nat) (a : BitVec 128) (i : Nat) : laneCount k a i ≤ k :=
  List.countP_le_length.trans_eq List.length_range

theorem laneCount_one (a : BitVec 128) (i : Nat) : laneCount 1 a i = a.toNat / 2 ^ i % 2 := by
  have hbit : a.getLsbD i = decide (a.toNat / 2 ^ i % 2 = 1) := Nat.testBit_eq_decide_div_mod_eq
  unfold laneCount
  rcases Nat.mod_two_eq_zero_or_one (a.toNat / 2 ^ i) with hmod | hmod <;>
    simp [List.range_succ, hbit, hmod]

/-- A lane has the set bits of its two halves. -/
theorem laneCount_two_mul (k : Nat) (a : BitVec 128) (i : Nat) :
    laneCount (2 * k) a i = laneCount k a (2 * i) + laneCount k a (2 * i + 1) := by
  unfold laneCount
  rw [Nat.two_mul k, List.range_add, List.countP_append, List.countP_map]
  have hlow : (k + k) * i = k * (2 * i) := by ring
  have hhigh : ∀ j, k * (2 * i) + (k + j) = k * (2 * i + 1) + j := fun j => by ring
  simp only [Function.comp_def, hlow, hhigh]

/-- The lanes below a bound have the set bits below it. -/
theorem sum_laneCount (k : Nat) (a : BitVec 128) : ∀ n : Nat,
    ∑ i ∈ range n, laneCount k a i = (List.range (k * n)).countP a.getLsbD
  | 0 => rfl
  | n + 1 => by
    rw [sum_range_succ, sum_laneCount k a n, Nat.mul_succ, List.range_add, List.countP_append,
      List.countP_map]
    rfl

/-- Each of the `n` lanes of a word holds the number of set bits that another word has there. -/
def HoldsCounts (k n : Nat) (a c : BitVec 128) : Prop :=
  ∀ i < n, lane k c.toNat i = laneCount k a i

theorem HoldsCounts.le {k n : Nat} {a c : BitVec 128} (h : HoldsCounts k n a c) {i : Nat} (hi : i < n) :
    lane k c.toNat i ≤ k :=
  (h i hi).trans_le (laneCount_le k a i)

/-! ## The stages -/

theorem lane_everySecond : ∀ i < 64, lane 2 everySecond.toNat i = 1 := by decide +kernel

theorem lane_lowPairs : ∀ i < 32, lane 4 lowPairs.toNat i = 3 := by decide +kernel

theorem lane_lowNibbles : ∀ i < 16, lane 8 lowNibbles.toNat i = 15 := by decide +kernel

theorem pairCounts_spec (a : BitVec 128) : ∃ p, pairCounts a = .ok p ∧ HoldsCounts 2 64 a p := by
  have hhigh : ∀ i < 64, lane 2 ((a >>> 1) &&& everySecond).toNat i = lane 2 a.toNat i / 2 := by
    intro i hi
    rw [BitVec.toNat_and, BitVec.toNat_ushiftRight, lane_and, lane_everySecond i hi,
      Nat.and_one_is_mod, Nat.shiftRight_eq_div_pow]
    unfold lane
    rw [Nat.div_div_eq_div_mul, Nat.mul_comm, ← Nat.div_div_eq_div_mul]
    omega
  obtain ⟨p, hp, hlane⟩ := sub_lanes (k := 2) (n := 64) rfl (fun _ _ => rfl) hhigh
    fun i _ => Nat.div_le_self _ _
  refine ⟨p, hp, fun i hi => ?_⟩
  -- a pair of bits less its high one is the sum of the two
  have hpair : laneCount 2 a i = laneCount 1 a (2 * i) + laneCount 1 a (2 * i + 1) :=
    laneCount_two_mul 1 a i
  rw [hlane i hi, hpair, laneCount_one, laneCount_one, Nat.pow_succ, ← Nat.div_div_eq_div_mul]
  unfold lane
  omega

theorem nibbleCounts_spec {a p : BitVec 128} (hp : HoldsCounts 2 64 a p) :
    ∃ q, nibbleCounts p = .ok q ∧ HoldsCounts 4 32 a q := by
  -- the mask keeps the even pairs where they are, and the shift brings the odd ones down
  have hlow : ∀ i < 32, lane 4 (p &&& lowPairs).toNat i = lane 2 p.toNat (2 * i) := by
    intro i hi
    rw [BitVec.toNat_and, lane_and, lane_lowPairs i hi]
    refine (Nat.and_two_pow_sub_one_eq_mod _ 2).trans ?_
    unfold lane
    rw [← Nat.mul_assoc, Nat.mod_mod_of_dvd _ (by decide)]
  have hhigh : ∀ i < 32, lane 4 ((p >>> 2) &&& lowPairs).toNat i = lane 2 p.toNat (2 * i + 1) := by
    intro i hi
    rw [BitVec.toNat_and, BitVec.toNat_ushiftRight, lane_and, lane_lowPairs i hi]
    refine (Nat.and_two_pow_sub_one_eq_mod _ 2).trans ?_
    unfold lane
    rw [Nat.shiftRight_eq_div_pow, Nat.div_div_eq_div_mul, ← Nat.pow_add,
      Nat.mod_mod_of_dvd _ (by decide), show 2 + 4 * i = 2 * (2 * i + 1) by omega]
  obtain ⟨q, hq, hlane⟩ := add_lanes (k := 4) (n := 32) rfl hlow hhigh fun i hi => by
    have h₁ := hp.le (i := 2 * i) (by omega)
    have h₂ := hp.le (i := 2 * i + 1) (by omega)
    omega
  refine ⟨q, hq, fun i hi => ?_⟩
  rw [hlane i hi, hp _ (by omega), hp _ (by omega)]
  exact (laneCount_two_mul 2 a i).symm

/-- Each nibble and the one above it are added without a carry, before every second sum is dropped. -/
theorem nibbleSums_spec {a q : BitVec 128} (hq : HoldsCounts 4 32 a q) :
    ∃ s, Checked.add q (q >>> 4) = .ok s ∧
      ∀ i < 32, lane 4 s.toNat i = lane 4 q.toNat i + lane 4 q.toNat (i + 1) := by
  have hnext : ∀ i < 32, lane 4 (q >>> 4).toNat i = lane 4 q.toNat (i + 1) := by
    intro i _
    rw [BitVec.toNat_ushiftRight, Nat.shiftRight_eq_div_pow, lane_succ]
  -- nothing is shifted into the topmost nibble
  have htop : lane 4 q.toNat 32 = 0 := by
    unfold lane
    rw [Nat.div_eq_of_lt q.isLt, Nat.zero_mod]
  refine add_lanes (k := 4) (n := 32) rfl (fun _ _ => rfl) hnext fun i hi => ?_
  have h₁ := hq.le hi
  have h₂ : lane 4 q.toNat (i + 1) ≤ 4 := by
    rcases Nat.lt_or_ge (i + 1) 32 with h | h
    · exact hq.le h
    · rw [show i + 1 = 32 by omega, htop]
      omega
  omega

theorem byteCounts_spec {a q : BitVec 128} (hq : HoldsCounts 4 32 a q) :
    ∃ r, byteCounts q = .ok r ∧ HoldsCounts 8 16 a r := by
  obtain ⟨s, hs, hlane⟩ := nibbleSums_spec hq
  refine ⟨s &&& lowNibbles, ?_, fun i hi => ?_⟩
  · unfold byteCounts
    rw [hs]
    rfl
  · have hlow : lane 8 (s &&& lowNibbles).toNat i = lane 4 s.toNat (2 * i) := by
      rw [BitVec.toNat_and, lane_and, lane_lowNibbles i hi]
      refine (Nat.and_two_pow_sub_one_eq_mod _ 4).trans ?_
      unfold lane
      rw [Nat.mod_mod_of_dvd _ (by decide), ← Nat.mul_assoc]
    rw [hlow, hlane _ (by omega), hq _ (by omega), hq _ (by omega)]
    exact (laneCount_two_mul 4 a i).symm

/-! ## The product -/

theorem byteUnits_eq : byteUnits.toNat = ofLanes 8 16 fun _ => 1 := by decide +kernel

/-- Each byte of the product holds the number of set bits up to that byte. -/
theorem product_spec {a r : BitVec 128} (hr : HoldsCounts 8 16 a r) {j : Nat} (hj : j < 16) :
    lane 8 (r * byteUnits).toNat j = (List.range (8 * (j + 1))).countP a.getLsbD := by
  have hsum : ∀ j < 16, ∑ i ∈ range (j + 1), lane 8 r.toNat i =
      (List.range (8 * (j + 1))).countP a.getLsbD := by
    intro j hj
    rw [← sum_laneCount]
    exact sum_congr rfl fun i hi => hr i (Nat.lt_of_lt_of_le (mem_range.1 hi) hj)
  have hroom : ∑ i ∈ range 16, lane 8 r.toNat i < 2 ^ 8 := by
    rw [hsum 15 (by decide)]
    refine Nat.lt_of_le_of_lt List.countP_le_length ?_
    rw [List.length_range]
    decide
  have hlane := lane_mul_ones hroom hj
  rw [ofLanes_lane (n := 16) r.isLt, ← byteUnits_eq, hsum j hj] at hlane
  rw [BitVec.toNat_mul]
  exact hlane

/-- The sum of all bytes is the top byte of the product. -/
theorem total_eq {a r : BitVec 128} (hr : HoldsCounts 8 16 a r) :
    total r = (List.range 128).countP a.getLsbD := by
  unfold total
  rw [BitVec.toNat_ushiftRight, Nat.shiftRight_eq_div_pow]
  exact (div_eq_lane (k := 8) (n := 15) (r * byteUnits).isLt).trans (product_spec hr (by decide))

/-! ## The whole count -/

/-- The lane sums of a word: what each stage gives, none of them refused, and what its lanes hold. -/
structure LaneSums (x p q s r : BitVec 128) : Prop where
  pairs : pairCounts x = .ok p
  pairLanes : ∀ i < 64, lane 2 p.toNat i = laneCount 2 x i ∧ laneCount 2 x i ≤ 2
  nibbles : nibbleCounts p = .ok q
  nibbleLanes : ∀ i < 32, lane 4 q.toNat i = laneCount 4 x i ∧ laneCount 4 x i ≤ 4
  sums : Checked.add q (q >>> 4) = .ok s
  sumLanes : ∀ i < 32, lane 4 s.toNat i = lane 4 q.toNat i + lane 4 q.toNat (i + 1)
  bytes : byteCounts q = .ok r
  byteLanes : ∀ i < 16, lane 8 r.toNat i = laneCount 8 x i ∧ laneCount 8 x i ≤ 8
  productLanes : ∀ i < 16, lane 8 (r * byteUnits).toNat i = (List.range (8 * (i + 1))).countP x.getLsbD
  total : total r = (List.range 128).countP x.getLsbD ∧ total r ≤ 128

theorem HoldsCounts.counts {k n : Nat} {a c : BitVec 128} (h : HoldsCounts k n a c) :
    ∀ i < n, lane k c.toNat i = laneCount k a i ∧ laneCount k a i ≤ k :=
  fun i hi => ⟨h i hi, laneCount_le k a i⟩

theorem laneSums_spec (x : BitVec 128) : ∃ p q s r, LaneSums x p q s r := by
  obtain ⟨p, hp, hpairs⟩ := pairCounts_spec x
  obtain ⟨q, hq, hnibbles⟩ := nibbleCounts_spec hpairs
  obtain ⟨s, hs, hsums⟩ := nibbleSums_spec hnibbles
  obtain ⟨r, hr, hbytes⟩ := byteCounts_spec hnibbles
  have htotal := total_eq hbytes
  have hle : (List.range 128).countP x.getLsbD ≤ 128 :=
    List.countP_le_length.trans_eq List.length_range
  exact ⟨p, q, s, r, hp, hpairs.counts, hq, hnibbles.counts, hs, hsums, hr, hbytes.counts,
    fun _ => product_spec hbytes, htotal, htotal.trans_le hle⟩

/-- No stage overflows, and the bytes add up to the number of set bits. -/
theorem ones_eq (a : BitVec 128) : ones a = .ok a.cpop.toNat := by
  obtain ⟨p, q, s, r, h⟩ := laneSums_spec a
  unfold ones
  rw [h.pairs, Checked.ok_bind, h.nibbles, Checked.ok_bind, h.bytes, Checked.ok_bind, h.total.1,
    countP_range_eq_cpop]

/-- The lane sums of every word are exact in every lane, and add up to the number of its set bits;
a narrower word keeps that number when it is widened. -/
theorem counts_in_lanes :
    (∀ x : BitVec 128, (∃ p q s r, LaneSums x p q s r) ∧ ones x = .ok ((List.range 128).countP x.getLsbD)) ∧
      ∀ (W : Width) (a : Word W), halving.ones a = .ok ((List.range W.bits).countP a.getLsbD) := by
  constructor
  · intro x
    refine ⟨laneSums_spec x, ?_⟩
    rw [ones_eq, countP_range_eq_cpop]
  · intro W a
    show ones (wide a) = _
    rw [ones_eq, wide, BitVec.toNat_cpop_setWidth_eq_of_le W.bits_le, countP_range_eq_cpop]

end Wordwise.Engine.Halving
