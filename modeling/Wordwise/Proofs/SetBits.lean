/-
The set bits of a word as a list. It is the one strictly ascending list with these members and the
exponents of the word as a sum of powers of two. The counts name its ends and its length: trailing
zeros give the first entry, the logarithm the last, and the tricks that clear the lowest or the
highest bit take one entry off.
-/
import Mathlib.Data.List.Sort
import Mathlib.Data.Nat.BitIndices
import Wordwise.Word

namespace Wordwise

variable {w : Nat}

/-! ## The ascending list -/

theorem setBits_sortedLT (a : BitVec w) : (setBits a).SortedLT := by
  have h : (List.range w).Pairwise (· < ·) := List.pairwise_lt_range
  exact List.sortedLT_iff_pairwise.2 (h.filter _)

theorem lt_of_mem_setBits {a : BitVec w} {i : Nat} (h : i ∈ setBits a) : i < w :=
  BitVec.lt_of_getLsbD (mem_setBits.1 h)

/-- The set bits are the only strictly ascending list with these members. -/
theorem setBits_eq_of_mem_iff {a : BitVec w} {l : List Nat} (hl : l.SortedLT)
    (h : ∀ i, i ∈ l ↔ a.getLsbD i = true) : setBits a = l :=
  (setBits_sortedLT a).eq_of_mem_iff hl fun i => mem_setBits.trans (h i).symm

theorem setBits_eq_bitIndices (a : BitVec w) : setBits a = a.toNat.bitIndices :=
  setBits_eq_of_mem_iff Nat.bitIndices_sorted fun _ => Nat.mem_bitIndices

/-- A word is the sum of the powers of two at its set bits. -/
theorem sum_setBits (a : BitVec w) : ((setBits a).map (2 ^ ·)).sum = a.toNat := by
  rw [setBits_eq_bitIndices]
  exact Nat.sum_map_two_pow_bitIndices a.toNat

theorem toNat_ne_zero {a : BitVec w} (ha : a ≠ 0) : a.toNat ≠ 0 :=
  fun h => ha (BitVec.eq_of_toNat_eq h)

theorem setBits_injective : Function.Injective (setBits : BitVec w → List Nat) := by
  intro a b h
  apply BitVec.eq_of_toNat_eq
  rw [← sum_setBits a, ← sum_setBits b, h]

@[simp] theorem setBits_zero : setBits (0 : BitVec w) = [] := by
  simp [setBits]

theorem setBits_eq_nil_iff {a : BitVec w} : setBits a = [] ↔ a = 0 := by
  constructor
  · intro h
    exact setBits_injective (h.trans setBits_zero.symm)
  · rintro rfl
    exact setBits_zero

theorem length_setBits (a : BitVec w) : (setBits a).length = a.cpop.toNat := by
  have h : ∀ n, a.cpopNatRec n 0 = ((List.range n).filter a.getLsbD).length := by
    intro n
    induction n with
    | zero => rfl
    | succ n ih =>
      rw [BitVec.cpopNatRec_succ, BitVec.cpopNatRec_add, ih, List.range_succ, List.filter_append,
        List.length_append]
      cases hb : a.getLsbD n <;> simp [hb]
  rw [BitVec.toNat_cpop, h, setBits]

theorem countP_range_eq_cpop (a : BitVec w) : (List.range w).countP a.getLsbD = a.cpop.toNat := by
  rw [List.countP_eq_length_filter, ← length_setBits, setBits]

theorem length_setBits_le (a : BitVec w) : (setBits a).length ≤ w := by
  rw [length_setBits]
  exact BitVec.toNat_cpop_le a

/-! ## No bit -/

theorem clz_zero : (0 : BitVec w).clz.toNat = w :=
  (congrArg BitVec.toNat (BitVec.clz_eq_iff_eq_zero.2 rfl)).trans (Nat.mod_eq_of_lt Nat.lt_two_pow_self)

theorem ctz_zero : (0 : BitVec w).ctz.toNat = w := by
  have hrev : (0 : BitVec w).reverse = 0 := BitVec.reverse_eq_zero_iff.2 rfl
  rw [BitVec.ctz_eq_reverse_clz, hrev, clz_zero]

/-! ## The lowest bit -/

theorem ctz_lt {a : BitVec w} (ha : a ≠ 0) : a.ctz.toNat < w :=
  BitVec.lt_of_getLsbD (BitVec.getLsbD_true_ctz_of_ne_zero ha)

theorem ctz_le_of_getLsbD {a : BitVec w} {i : Nat} (h : a.getLsbD i = true) : a.ctz.toNat ≤ i := by
  by_contra hlt
  rw [BitVec.getLsbD_false_of_lt_ctz (Nat.lt_of_not_le hlt)] at h
  cases h

/-- As many zeros trail as there are bits below a set one, when all of those are clear. -/
theorem ctz_eq_of_lowest {a : BitVec w} {n : Nat} (hset : a.getLsbD n = true)
    (hclear : ∀ i < n, a.getLsbD i = false) : a.ctz.toNat = n := by
  have ha : a ≠ 0 := by
    rintro rfl
    simp at hset
  apply Nat.le_antisymm (ctz_le_of_getLsbD hset)
  by_contra hlt
  have hlow := BitVec.getLsbD_true_ctz_of_ne_zero ha
  rw [hclear _ (Nat.lt_of_not_le hlt)] at hlow
  cases hlow

/-- Some bit is set among the low ones that are not all clear. -/
theorem ctz_lt_of_mod_ne_zero {a : BitVec w} {k : Nat} (h : a.toNat % 2 ^ k ≠ 0) : a.ctz.toNat < k := by
  by_contra hle
  apply h
  apply Nat.eq_of_testBit_eq
  intro i
  rw [Nat.testBit_mod_two_pow, Nat.zero_testBit]
  by_cases hi : i < k
  · have hclear : a.toNat.testBit i = false := BitVec.getLsbD_false_of_lt_ctz (by omega)
    simp [hclear]
  · simp [hi]

/-- Cut above its lowest set bit, a word keeps that bit alone. -/
theorem mod_two_pow_ctz {a : BitVec w} (ha : a ≠ 0) :
    a.toNat % 2 ^ (a.ctz.toNat + 1) = 2 ^ a.ctz.toNat := by
  apply Nat.eq_of_testBit_eq
  intro i
  rw [Nat.testBit_mod_two_pow, Nat.testBit_two_pow]
  rcases Nat.lt_trichotomy i a.ctz.toNat with hi | hi | hi
  · have : a.toNat.testBit i = false := BitVec.getLsbD_false_of_lt_ctz hi
    simp [this, show a.ctz.toNat ≠ i by omega]
  · have : a.toNat.testBit a.ctz.toNat = true := BitVec.getLsbD_true_ctz_of_ne_zero ha
    simp [hi, this]
  · simp [show a.ctz.toNat ≠ i by omega, show ¬ i < a.ctz.toNat + 1 by omega]

/-- Taking one from a word that is not zero borrows from its lowest set bit: the bits below it
become ones, and those above it stay. -/
theorem getLsbD_sub_one {a : BitVec w} (ha : a ≠ 0) (i : Nat) :
    (a - 1).getLsbD i =
      if i < a.ctz.toNat then true else if i = a.ctz.toNat then false else a.getLsbD i := by
  have hpos : 0 < a.toNat := Nat.pos_of_ne_zero (toNat_ne_zero ha)
  have hsub : (a - 1).toNat = a.toNat - 1 := by
    have hw := ctz_lt ha
    have hone : (1 : BitVec w).toNat = 1 := Nat.mod_eq_of_lt (Nat.one_lt_two_pow (by omega))
    rw [BitVec.toNat_sub_of_le (by rw [BitVec.le_def, hone]; exact hpos), hone]
  -- `k` is the part above the lowest set bit
  obtain ⟨k, hk⟩ : ∃ k, a.toNat = 2 ^ (a.ctz.toNat + 1) * k + 2 ^ a.ctz.toNat :=
    ⟨a.toNat / 2 ^ (a.ctz.toNat + 1), by
      have := Nat.div_add_mod a.toNat (2 ^ (a.ctz.toNat + 1))
      rw [mod_two_pow_ctz ha] at this
      exact this.symm⟩
  have hlow : 2 ^ a.ctz.toNat < 2 ^ (a.ctz.toNat + 1) := Nat.pow_lt_pow_right (by decide) (by omega)
  have hbelow : 2 ^ a.ctz.toNat - 1 < 2 ^ (a.ctz.toNat + 1) := by omega
  have hone : 0 < 2 ^ a.ctz.toNat := Nat.two_pow_pos _
  show (a - 1).toNat.testBit i = _
  rw [hsub, show a.getLsbD i = a.toNat.testBit i from rfl]
  generalize a.ctz.toNat = c at *
  rw [hk, Nat.add_sub_assoc hone, Nat.testBit_two_pow_mul_add k hbelow,
    Nat.testBit_two_pow_mul_add k hlow, Nat.testBit_two_pow_sub_one]
  -- below, at and above the lowest set bit
  rcases Nat.lt_trichotomy i c with hi | hi | hi
  · simp [hi, show i < c + 1 by omega]
  · simp [hi]
  · simp [show ¬ i < c by omega, show ¬ i < c + 1 by omega, show i ≠ c by omega]

theorem getLsbD_dropLowest {a : BitVec w} (ha : a ≠ 0) (i : Nat) :
    (dropLowest a).getLsbD i = (a.getLsbD i && decide (i ≠ a.ctz.toNat)) := by
  rw [dropLowest, BitVec.getLsbD_and, getLsbD_sub_one ha]
  rcases Nat.lt_trichotomy i a.ctz.toNat with hi | hi | hi
  · simp [hi, BitVec.getLsbD_false_of_lt_ctz hi]
  · simp [hi]
  · simp [show ¬ i < a.ctz.toNat by omega, show i ≠ a.ctz.toNat by omega]

@[simp] theorem dropLowest_zero : dropLowest (0 : BitVec w) = 0 :=
  BitVec.zero_and

@[simp] theorem lowestBit_zero : lowestBit (0 : BitVec w) = 0 :=
  BitVec.zero_and

theorem lowestBit_eq {a : BitVec w} (ha : a ≠ 0) : lowestBit a = BitVec.twoPow w a.ctz.toNat := by
  apply BitVec.eq_of_getLsbD_eq
  intro i hi
  have hneg : -a = ~~~(a - 1) := by
    rw [BitVec.neg_eq_not_add, ← BitVec.not_sub_one_eq_not_add_one]
    rfl
  rw [lowestBit, hneg, BitVec.getLsbD_and, BitVec.getLsbD_not, getLsbD_sub_one ha,
    BitVec.getLsbD_twoPow]
  rcases Nat.lt_trichotomy i a.ctz.toNat with hi' | hi' | hi'
  · simp [BitVec.getLsbD_false_of_lt_ctz hi', show a.ctz.toNat ≠ i by omega]
  · simp [hi', BitVec.getLsbD_true_ctz_of_ne_zero ha, ctz_lt ha]
  · cases a.getLsbD i <;>
      simp [show ¬ i < a.ctz.toNat by omega, show i ≠ a.ctz.toNat by omega, show a.ctz.toNat ≠ i by omega]

/-- The lowest set bit is the first of the list, and the rest is what is left without it. -/
theorem setBits_eq_cons {a : BitVec w} (ha : a ≠ 0) :
    setBits a = a.ctz.toNat :: setBits (dropLowest a) := by
  apply setBits_eq_of_mem_iff
  · rw [List.sortedLT_iff_pairwise, List.pairwise_cons]
    refine ⟨fun i hi => ?_, (setBits_sortedLT _).pairwise⟩
    rw [mem_setBits, getLsbD_dropLowest ha] at hi
    simp only [Bool.and_eq_true, decide_eq_true_eq] at hi
    have hle := ctz_le_of_getLsbD hi.1
    omega
  · intro i
    rw [List.mem_cons, mem_setBits, getLsbD_dropLowest ha]
    by_cases hi : i = a.ctz.toNat
    · simp [hi, BitVec.getLsbD_true_ctz_of_ne_zero ha]
    · simp [hi]

/-! ## The highest bit -/

theorem log2_lt {a : BitVec w} (ha : a ≠ 0) : a.toNat.log2 < w := by
  rw [Nat.log2_lt (toNat_ne_zero ha)]
  exact a.isLt

theorem getLsbD_log2 {a : BitVec w} (ha : a ≠ 0) : a.getLsbD a.toNat.log2 = true :=
  Nat.testBit_log2 (toNat_ne_zero ha)

theorem le_log2_of_getLsbD {a : BitVec w} {i : Nat} (h : a.getLsbD i = true) :
    i ≤ a.toNat.log2 := by
  have hle : 2 ^ i ≤ a.toNat := Nat.ge_two_pow_of_testBit h
  have hne : a.toNat ≠ 0 := by have := Nat.two_pow_pos i; omega
  exact (Nat.le_log2 hne).2 hle

/-- The zeros above the highest set bit tell its position from the top. -/
theorem clz_eq {a : BitVec w} (ha : a ≠ 0) : a.clz.toNat = w - 1 - a.toNat.log2 := by
  have hlog := log2_lt ha
  have hne := toNat_ne_zero ha
  have hle : w - 1 - a.clz.toNat ≤ a.toNat.log2 :=
    (Nat.le_log2 hne).2 (BitVec.two_pow_sub_clz_le_toNat_of_ne_zero (by omega) ha)
  have hlt : a.toNat.log2 < w - a.clz.toNat := (Nat.log2_lt hne).2 BitVec.toNat_lt_two_pow_sub_clz
  omega

/-- The highest set bit is the last of the list, and the rest is what is left without it. -/
theorem setBits_eq_concat {a : BitVec w} (ha : a ≠ 0) :
    setBits a = setBits (a ^^^ BitVec.twoPow w a.toNat.log2) ++ [a.toNat.log2] := by
  have hbit : ∀ i, (a ^^^ BitVec.twoPow w a.toNat.log2).getLsbD i =
      (a.getLsbD i && decide (i ≠ a.toNat.log2)) := by
    intro i
    rw [BitVec.getLsbD_xor, BitVec.getLsbD_twoPow]
    by_cases hi : a.toNat.log2 = i
    · subst hi
      simp [getLsbD_log2 ha, log2_lt ha]
    · simp [hi, Ne.symm hi]
  apply setBits_eq_of_mem_iff
  · rw [List.sortedLT_iff_pairwise, List.pairwise_append]
    refine ⟨(setBits_sortedLT _).pairwise, List.pairwise_singleton _ _, fun i hi j hj => ?_⟩
    rw [List.mem_singleton] at hj
    rw [mem_setBits, hbit] at hi
    simp only [Bool.and_eq_true, decide_eq_true_eq] at hi
    have := le_log2_of_getLsbD hi.1
    omega
  · intro i
    rw [List.mem_append, List.mem_singleton, mem_setBits, hbit]
    by_cases hi : i = a.toNat.log2
    · simp [hi, getLsbD_log2 ha]
    · simp [hi]

/-! ## Single bits -/

theorem setBits_twoPow {i : Nat} (hi : i < w) : setBits (BitVec.twoPow w i) = [i] := by
  apply setBits_eq_of_mem_iff
  · exact List.sortedLT_iff_pairwise.2 (List.pairwise_singleton _ _)
  · intro j
    rw [List.mem_singleton, BitVec.getLsbD_twoPow]
    simp [hi, eq_comm]

theorem twoPow_ne_zero {i : Nat} (hi : i < w) : BitVec.twoPow w i ≠ 0 := by
  rw [Ne, ← setBits_eq_nil_iff, setBits_twoPow hi]
  exact List.cons_ne_nil i []

theorem ctz_twoPow {i : Nat} (hi : i < w) : (BitVec.twoPow w i).ctz.toNat = i := by
  have hbits := setBits_eq_cons (twoPow_ne_zero hi)
  rw [setBits_twoPow hi] at hbits
  exact (List.cons.inj hbits).1.symm

/-- The test for a single bit, which subtracts without wrapping, never refuses a word. -/
theorem isPowerOfTwo_eq (a : BitVec w) : isPowerOfTwo a = .ok (decide ((setBits a).length = 1)) := by
  unfold isPowerOfTwo
  by_cases ha : a = 0
  · rw [if_pos ha, ha, setBits_zero]
    rfl
  · have hsub : Checked.sub a 1 = .ok (a - 1) := by
      have hpos := toNat_ne_zero ha
      have hone : (1 : BitVec w).toNat ≤ 1 := Nat.mod_le _ _
      refine if_neg ?_
      rw [BitVec.usubOverflow, decide_eq_true_eq]
      omega
    rw [if_neg ha, hsub, Checked.ok_bind, setBits_eq_cons ha, List.length_cons]
    refine congrArg Except.ok ?_
    rw [Bool.eq_iff_iff, beq_iff_eq, decide_eq_true_iff, Nat.add_eq_right, List.length_eq_zero_iff,
      setBits_eq_nil_iff]
    rfl

/-! ## Shifts -/

/-- A shift up moves every set bit, and those that reach the width are lost. -/
theorem setBits_shiftLeft (a : BitVec w) (n : Nat) :
    setBits (a <<< n) = ((setBits a).map (· + n)).filter (· < w) := by
  apply setBits_eq_of_mem_iff
  · have hmoved : ((setBits a).map (· + n)).Pairwise (· < ·) := by
      rw [List.pairwise_map]
      exact (setBits_sortedLT a).pairwise.imp fun h => Nat.add_lt_add_right h n
    exact List.sortedLT_iff_pairwise.2 (hmoved.filter _)
  · intro i
    rw [List.mem_filter, List.mem_map, BitVec.getLsbD_shiftLeft]
    simp only [Bool.and_eq_true, Bool.not_eq_true', decide_eq_true_eq, decide_eq_false_iff_not, Nat.not_lt]
    constructor
    · rintro ⟨⟨j, hj, rfl⟩, hi⟩
      refine ⟨⟨hi, Nat.le_add_left n j⟩, ?_⟩
      rw [Nat.add_sub_cancel]
      exact mem_setBits.1 hj
    · rintro ⟨⟨hi, hn⟩, hbit⟩
      exact ⟨⟨i - n, mem_setBits.2 hbit, Nat.sub_add_cancel hn⟩, hi⟩

/-- A shift down moves every set bit, and those below the amount are lost. -/
theorem setBits_ushiftRight (a : BitVec w) (n : Nat) :
    setBits (a >>> n) = ((setBits a).filter (n ≤ ·)).map (· - n) := by
  apply setBits_eq_of_mem_iff
  · rw [List.sortedLT_iff_pairwise, List.pairwise_map]
    refine ((setBits_sortedLT a).pairwise.filter _).imp_of_mem ?_
    intro i j hi _ hij
    have hn := of_decide_eq_true (List.mem_filter.1 hi).2
    omega
  · intro i
    rw [List.mem_map, BitVec.getLsbD_ushiftRight]
    constructor
    · rintro ⟨j, hj, rfl⟩
      obtain ⟨hj, hn⟩ := List.mem_filter.1 hj
      rw [Nat.add_sub_cancel' (of_decide_eq_true hn)]
      exact mem_setBits.1 hj
    · intro hbit
      exact ⟨n + i, List.mem_filter.2 ⟨mem_setBits.2 hbit, by simp⟩, Nat.add_sub_cancel_left ..⟩

/-! ## Words cut in two -/

/-- The set bits of a word are those of its low part, and after them those of the rest, moved up. -/
theorem setBits_eq_append {k m : Nat} (a : BitVec (k + m)) :
    setBits a = setBits (a.setWidth k) ++ (setBits ((a >>> k).setWidth m)).map (k + ·) := by
  unfold setBits
  rw [List.range_add, List.filter_append, List.filter_map]
  congr 1
  · refine List.filter_congr fun i hi => ?_
    rw [BitVec.getLsbD_setWidth, decide_eq_true (List.mem_range.1 hi), Bool.true_and]
  · refine congrArg _ (List.filter_congr fun i hi => ?_)
    rw [Function.comp_apply, BitVec.getLsbD_setWidth, decide_eq_true (List.mem_range.1 hi), Bool.true_and,
      BitVec.getLsbD_ushiftRight]

/-! ## Wider words -/

section
variable {v : Nat} (h : w ≤ v)
include h

theorem getLsbD_setWidth_of_le (a : BitVec w) (i : Nat) : (a.setWidth v).getLsbD i = a.getLsbD i := by
  show (a.setWidth v).toNat.testBit i = a.toNat.testBit i
  rw [BitVec.toNat_setWidth_of_le h]

/-- A wider word with the same number has the same bits. -/
theorem setBits_setWidth (a : BitVec w) : setBits (a.setWidth v) = setBits a :=
  setBits_eq_of_mem_iff (setBits_sortedLT a) fun i => by rw [mem_setBits, getLsbD_setWidth_of_le h]

theorem setWidth_eq_zero_iff {a : BitVec w} : a.setWidth v = 0 ↔ a = 0 := by
  rw [← setBits_eq_nil_iff, setBits_setWidth h, setBits_eq_nil_iff]

theorem ctz_setWidth {a : BitVec w} (ha : a ≠ 0) : (a.setWidth v).ctz.toNat = a.ctz.toNat := by
  have hcons := setBits_eq_cons (mt (setWidth_eq_zero_iff h).1 ha)
  rw [setBits_setWidth h, setBits_eq_cons ha] at hcons
  exact (List.cons.inj hcons).1.symm

/-- Every bit that is added on top is one more zero above the highest set bit. -/
theorem clz_setWidth (a : BitVec w) : (a.setWidth v).clz.toNat = a.clz.toNat + (v - w) := by
  by_cases ha : a = 0
  · rw [(setWidth_eq_zero_iff h).2 ha, ha, clz_zero, clz_zero]
    omega
  · have hlt := log2_lt ha
    rw [clz_eq (mt (setWidth_eq_zero_iff h).1 ha), clz_eq ha, BitVec.toNat_setWidth_of_le h]
    omega

end

end Wordwise
