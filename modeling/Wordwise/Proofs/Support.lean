/-
Words as finite sets of positions. The support of a word is the set of its set bits; the word is the
sum of the powers of two over its support, and every set of positions below the width is the support
of one word. The bitwise operations are those of sets, the shifts move every position, and the
wrapping arithmetic is that of the numbers modulo the size of the word.
-/
import Mathlib.Combinatorics.Colex
import Mathlib.Data.Finset.Sort
import Mathlib.Data.Finset.SymmDiff
import Mathlib.Tactic.Ring
import Wordwise.Proofs.SetBits

namespace Wordwise

open scoped symmDiff

variable {w : Nat}

/-! ## Supports and numbers -/

/-- The positions of the set bits of a word. -/
def support (a : BitVec w) : Finset ℕ := (setBits a).toFinset

/-- The number of a finite set of positions. -/
def number (S : Finset ℕ) : ℕ := ∑ i ∈ S, 2 ^ i

/-- The positions whose number is an integer modulo two to the width. -/
def numbered (w : ℕ) (z : ℤ) : Finset ℕ := (z % 2 ^ w).toNat.bitIndices.toFinset

theorem mem_support {a : BitVec w} {i : ℕ} : i ∈ support a ↔ a.getLsbD i = true := by
  unfold support
  rw [List.mem_toFinset, mem_setBits]

theorem support_subset (a : BitVec w) : support a ⊆ Finset.range w := by
  intro i hi
  exact Finset.mem_range.2 (BitVec.lt_of_getLsbD (mem_support.1 hi))

theorem support_eq_filter (a : BitVec w) :
    support a = (Finset.range w).filter fun i => a.getLsbD i = true := by
  ext i
  rw [mem_support, Finset.mem_filter, Finset.mem_range]
  exact ⟨fun h => ⟨BitVec.lt_of_getLsbD h, h⟩, And.right⟩

/-- A word is the number of its support. -/
theorem number_support (a : BitVec w) : number (support a) = a.toNat := by
  unfold number support
  rw [List.sum_toFinset _ (setBits_sortedLT a).nodup, sum_setBits]

theorem number_lt {S : Finset ℕ} (hS : S ⊆ Finset.range w) : number S < 2 ^ w :=
  Nat.geomSum_lt (Nat.le_refl 2) fun _ hi => Finset.mem_range.1 (hS hi)

theorem support_eq_bitIndices (a : BitVec w) : support a = a.toNat.bitIndices.toFinset := by
  unfold support
  rw [setBits_eq_bitIndices]

theorem support_ofNat_number {S : Finset ℕ} (hS : S ⊆ Finset.range w) :
    support (BitVec.ofNat w (number S)) = S := by
  rw [support_eq_bitIndices, BitVec.toNat_ofNat, Nat.mod_eq_of_lt (number_lt hS)]
  exact Finset.toFinset_bitIndices_sum_two_pow S

theorem ofNat_number_support (a : BitVec w) : BitVec.ofNat w (number (support a)) = a := by
  rw [number_support, BitVec.ofNat_toNat, BitVec.setWidth_eq]

theorem support_injective : Function.Injective (support : BitVec w → Finset ℕ) := by
  intro a b h
  rw [← ofNat_number_support a, h, ofNat_number_support]

theorem number_numbered (w : ℕ) (z : ℤ) : (number (numbered w z) : ℤ) = z % 2 ^ w := by
  unfold number numbered
  rw [Finset.sum_toFinset_bitIndices_two_pow]
  exact Int.toNat_of_nonneg (Int.emod_nonneg z (pow_ne_zero w (by decide)))

theorem card_support (a : BitVec w) : (support a).card = (setBits a).length :=
  List.toFinset_card_of_nodup (setBits_sortedLT a).nodup

theorem sort_support (a : BitVec w) : (support a).sort (· ≤ ·) = setBits a :=
  (List.toFinset_sort _ (setBits_sortedLT a).nodup).2
    ((setBits_sortedLT a).pairwise.imp Nat.le_of_lt)

/-! ## Single words -/

@[simp] theorem support_zero : support (0 : BitVec w) = ∅ := by
  unfold support
  rw [setBits_zero, List.toFinset_nil]

theorem support_eq_empty_iff {a : BitVec w} : support a = ∅ ↔ a = 0 := by
  rw [← support_zero, support_injective.eq_iff]

theorem not_nonempty_support_zero : ¬ (support (0 : BitVec w)).Nonempty := by
  rw [support_zero]
  exact Finset.not_nonempty_empty

@[simp] theorem support_allOnes : support (BitVec.allOnes w) = Finset.range w := by
  ext i
  rw [mem_support, BitVec.getLsbD_allOnes, decide_eq_true_iff, Finset.mem_range]

theorem support_twoPow {i : ℕ} (hi : i < w) : support (BitVec.twoPow w i) = {i} := by
  unfold support
  rw [setBits_twoPow hi, List.toFinset_cons, List.toFinset_nil, insert_empty_eq]

/-! ## Bitwise operations -/

@[simp] theorem support_or (a b : BitVec w) : support (a ||| b) = support a ∪ support b := by
  ext i
  rw [Finset.mem_union, mem_support, mem_support, mem_support, BitVec.getLsbD_or, Bool.or_eq_true]

@[simp] theorem support_and (a b : BitVec w) : support (a &&& b) = support a ∩ support b := by
  ext i
  rw [Finset.mem_inter, mem_support, mem_support, mem_support, BitVec.getLsbD_and, Bool.and_eq_true]

@[simp] theorem support_xor (a b : BitVec w) : support (a ^^^ b) = support a ∆ support b := by
  ext i
  rw [Finset.mem_symmDiff, mem_support, mem_support, mem_support, BitVec.getLsbD_xor]
  cases a.getLsbD i <;> cases b.getLsbD i <;> decide

@[simp] theorem support_not (a : BitVec w) : support (~~~a) = Finset.range w \ support a := by
  ext i
  rw [Finset.mem_sdiff, Finset.mem_range, mem_support, mem_support, BitVec.getLsbD_not]
  simp

@[simp] theorem support_and_not (a b : BitVec w) : support (a &&& ~~~b) = support a \ support b := by
  rw [support_and, support_not, ← Finset.inter_sdiff_assoc,
    Finset.inter_eq_left.2 (support_subset a)]

/-- A word includes another when nothing is lost of that one in what both have. -/
theorem support_subset_iff {a b : BitVec w} : support a ⊆ support b ↔ a &&& b = a := by
  rw [← Finset.inter_eq_left, ← support_and, support_injective.eq_iff]

/-! ## Shifts -/

/-- A shift up moves every position, and those that reach the width are lost. -/
theorem support_shiftLeft (a : BitVec w) (n : ℕ) :
    support (a <<< n) = ((support a).image (· + n)).filter (· < w) := by
  unfold support
  rw [setBits_shiftLeft]
  ext i
  simp only [List.mem_toFinset, List.mem_filter, List.mem_map, Finset.mem_filter, Finset.mem_image,
    decide_eq_true_eq]

/-- A shift down moves every position, and those below the amount are lost. -/
theorem support_ushiftRight (a : BitVec w) (n : ℕ) :
    support (a >>> n) = ((support a).filter (n ≤ ·)).image (· - n) := by
  unfold support
  rw [setBits_ushiftRight]
  ext i
  simp only [List.mem_toFinset, List.mem_filter, List.mem_map, Finset.mem_filter, Finset.mem_image,
    decide_eq_true_eq]

/-! ## Wrapping arithmetic -/

theorem support_eq_numbered {a : BitVec w} {z : ℤ} (h : (a.toNat : ℤ) = z % 2 ^ w) :
    support a = numbered w z := by
  unfold numbered
  rw [support_eq_bitIndices, ← h, Int.toNat_natCast]

theorem numbered_subset (w : ℕ) (z : ℤ) : numbered w z ⊆ Finset.range w := by
  have hz : ((BitVec.ofInt w z).toNat : ℤ) = z % 2 ^ w := by
    rw [BitVec.toNat_ofInt, Nat.cast_pow, Nat.cast_ofNat]
    exact Int.toNat_of_nonneg (Int.emod_nonneg z (pow_ne_zero w (by decide)))
  rw [← support_eq_numbered hz]
  exact support_subset _

theorem support_add (a b : BitVec w) :
    support (a + b) = numbered w (number (support a) + b.toNat) := by
  apply support_eq_numbered
  rw [number_support, BitVec.toNat_add]
  push_cast
  rfl

theorem support_sub (a b : BitVec w) :
    support (a - b) = numbered w (number (support a) - b.toNat) := by
  apply support_eq_numbered
  -- the word is subtracted as the complement to `2 ^ w`, which is the same modulo `2 ^ w`
  have hb : b.toNat ≤ 2 ^ w := Nat.le_of_lt b.isLt
  rw [number_support, BitVec.toNat_sub]
  push_cast [Nat.cast_sub hb]
  rw [show (2 ^ w - (b.toNat : ℤ) + a.toNat) = (a.toNat - b.toNat) + 2 ^ w by ring, Int.add_emod_right]

/-! ## The extremes -/

theorem isLeast_support {a : BitVec w} (ha : a ≠ 0) : IsLeast (support a : Set ℕ) a.ctz.toNat := by
  refine ⟨mem_support.2 (BitVec.getLsbD_true_ctz_of_ne_zero ha), ?_⟩
  exact fun i hi => ctz_le_of_getLsbD (mem_support.1 hi)

theorem isGreatest_support {a : BitVec w} (ha : a ≠ 0) :
    IsGreatest (support a : Set ℕ) a.toNat.log2 :=
  ⟨mem_support.2 (getLsbD_log2 ha), fun _ hi => le_log2_of_getLsbD (mem_support.1 hi)⟩

end Wordwise
