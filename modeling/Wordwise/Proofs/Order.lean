/-
The order of sets. Sets and masks have one linear order, that of their numbers, and every way to
compare two of them says what this order says. It is decided at the highest position at which the two
sets differ: the greater set is the one that has it as a member. So it is the order of the texts in
any two characters that stand in this order, and a set comes before all sets that include it.
-/
import Mathlib.Data.Char
import Wordwise.Proofs.SetRun
import Wordwise.Proofs.Spelling
import Wordwise.Relations

namespace Wordwise

open scoped symmDiff

variable {W : Width}

/-! ## One order -/

/-- Numbers are compared through an injective function as the values that they number. -/
theorem compare_eq_of_injective {α : Type} [LT α] [DecidableLT α] [DecidableEq α] {f : α → ℕ}
    (hf : Function.Injective f) (hlt : ∀ a b, a < b ↔ f a < f b) (a b : α) :
    compare (f a) (f b) = compareOfLessAndEq a b := by
  show compareOfLessAndEq (f a) (f b) = compareOfLessAndEq a b
  unfold compareOfLessAndEq
  simp only [hlt, hf.eq_iff]

theorem Mask.toNat_injective : Function.Injective fun m : Mask W => m.bits.toNat :=
  fun _ _ h => Mask.ext (BitVec.eq_of_toNat_eq h)

instance : LinearOrder (Mask W) where
  le_refl m := Nat.le_refl m.bits.toNat
  le_trans _ _ _ := Nat.le_trans
  lt_iff_le_not_ge _ _ := Nat.lt_iff_le_and_not_ge
  le_antisymm _ _ hmn hnm := Mask.toNat_injective (Nat.le_antisymm hmn hnm)
  le_total m n := Nat.le_total m.bits.toNat n.bits.toNat
  toDecidableLE := inferInstance
  toDecidableLT := inferInstance
  toDecidableEq := inferInstance
  compare_eq_compareOfLessAndEq := compare_eq_of_injective Mask.toNat_injective fun _ _ => Iff.rfl

namespace WordSet

theorem toNat_injective : Function.Injective fun s : WordSet W => s.word.toNat :=
  fun _ _ h => eq_of_word_eq (BitVec.eq_of_toNat_eq h)

instance : LinearOrder (WordSet W) where
  le_refl s := Nat.le_refl s.word.toNat
  le_trans _ _ _ := Nat.le_trans
  lt_iff_le_not_ge _ _ := Nat.lt_iff_le_and_not_ge
  le_antisymm _ _ hst hts := toNat_injective (Nat.le_antisymm hst hts)
  le_total s t := Nat.le_total s.word.toNat t.word.toNat
  toDecidableLE := inferInstance
  toDecidableLT := inferInstance
  toDecidableEq := inferInstance
  compare_eq_compareOfLessAndEq := compare_eq_of_injective toNat_injective fun _ _ => Iff.rfl

end WordSet

/-- What the operators say of two values that compare in this way. -/
def Relations.ofOrdering (o : Ordering) : Relations where
  eq := o.isEq
  ne := o.isNe
  lt := o.isLT
  le := o.isLE
  gt := o.isGT
  ge := o.isGE
  ordering := o

/-- In a linear order all operators follow from the comparison. -/
theorem Relations.between_eq_ofOrdering {α : Type} [LinearOrder α] (a b : α) :
    Relations.between a b = .ofOrdering (compare a b) := by
  unfold Relations.between
  rcases lt_trichotomy a b with h | rfl | h
  · rw [compare_lt_iff_lt.2 h]
    simp [ofOrdering, h.ne, h, h.le, h.not_gt, h.not_ge]
  · rw [compare_eq_iff_eq.2 rfl]
    simp [ofOrdering]
  · rw [compare_gt_iff_gt.2 h]
    simp [ofOrdering, h.ne', h, h.le, h.not_gt, h.not_ge]

/-- Two sets compared in every form. The order is linear, it is that of the numbers, each form says
what it says, and the lesser and the greater operand are selected by it. -/
structure ComparedAlike (s t : WordSet W) : Prop where
  numbers : compare s t = compare s.word.toNat t.word.toNat
  linear : (s ≤ t ∨ t ≤ s) ∧ (s ≤ t → t ≤ s → s = t) ∧ ∀ u : WordSet W, s ≤ t → t ≤ u → s ≤ u
  sets : Relations.between s t = .ofOrdering (compare s t)
  setMask : s.relateMask t.toMask = .ofOrdering (compare s t)
  maskSet : s.toMask.relateSet t = .ofOrdering (compare s t)
  masks : Relations.between s.toMask t.toMask = .ofOrdering (compare s t)
  compareMasks : compare s.toMask t.toMask = compare s t
  lesser : s ≤ t → (min s t = s ∧ max s t = t) ∧
    min s.toMask t.toMask = s.toMask ∧ max s.toMask t.toMask = t.toMask
  greater : t ≤ s → (min s t = t ∧ max s t = s) ∧
    min s.toMask t.toMask = t.toMask ∧ max s.toMask t.toMask = s.toMask

theorem compared_alike (s t : WordSet W) : ComparedAlike s t := by
  have hmasks : Relations.between s.toMask t.toMask = .ofOrdering (compare s t) :=
    Relations.between_eq_ofOrdering s.toMask t.toMask
  constructor
  case numbers => rfl
  case linear => exact ⟨le_total s t, le_antisymm, fun _ => le_trans⟩
  case sets => exact Relations.between_eq_ofOrdering s t
  case setMask => exact hmasks
  case maskSet => exact hmasks
  case masks => exact hmasks
  case compareMasks => rfl
  case lesser =>
    intro h
    have hm : s.toMask ≤ t.toMask := h
    exact ⟨⟨min_eq_left h, max_eq_right h⟩, min_eq_left hm, max_eq_right hm⟩
  case greater =>
    intro h
    have hm : t.toMask ≤ s.toMask := h
    exact ⟨⟨min_eq_right h, max_eq_left h⟩, min_eq_right hm, max_eq_left hm⟩

namespace WordSet

/-! ## The highest difference -/

/-- Numbers are ordered as the finite sets of their binary exponents are, by the greatest exponent
that is in one of them only. -/
theorem lt_iff_toColex_lt {s t : WordSet W} :
    s < t ↔ toColex (support s.word) < toColex (support t.word) := by
  show s.word.toNat < t.word.toNat ↔ _
  rw [← number_support, ← number_support]
  exact Finset.geomSum_lt_geomSum_iff_toColex_lt_toColex (Nat.le_refl 2)

theorem xor_ne_zero {s t : WordSet W} (h : s ≠ t) : s.word ^^^ t.word ≠ 0 :=
  fun hxor => h (eq_of_word_eq (BitVec.xor_eq_zero_iff.1 hxor))

/-- The greatest position that one of two sets has and the other has not. -/
theorem isGreatest_symmDiff {s t : WordSet W} (h : s ≠ t) :
    IsGreatest (support s.word ∆ support t.word : Finset ℕ) (s.word ^^^ t.word).toNat.log2 := by
  rw [← support_xor]
  exact isGreatest_support (xor_ne_zero h)

theorem lt_iff_highest_difference {s t : WordSet W} :
    s < t ↔ s ≠ t ∧ t.word.getLsbD (s.word ^^^ t.word).toNat.log2 = true := by
  have hne : s ≠ t ↔ support s.word ≠ support t.word :=
    not_congr ⟨fun h => by rw [h], fun h => eq_of_word_eq (support_injective h)⟩
  rw [lt_iff_toColex_lt, Finset.Colex.toColex_lt_toColex_iff_max'_mem, ← mem_support]
  constructor
  · rintro ⟨h, hmax⟩
    refine ⟨hne.2 h, ?_⟩
    rwa [(Finset.isGreatest_max' _ _).unique (isGreatest_symmDiff (hne.2 h))] at hmax
  · rintro ⟨h, hmem⟩
    refine ⟨hne.1 h, ?_⟩
    rwa [(Finset.isGreatest_max' _ _).unique (isGreatest_symmDiff h)]

/-- A set comes before those that include it. -/
theorem le_of_and_eq {s t : WordSet W} (h : s &&& t = s) : s ≤ t := by
  have hsubset : support s.word ⊆ support t.word := support_subset_iff.2 (congrArg word h)
  have hle := Finset.Colex.toColex_le_toColex_of_subset hsubset
  exact not_lt.1 fun hlt => hle.not_gt (lt_iff_toColex_lt.1 hlt)

/-! ## The order of texts -/

/-- One more bit adds its power of two when it is set. -/
theorem mod_two_pow_succ_eq (a : Word W) (k : ℕ) :
    a.toNat % 2 ^ (k + 1) = a.toNat % 2 ^ k + if a.getLsbD k then 2 ^ k else 0 := by
  have hbit : a.getLsbD k = decide (a.toNat / 2 ^ k % 2 = 1) := Nat.testBit_eq_decide_div_mod_eq
  rw [Nat.mod_pow_succ, hbit]
  rcases Nat.mod_two_eq_zero_or_one (a.toNat / 2 ^ k) with h | h <;> simp [h]

/-- The digits of the positions below `k` are ordered as the numbers that these positions make. A
digit in front decides before all others. -/
theorem digits_below_lt_iff {zero one : Char} (h : zero < one) (s t : WordSet W) : ∀ k : ℕ,
    ((List.range k).reverse.map fun i => if s.word.getLsbD i then one else zero) <
        ((List.range k).reverse.map fun i => if t.word.getLsbD i then one else zero) ↔
      s.word.toNat % 2 ^ k < t.word.toNat % 2 ^ k
  | 0 => by simp [Nat.mod_one]
  | k + 1 => by
    have hs := Nat.mod_lt s.word.toNat (Nat.two_pow_pos k)
    have ht := Nat.mod_lt t.word.toNat (Nat.two_pow_pos k)
    rw [List.range_succ, List.reverse_append, List.reverse_singleton, List.singleton_append,
      List.map_cons, List.map_cons, List.cons_lt_cons_iff, digits_below_lt_iff h s t k,
      mod_two_pow_succ_eq, mod_two_pow_succ_eq]
    cases s.word.getLsbD k <;> cases t.word.getLsbD k
    · simp
    · simp [h]
      omega
    · simp [h.not_gt, h.ne']
      omega
    · simp

theorem spelling_lt_iff {zero one : Char} (h : zero < one) {s t : WordSet W} :
    s.spelling zero one < t.spelling zero one ↔ s < t := by
  unfold spelling
  rw [digits_below_lt_iff h s t W.bits, Nat.mod_eq_of_lt s.word.isLt, Nat.mod_eq_of_lt t.word.isLt]
  rfl

/-! ## How sets are ordered -/

/-- What decides on the order of two sets. -/
structure Ordered (e : Engine) (s t : WordSet W) : Prop where
  highestPosition : ∃ p, (s ^^^ t).highestPosition e = .ok p ∧
    (s < t ↔ s ≠ t ∧ t.meets (.position p) = .ok true)
  highest : ∃ h, (s ^^^ t).highest e = .ok h ∧
    (s < t ↔ s ≠ t ∧ t.meets (.form (.set h)) = .ok true)
  digits : ∀ zero one : Char, zero < one → ∃ cs ds, s.digits zero one = .ok cs ∧
    t.digits zero one = .ok ds ∧ (s < t ↔ cs < ds)
  text : ∃ cs ds, s.text = .ok cs ∧ t.text = .ok ds ∧ (s < t ↔ cs < ds)
  included : s &&& t = s → s ≤ t
  compared : ComparedAlike s t

theorem highestPosition_decides (s t : WordSet W) :
    ∃ p, (s ^^^ t).highestPosition .direct = .ok p ∧
      (s < t ↔ s ≠ t ∧ t.meets (.position p) = .ok true) := by
  refine ⟨_, highestPosition_eq (s ^^^ t), ?_⟩
  by_cases h : s = t
  · simp [h]
  · have hlt := log2_lt (xor_ne_zero h)
    rw [word_xor, dif_pos (support_nonempty (xor_ne_zero h)), max_support (xor_ne_zero h),
      meets_position t (Position.wrap_val_of_lt hlt) hlt, Except.ok.injEq]
    exact lt_iff_highest_difference

theorem highest_decides (s t : WordSet W) :
    ∃ h, (s ^^^ t).highest .direct = .ok h ∧
      (s < t ↔ s ≠ t ∧ t.meets (.form (.set h)) = .ok true) := by
  obtain ⟨u, hu, hmembers⟩ := highest_eq (s ^^^ t)
  refine ⟨u, hu, ?_⟩
  by_cases h : s = t
  · simp [h]
  · rw [word_xor, greatestOnly, dif_pos (support_nonempty (xor_ne_zero h)),
      max_support (xor_ne_zero h)] at hmembers
    have hmeets : t.meets (.form (.set u)) =
        .ok (decide (support t.word ∩ support u.word).Nonempty) := meets_members t _
    rw [hmeets, Except.ok.injEq, decide_eq_true_iff, hmembers,
      ← Finset.not_disjoint_iff_nonempty_inter, Finset.disjoint_singleton_right, not_not, mem_support]
    exact lt_iff_highest_difference

/-- In every build, the order of two sets is decided at the highest position at which they differ, and
all comparisons agree on it. -/
theorem ordered_by_highest_difference (portable : Bool) (s t : WordSet W) :
    Ordered (.select portable) s t := by
  rw [Engine.select_eq_direct]
  constructor
  case highestPosition => exact highestPosition_decides s t
  case highest => exact highest_decides s t
  case digits =>
    intro zero one h
    exact ⟨_, _, digits_eq_spelling s zero one, digits_eq_spelling t zero one, (spelling_lt_iff h).symm⟩
  case text => exact ⟨_, _, text_eq_spelling s, text_eq_spelling t, (spelling_lt_iff (by decide)).symm⟩
  case included => exact le_of_and_eq
  case compared => exact compared_alike s t

end WordSet

end Wordwise
