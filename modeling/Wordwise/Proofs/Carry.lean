/-
Wrapping arithmetic, seen on the members. Counting up carries through the members from position zero
on: they go, and the lowest position that was free becomes a member. Counting down borrows the other
way. A sum is the union and what both have, which counts twice, so nothing is carried between sets
without a common member; a difference from a set takes away, without a borrow, what the set includes.
-/
import Wordwise.Proofs.SetRun

namespace Wordwise

open scoped symmDiff

variable {w : ℕ}

/-! ## Carries and borrows -/

/-- Taking one from a word borrows from its lowest set bit, and lends it to all bits below. -/
theorem support_sub_one {a : BitVec w} (ha : a ≠ 0) :
    support (a - 1) = (support a).erase a.ctz.toNat ∪ Finset.range a.ctz.toNat := by
  ext i
  rw [Finset.mem_union, Finset.mem_erase, Finset.mem_range, mem_support, mem_support,
    getLsbD_sub_one ha]
  rcases Nat.lt_trichotomy i a.ctz.toNat with hi | hi | hi
  · simp [hi]
  · simp [hi]
  · simp [hi.ne', hi.not_gt]

theorem not_ne_zero {a : BitVec w} (ha : a ≠ BitVec.allOnes w) : ~~~a ≠ 0 :=
  fun h => ha ((BitVec.not_eq_comm.1 h).trans BitVec.not_zero)

/-- The lowest clear bit of a word is the lowest set bit of its complement. -/
theorem isLeast_clear {a : BitVec w} (ha : a ≠ BitVec.allOnes w) :
    IsLeast {i | i < w ∧ i ∉ support a} (~~~a).ctz.toNat := by
  have hclear : {i | i < w ∧ i ∉ support a} = ↑(support (~~~a)) := by
    ext i
    rw [support_not, Set.mem_ofPred_eq, Finset.mem_coe, Finset.mem_sdiff, Finset.mem_range]
  rw [hclear]
  exact isLeast_support (not_ne_zero ha)

/-- Adding one to a word carries through its lowest set bits, which it clears, into its lowest clear
bit. In the complement, that is a borrow. -/
theorem support_add_one {a : BitVec w} (ha : a ≠ BitVec.allOnes w) :
    support (a + 1) = (support a \ Finset.range (~~~a).ctz.toNat) ∪ {(~~~a).ctz.toNat} := by
  have hborrow : a + 1 = ~~~(~~~a - 1) := calc
    a + 1 = ~~~(~~~a) + 1 := by rw [BitVec.not_not]
    _ = ~~~(~~~a - 1) := BitVec.not_sub_one_eq_not_add_one.symm
  have hlt := ctz_lt (not_ne_zero ha)
  rw [hborrow, support_not, support_sub_one (not_ne_zero ha), support_not]
  ext i
  have hbound : i ∈ support a → i < w := fun h => Finset.mem_range.1 (support_subset a h)
  simp only [Finset.mem_sdiff, Finset.mem_union, Finset.mem_erase, Finset.mem_singleton,
    Finset.mem_range]
  rcases Nat.lt_trichotomy i (~~~a).ctz.toNat with hi | hi | hi
  · simp [hi, hi.ne]
  · simp [hi, hlt]
  · by_cases hs : i ∈ support a
    · simp [hs, hbound hs, hi.ne', hi.not_gt]
    · simp [hs, hi.ne', hi.not_gt]

/-! ## Sums and differences -/

theorem number_union_add_number_inter (S T : Finset ℕ) :
    number (S ∪ T) + number (S ∩ T) = number S + number T :=
  Finset.sum_union_inter

/-- The bits of one word or the other, and again those of both, make the sum. -/
theorem or_add_and (a b : BitVec w) : (a ||| b) + (a &&& b) = a + b := by
  apply BitVec.eq_of_toNat_eq
  rw [BitVec.toNat_add, BitVec.toNat_add, ← number_support (a ||| b), ← number_support (a &&& b),
    support_or, support_and, number_union_add_number_inter, number_support, number_support]

/-- Without a carry the sum has the bits of one word only. What both have is carried one place up. -/
theorem xor_add_shiftLeft_and (a b : BitVec w) : (a ^^^ b) + (a &&& b) <<< 1 = a + b := by
  have hdisjoint : (a ^^^ b) &&& (a &&& b) = 0 := by
    apply support_injective
    rw [support_and, support_xor, support_and, support_zero]
    exact (disjoint_symmDiff_inf _ _).eq_bot
  have hunion : (a ^^^ b) ||| (a &&& b) = a ||| b := by
    apply support_injective
    rw [support_or, support_xor, support_and, support_or]
    exact symmDiff_sup_inf _ _
  have htwice : (a &&& b) <<< 1 = (a &&& b) + (a &&& b) := by
    apply BitVec.eq_of_toNat_eq
    rw [BitVec.toNat_shiftLeft, BitVec.toNat_add, Nat.shiftLeft_eq, Nat.pow_one, Nat.mul_two]
  calc (a ^^^ b) + (a &&& b) <<< 1
      = (a ^^^ b) + (a &&& b) + (a &&& b) := by rw [htwice, BitVec.add_assoc]
    _ = (a ||| b) + (a &&& b) := by rw [BitVec.add_eq_or_of_and_eq_zero _ _ hdisjoint, hunion]
    _ = a + b := or_add_and a b

/-- Nothing is borrowed for bits that the word has. -/
theorem sub_eq_and_not {a b : BitVec w} (h : b &&& a = b) : a - b = a &&& ~~~b := by
  have hsubset : support b ⊆ support a := support_subset_iff.2 h
  have hdisjoint : (a &&& ~~~b) &&& b = 0 := by
    rw [BitVec.and_assoc, BitVec.not_and_self]
    exact BitVec.and_zero
  have hunion : (a &&& ~~~b) ||| b = a := by
    apply support_injective
    rw [support_or, support_and_not, Finset.sdiff_union_of_subset hsubset]
  have hsum : (a &&& ~~~b) + b = a := by rw [BitVec.add_eq_or_of_and_eq_zero _ _ hdisjoint, hunion]
  calc a - b = (a &&& ~~~b) + b - b := by rw [hsum]
    _ = a &&& ~~~b := BitVec.add_sub_cancel _ _

namespace WordSet

variable {W : Width}

/-! ## Arithmetic of sets -/

/-- What counting by one does to the members of a set. -/
structure CarriesOver (s : WordSet W) : Prop where
  carry : s ≠ full → ∃ k, IsLeast {i | i < W.bits ∧ i ∉ s.view} k ∧
    s.increment.view = (s.view \ Finset.range k) ∪ {k}
  overflow : s = full → s.increment = empty
  borrow : s ≠ empty → ∃ k, IsLeast (s.view : Set ℕ) k ∧
    s.decrement.view = s.view.erase k ∪ Finset.range k
  underflow : s = empty → s.decrement = full

/-- What the operations on members say about wrapping arithmetic. -/
structure AddsAsMembers (s t : WordSet W) : Prop where
  or_and : s.add t.word = (s ||| t).add (s &&& t).word
  xor_and : s.add t.word = (s ^^^ t).add ((s &&& t).shiftUp 1).word
  disjoint : s &&& t = empty → s.add t.word = s ||| t
  included : t &&& s = t → s.erase (.form (.set t)) = .ok (s.sub t.word)
  complement : ~~~s = full.sub s.word
  negation : ofWord (-s.word) = (~~~s).increment
  lowest : s.lowest = s &&& (~~~s).increment

theorem ofWord_neg (s : WordSet W) : ofWord (-s.word) = (~~~s).increment :=
  eq_of_word_eq (BitVec.neg_eq_not_add s.word)

theorem carries_over (s : WordSet W) : CarriesOver s := by
  constructor
  case carry =>
    intro h
    have hword : s.word ≠ BitVec.allOnes W.bits := fun h' => h (eq_of_word_eq h')
    exact ⟨_, isLeast_clear hword, support_add_one hword⟩
  case overflow =>
    rintro rfl
    apply eq_of_word_eq
    rw [word_increment, word_full, ← BitVec.neg_one_eq_allOnes]
    exact BitVec.add_left_neg _
  case borrow =>
    intro h
    have hword : s.word ≠ 0 := fun h' => h (eq_of_word_eq h')
    exact ⟨_, isLeast_support hword, support_sub_one hword⟩
  case underflow =>
    rintro rfl
    apply eq_of_word_eq
    rw [word_decrement, word_full, ← BitVec.neg_one_eq_allOnes]
    exact BitVec.zero_sub _

theorem adds_as_members (s t : WordSet W) : AddsAsMembers s t := by
  constructor
  case or_and => exact eq_of_word_eq (or_add_and s.word t.word).symm
  case xor_and =>
    apply eq_of_word_eq
    rw [word_add, word_add, word_shiftUp]
    exact (xor_add_shiftLeft_and s.word t.word).symm
  case disjoint =>
    intro h
    exact eq_of_word_eq (BitVec.add_eq_or_of_and_eq_zero _ _ (congrArg word h))
  case included =>
    intro h
    have hdiff : s.word - t.word = s.word &&& ~~~t.word := sub_eq_and_not (congrArg word h)
    rw [sub, hdiff]
    rfl
  case complement => exact eq_of_word_eq (BitVec.allOnes_sub_eq_not s.word).symm
  case negation => exact ofWord_neg s
  case lowest =>
    rw [← ofWord_neg]
    rfl

/-- Counting by one and wrapping arithmetic, on the members. -/
theorem arithmetic_on_members (s t : WordSet W) : CarriesOver s ∧ AddsAsMembers s t :=
  ⟨carries_over s, adds_as_members s t⟩

end WordSet

end Wordwise
