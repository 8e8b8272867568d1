/-
The laws of counting. The count of a set is the number of positions that it is found to have when it
is asked for one after the other. Counts of a union and an intersection, of a symmetric difference and
of a complement are those of finite sets, and they grow with inclusion. The questions that look at the
word as a whole, or take its lowest bit off, are questions about the count.
-/
import Wordwise.Proofs.SetRun

namespace Wordwise.WordSet

open scoped symmDiff

variable {W : Width}

/-! ## Asking for each position -/

/-- The positions of the word that a set is found to have. -/
def found (s : WordSet W) : Finset ℕ :=
  (Finset.range W.bits).filter fun i : ℕ => s.meets (.position (.wrap i)) = .ok true

/-- How many positions a set is found to have. -/
def tally (s : WordSet W) : ℕ := s.found.card

theorem found_eq_support (s : WordSet W) : s.found = support s.word := by
  rw [support_eq_filter, found]
  refine Finset.filter_congr fun i hi => ?_
  have hlt := Finset.mem_range.1 hi
  rw [meets_position s (Position.wrap_val_of_lt hlt) hlt, Except.ok.injEq]

theorem tally_eq_card (s : WordSet W) : s.tally = (support s.word).card := by
  rw [tally, found_eq_support]

theorem tally_eq_length (s : WordSet W) : s.tally = (setBits s.word).length := by
  rw [tally_eq_card, card_support]

theorem count_eq_tally (s : WordSet W) : s.count .direct = .ok s.tally := by
  rw [count, Engine.direct_ones, tally_eq_length, length_setBits]

/-! ## Two sets -/

theorem tally_or_add_tally_and (s t : WordSet W) :
    (s ||| t).tally + (s &&& t).tally = s.tally + t.tally := by
  rw [tally_eq_card, tally_eq_card, tally_eq_card, tally_eq_card, word_or, word_and, support_or,
    support_and]
  exact Finset.card_union_add_card_inter _ _

/-- The elements of two finite sets are those of one only, and those of both, which count twice. -/
theorem card_symmDiff_add (S T : Finset ℕ) : (S ∆ T).card + 2 * (S ∩ T).card = S.card + T.card := by
  have hunion : (S ∆ T).card = (S \ T).card + (T \ S).card :=
    Finset.card_union_of_disjoint disjoint_sdiff_sdiff
  have hS := Finset.card_sdiff_add_card_inter S T
  have hT := Finset.card_sdiff_add_card_inter T S
  rw [Finset.inter_comm] at hT
  omega

theorem tally_xor_add_tally_and (s t : WordSet W) :
    (s ^^^ t).tally + 2 * (s &&& t).tally = s.tally + t.tally := by
  rw [tally_eq_card, tally_eq_card, tally_eq_card, tally_eq_card, word_xor, word_and, support_xor,
    support_and]
  exact card_symmDiff_add _ _

theorem tally_complement_add (s : WordSet W) : (~~~s).tally + s.tally = W.bits := by
  rw [tally_eq_card, tally_eq_card, word_complement, support_not,
    Finset.card_sdiff_add_card_eq_card (support_subset s.word), Finset.card_range]

/-- A set has no more members than one that includes it, and as many only if it is the same. -/
theorem tally_le_of_included {s t : WordSet W} (h : s &&& t = s) :
    s.tally ≤ t.tally ∧ (s.tally = t.tally → s = t) := by
  have hsubset : support s.word ⊆ support t.word := support_subset_iff.2 (congrArg word h)
  rw [tally_eq_card, tally_eq_card]
  refine ⟨Finset.card_le_card hsubset, fun hcard => ?_⟩
  exact eq_of_word_eq (support_injective (Finset.eq_of_subset_of_card_le hsubset hcard.ge))

/-! ## Questions about the count -/

theorem isFull_iff_tally {s : WordSet W} : s.isFull = true ↔ s.tally = W.bits := by
  rw [isFull, beq_iff_eq, tally_eq_card, ← support_injective.eq_iff, support_allOnes]
  constructor
  · intro h
    rw [h, Finset.card_range]
  · intro h
    refine Finset.eq_of_subset_of_card_le (support_subset s.word) ?_
    rw [h, Finset.card_range]

theorem isEmpty_iff_tally {s : WordSet W} : s.isEmpty = true ↔ s.tally = 0 := by
  rw [isEmpty, beq_iff_eq, tally_eq_card, Finset.card_eq_zero, support_eq_empty_iff]

theorem isInhabited_iff_tally {s : WordSet W} : s.isInhabited = true ↔ 0 < s.tally := by
  rw [isInhabited, bne_iff_ne, tally_eq_card, Finset.card_pos, Finset.nonempty_iff_ne_empty, Ne, Ne,
    support_eq_empty_iff]

theorem isSingleton_eq_tally (s : WordSet W) : s.isSingleton = .ok (decide (s.tally = 1)) := by
  rw [isSingleton, isPowerOfTwo_eq, tally_eq_length]

/-- The sets with one member are the powers of two. -/
theorem tally_eq_one_iff {s : WordSet W} : s.tally = 1 ↔ ∃ i < W.bits, s.word.toNat = 2 ^ i := by
  rw [tally_eq_card, Finset.card_eq_one]
  constructor
  · rintro ⟨i, hi⟩
    have hlt : i < W.bits := Finset.mem_range.1 (support_subset s.word (hi ▸ Finset.mem_singleton_self i))
    refine ⟨i, hlt, ?_⟩
    rw [← number_support, hi, number, Finset.sum_singleton]
  · rintro ⟨i, hlt, hi⟩
    have hword : s.word = BitVec.twoPow W.bits i := by
      apply BitVec.eq_of_toNat_eq
      rw [hi, BitVec.toNat_twoPow_of_lt hlt]
    exact ⟨i, by rw [hword, support_twoPow hlt]⟩

/-! ## The laws -/

/-- What counts say about two sets, and about the questions that are asked of one. -/
structure CountsAgree (e : Engine) (s t : WordSet W) : Prop where
  count : ∀ u : WordSet W, u.count e = .ok u.tally
  or_and : (s ||| t).tally + (s &&& t).tally = s.tally + t.tally
  xor_and : (s ^^^ t).tally + 2 * (s &&& t).tally = s.tally + t.tally
  complement : (~~~s).tally + s.tally = W.bits
  included : s &&& t = s → s.tally ≤ t.tally ∧ (s.tally = t.tally → s = t)
  isFull : s.isFull = true ↔ s.tally = W.bits
  isEmpty : s.isEmpty = true ↔ s.tally = 0
  isInhabited : s.isInhabited = true ↔ 0 < s.tally
  isSingleton : s.isSingleton = .ok (decide (s.tally = 1))
  power : s.tally = 1 ↔ ∃ i < W.bits, s.word.toNat = 2 ^ i

/-- In every build, the count of a set is the number of positions that it is found to have, and all
that is asked of a set agrees with it. -/
theorem counts_agree (portable : Bool) (s t : WordSet W) : CountsAgree (.select portable) s t := by
  rw [Engine.select_eq_direct]
  constructor
  case count => exact count_eq_tally
  case or_and => exact tally_or_add_tally_and s t
  case xor_and => exact tally_xor_add_tally_and s t
  case complement => exact tally_complement_add s
  case included => exact tally_le_of_included
  case isFull => exact isFull_iff_tally
  case isEmpty => exact isEmpty_iff_tally
  case isInhabited => exact isInhabited_iff_tally
  case isSingleton => exact isSingleton_eq_tally s
  case power => exact tally_eq_one_iff

end Wordwise.WordSet
