/-
The binary searches, round by round. After every round of the search for the lowest set bit, the
word is the rest times the power of two that was passed; the last rest is odd, so as many bits were
passed as are clear below the lowest set one. After every round of the search for the highest set
bit, the rest is the word without the bits that were passed; the last rest is one, so the bits
passed are those below the highest set one. The leading zeros are what that leaves of the width,
and neither the signed difference nor its unsigned reading loses anything.
-/
import Mathlib.Order.Interval.Finset.Nat
import Wordwise.Proofs.Engine.Agreement

namespace Wordwise

variable {w : Nat} {W : Width}

/-! ## Lowest and highest set bits -/

/-- The bit at a position is set, and all bits below it are clear. -/
structure IsLowest (a : BitVec w) (n : Nat) : Prop where
  set : a.getLsbD n = true
  below : ∀ i < n, a.getLsbD i = false

theorem isLowest_ctz {a : BitVec w} (ha : a ≠ 0) : IsLowest a a.ctz.toNat where
  set := BitVec.getLsbD_true_ctz_of_ne_zero ha
  below _ hi := BitVec.getLsbD_false_of_lt_ctz hi

theorem IsLowest.eq_ctz {a : BitVec w} {n : Nat} (h : IsLowest a n) : n = a.ctz.toNat :=
  (ctz_eq_of_lowest h.set h.below).symm

/-- The bit at a position is set, and all bits above it are clear. -/
structure IsHighest (a : BitVec w) (n : Nat) : Prop where
  set : a.getLsbD n = true
  above : ∀ i > n, a.getLsbD i = false

theorem isHighest_log2 {a : BitVec w} (ha : a ≠ 0) : IsHighest a a.toNat.log2 where
  set := getLsbD_log2 ha
  above i hi := by
    rw [← Bool.not_eq_true]
    intro hset
    have hle := le_log2_of_getLsbD hset
    omega

namespace Engine.Halving

open Finset

/-! ## Towards the lowest set bit -/

/-- The search for the lowest set bit of a word that has one. -/
structure FindsLowest (x : BitVec 128) : Prop where
  /-- What is left after some of the seven rounds, from where the others go on. Fewer zeros trail in
  it than twice the shift of the next round. -/
  rounds : ∀ i ≤ 7, ∃ s, Search.after Search.towardsLowest ⟨x, 0⟩ i = .ok s ∧
    Search.rounds Search.towardsLowest (7 - i) s = Search.rounds Search.towardsLowest 7 ⟨x, 0⟩ ∧
    s.rest ≠ 0 ∧ x.toNat = s.rest.toNat * 2 ^ s.passed ∧ s.rest.ctz.toNat < 2 ^ (7 - i)
  last : ∃ s, Search.rounds Search.towardsLowest 7 ⟨x, 0⟩ = .ok s ∧ s.rest.toNat % 2 = 1 ∧
    ∀ width, trailing x width = .ok s.passed
  found : ∃ n < 128, IsLowest x n ∧ (∀ m, IsLowest x m → m = n) ∧ ∀ width, trailing x width = .ok n

theorem finds_lowest {x : BitVec 128} (hx : x ≠ 0) : FindsLowest x := by
  constructor
  case rounds =>
    intro i hi
    obtain ⟨s, hs, hI⟩ := lowest_rounds hx i hi
    exact ⟨s, hs, Search.rounds_of_after hi hs, hI.rest_ne_zero, hI.value, ctz_lt_of_mod_ne_zero hI.low⟩
  case last =>
    obtain ⟨s, hs, hI⟩ := lowest_rounds hx 7 (Nat.le_refl 7)
    exact ⟨s, (Search.rounds_of_after (Nat.le_refl 7) hs).symm, hI.odd, trailing_eq_passed hx hs⟩
  case found =>
    exact ⟨x.ctz.toNat, ctz_lt hx, isLowest_ctz hx, fun _ h => h.eq_ctz, trailing_of_ne_zero hx⟩

/-- The zeros that the portable build finds below the lowest set bit of a word. -/
structure CountsTrailing (a : Word W) : Prop where
  zero : a = 0 → (select true).trailing a = .ok W.bits
  lowest : a ≠ 0 → ∃ n < W.bits, (select true).trailing a = .ok n ∧ IsLowest a n

theorem counts_trailing (a : Word W) : CountsTrailing a := by
  have htrailing : (select true).trailing a = .ok a.ctz.toNat := halving_trailing a
  constructor
  case zero =>
    rintro rfl
    rw [htrailing, ctz_zero]
  case lowest => exact fun ha => ⟨a.ctz.toNat, ctz_lt ha, htrailing, isLowest_ctz ha⟩

/-- The search for the lowest set bit accounts in every round for the bits that it passes, and ends
at the only position where it can, whatever the width; a word without a set bit gives the width. -/
theorem lowest_bit_found :
    (∀ x : BitVec 128, x ≠ 0 → FindsLowest x) ∧
      (∀ width, trailing 0 width = .ok width) ∧
      ∀ (W : Width) (a : Word W), CountsTrailing a :=
  ⟨fun _ hx => finds_lowest hx, fun _ => if_pos rfl, fun _ a => counts_trailing a⟩

/-- The top bit alone, on the way to which every round passes bits. -/
theorem lowest_bit_found_top_bit :
    BitVec.twoPow 128 127 ≠ 0 ∧ FindsLowest (BitVec.twoPow 128 127) :=
  ⟨by decide, lowest_bit_found.1 _ (by decide)⟩

/-! ## Towards the highest set bit -/

/-- The search for the highest set bit of a word that has one. -/
structure FindsHighest (x : BitVec 128) : Prop where
  /-- What is left after some of the seven rounds, from where the others go on. It has at most twice
  as many bits as the next round shifts by. -/
  rounds : ∀ i ≤ 7, ∃ s, Search.after Search.towardsHighest ⟨x, 0⟩ i = .ok s ∧
    Search.rounds Search.towardsHighest (7 - i) s = Search.rounds Search.towardsHighest 7 ⟨x, 0⟩ ∧
    s.rest ≠ 0 ∧ s.rest = x >>> s.passed ∧ s.rest.toNat < 2 ^ 2 ^ (7 - i)
  last : ∃ s, Search.rounds Search.towardsHighest 7 ⟨x, 0⟩ = .ok s ∧ s.rest = 1 ∧
    log2 x = .ok (s.passed : Int)
  found : ∃ n : Nat, log2 x = .ok (n : Int) ∧ 2 ^ n ≤ x.toNat ∧ x.toNat < 2 ^ (n + 1) ∧
    ∀ m : Nat, 2 ^ m ≤ x.toNat → x.toNat < 2 ^ (m + 1) → m = n

theorem finds_highest {x : BitVec 128} (hx : x ≠ 0) : FindsHighest x := by
  have hne := toNat_ne_zero hx
  constructor
  case rounds =>
    intro i hi
    obtain ⟨s, hs, hI⟩ := highest_rounds hx i hi
    refine ⟨s, hs, Search.rounds_of_after hi hs, ?_, ?_, hI.high⟩
    · exact fun hz => hI.pos (congrArg BitVec.toNat hz)
    · apply BitVec.eq_of_toNat_eq
      rw [BitVec.toNat_ushiftRight, Nat.shiftRight_eq_div_pow, hI.value]
  case last =>
    obtain ⟨s, hs, hI⟩ := highest_rounds hx 7 (Nat.le_refl 7)
    exact ⟨s, (Search.rounds_of_after (Nat.le_refl 7) hs).symm, BitVec.eq_of_toNat_eq hI.rest_eq_one,
      log2_eq_passed hx hs⟩
  case found =>
    obtain ⟨hlo, hhi⟩ := (Nat.log2_eq_iff hne).1 rfl
    refine ⟨x.toNat.log2, ?_, hlo, hhi, fun m h₁ h₂ => ((Nat.log2_eq_iff hne).2 ⟨h₁, h₂⟩).symm⟩
    rw [log2_eq, if_neg hx]

/-! ## Leading zeros -/

/-- The positions below the width and above every set bit are those that the logarithm leaves. -/
theorem card_above {x : BitVec 128} {width : Nat} {log : Int} (hlog : log2 x = .ok log) :
    #{i ∈ range width | ∀ j ∈ setBits x, j < i} = (width - 1 - log).toNat := by
  obtain rfl : (if x = 0 then -1 else (x.toNat.log2 : Int)) = log :=
    Except.ok.inj ((log2_eq x).symm.trans hlog)
  by_cases hz : x = 0
  -- without a set bit, every position is above all of them
  · rw [if_pos hz, hz, setBits_zero]
    simp
  · have habove : {i ∈ range width | ∀ j ∈ setBits x, j < i} = Ico (x.toNat.log2 + 1) width := by
      ext i
      rw [mem_filter, mem_range, mem_Ico, and_comm, and_congr_left_iff]
      intro _
      constructor
      · exact fun h => h _ (mem_setBits.2 (getLsbD_log2 hz))
      · intro h j hj
        have hle := le_log2_of_getLsbD (mem_setBits.1 hj)
        omega
    rw [habove, Nat.card_Ico, if_neg hz]
    omega

/-- The leading zeros of a word that fits in a width: no check on the way fails, the signed difference
is a count, and it counts the clear bits above every set one. -/
structure CountsLeading (W : Width) (x : BitVec 128) : Prop where
  fits : checkWidth x W.bits = .ok ()
  difference : ∃ top log count : Int, Checked.subSigned W.bits 1 = .ok top ∧ log2 x = .ok log ∧
    Checked.subSigned top log = .ok count ∧ 0 ≤ count ∧ count ≤ W.bits ∧
    (BitVec.ofInt 32 count).toNat = count ∧ leading x W.bits = .ok count.toNat
  counted : leading x W.bits = .ok #{i ∈ range W.bits | ∀ j ∈ setBits x, j < i}

theorem counts_leading {x : BitVec 128} (hx : x.toNat < 2 ^ W.bits) : CountsLeading W x := by
  have hpos := W.bits_pos
  have hbits := W.bits_le
  obtain ⟨log, hlog, hlo, hhi⟩ := log2_fits hx
  constructor
  case fits => exact checkWidth_eq hx hbits
  case difference =>
    -- the logarithm lies between minus one and the width, so both differences are small
    refine ⟨W.bits - 1, log, W.bits - 1 - log, subSigned_eq (by omega), hlog, subSigned_eq (by omega),
      by omega, by omega, ?_, leading_eq_sub hx hbits hlog⟩
    rw [BitVec.toNat_ofInt, Int.emod_eq_of_lt (by omega) (by omega), Int.toNat_of_nonneg (by omega)]
  case counted => rw [leading_eq_sub hx hbits hlog, card_above hlog]

/-- The logarithm and the leading zeros that the portable build finds for a word. -/
structure CountsAround (m : Word W) : Prop where
  /-- The highest set bit and the zeros on both sides make up the width. The logarithm is kept in
  sixteen bits. -/
  complement : ∃ (log : Int) (zeros : Nat), (select true).log2 m = .ok log ∧
    (select true).leading m = .ok zeros ∧ log + zeros + 1 = W.bits ∧ (BitVec.ofInt 16 log).toInt = log
  highest : m ≠ 0 → ∃ n : Nat, (select true).log2 m = .ok (n : Int) ∧ IsHighest m n

theorem counts_around (m : Word W) : CountsAround m := by
  have hbits := W.bits_le
  constructor
  case complement =>
    obtain ⟨log, hlog, hlo, hhi⟩ := log2_fits (toNat_wide_lt m)
    refine ⟨log, _, hlog, leading_eq_sub (toNat_wide_lt m) hbits hlog, by omega, ?_⟩
    rw [BitVec.toInt_ofInt, Int.bmod_eq_of_le (by omega) (by omega)]
  case highest =>
    intro hm
    have hlog : (select true).log2 m = .ok (if m = 0 then -1 else (m.toNat.log2 : Int)) := halving_log2 m
    rw [if_neg hm] at hlog
    exact ⟨m.toNat.log2, hlog, isHighest_log2 hm⟩

/-- The search for the highest set bit ends between two powers of two, and gives minus one for zero.
The leading zeros of a word that fits in a width are the positions above that bit, and together with
the logarithm they make up the width. -/
theorem highest_bit_found :
    log2 0 = .ok (-1) ∧
      (∀ x : BitVec 128, x ≠ 0 → FindsHighest x) ∧
      (∀ W : Width, leading 0 W.bits = .ok W.bits) ∧
      (∀ (W : Width) (x : BitVec 128), x.toNat < 2 ^ W.bits → CountsLeading W x) ∧
      ∀ (W : Width) (m : Word W), CountsAround m := by
  refine ⟨if_pos rfl, fun _ hx => finds_highest hx, fun W => ?_, fun _ _ hx => counts_leading hx,
    fun _ m => counts_around m⟩
  rw [leading_eq (Nat.two_pow_pos W.bits) W.bits_le, if_pos rfl]

/-- A word that fills the narrowest width. -/
theorem highest_bit_found_full_byte :
    (0xff#128 ≠ 0 ∧ FindsHighest 0xff#128) ∧
      ((0xff#128).toNat < 2 ^ Width.w8.bits ∧ CountsLeading .w8 0xff#128) :=
  ⟨⟨by decide, highest_bit_found.2.1 _ (by decide)⟩,
    by decide, highest_bit_found.2.2.2.1 .w8 _ (by decide)⟩

end Engine.Halving

end Wordwise
