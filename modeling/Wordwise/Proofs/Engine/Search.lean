/-
The binary searches of the halving engine. Each round carries an invariant one step down: before
the round with shift `2 ^ k` the search for the lowest set bit has a set bit among the low
`2 ^ (k + 1)` bits of its rest, and the search for the highest has none above them. Seven rounds
take `2 ^ 7` bits down to one, so neither search refuses a word and both count what they claim.
-/
import Wordwise.Engine.Halving
import Wordwise.Proofs.SetBits

namespace Wordwise.Engine.Halving

/-! ## Rounds -/

/-- Where a search stands after a number of rounds. The shift of the first one is sixty-four, and
that of every other is half of the one before. -/
def Search.after (round : Search → Nat → Except Fault Search) (s : Search) :
    Nat → Except Fault Search
  | 0 => .ok s
  | i + 1 => do round (← Search.after round s i) (64 >>> i)

/-- Counted from the first round or by the rounds left, a round has the same shift. -/
theorem shift_eq : ∀ i ≤ 6, 64 >>> i = 1 <<< (7 - (i + 1)) := by decide

/-- After some of the seven rounds, the others lead to the same end. -/
theorem Search.after_bind_rounds (round : Search → Nat → Except Fault Search) (s : Search) :
    ∀ i ≤ 7, Search.after round s i >>= Search.rounds round (7 - i) = Search.rounds round 7 s
  | 0, _ => rfl
  | i + 1, hi => by
    rw [← Search.after_bind_rounds round s i (by omega), show 7 - i = 7 - (i + 1) + 1 by omega,
      Search.after, bind_assoc, shift_eq i (by omega)]
    rfl

theorem Search.rounds_of_after {round : Search → Nat → Except Fault Search} {s s' : Search} {i : Nat}
    (hi : i ≤ 7) (h : Search.after round s i = .ok s') :
    Search.rounds round (7 - i) s' = Search.rounds round 7 s := by
  rw [← Search.after_bind_rounds round s i hi, h]
  rfl

/-- Invariants numbered by the rounds left, each carried to the next by one round, hold after every
round. -/
theorem Search.after_inv {I : Nat → Search → Prop} {round : Search → Nat → Except Fault Search}
    (hround : ∀ k s, I (k + 1) s → ∃ s', round s (1 <<< k) = .ok s' ∧ I k s') {s : Search} (hs : I 7 s) :
    ∀ i ≤ 7, ∃ s', Search.after round s i = .ok s' ∧ I (7 - i) s'
  | 0, _ => ⟨s, rfl, hs⟩
  | i + 1, hi => by
    obtain ⟨s₁, h₁, hI⟩ := Search.after_inv hround hs i (by omega)
    rw [show 7 - i = 7 - (i + 1) + 1 by omega] at hI
    obtain ⟨s₂, h₂, hE⟩ := hround _ s₁ hI
    refine ⟨s₂, ?_, hE⟩
    rw [Search.after, h₁, shift_eq i (by omega)]
    exact h₂

theorem Search.pass_eq {limit shift : Nat} {s : Search} (hp : s.passed + shift < limit)
    (hs : shift < 128) : s.pass limit shift = .ok ⟨s.rest >>> shift, s.passed + shift⟩ := by
  unfold Search.pass Checked.addCount Checked.shiftRight
  rw [if_pos hp, if_pos hs]
  rfl

/-- The shift of a round is at most sixty-four. -/
theorem shift_le {k : Nat} (hk : k + 1 ≤ 7) : 2 ^ k ≤ 64 :=
  Nat.pow_le_pow_right (by decide) (show k ≤ 6 by omega)

theorem two_pow_two_pow_succ (k : Nat) : 2 ^ 2 ^ (k + 1) = 2 ^ 2 ^ k * 2 ^ 2 ^ k := by
  rw [← Nat.pow_add, Nat.pow_succ, Nat.mul_two]

/-! ## Towards the lowest set bit -/

/-- Before the last `k` rounds: nothing but zeros was passed, and a set bit is near. -/
structure LowestInv (a : BitVec 128) (k : Nat) (s : Search) : Prop where
  rounds : k ≤ 7
  value : a.toNat = s.rest.toNat * 2 ^ s.passed
  low : s.rest.toNat % 2 ^ 2 ^ k ≠ 0

/-- A rest of zero would have no set bit among its low ones. -/
theorem LowestInv.rest_ne_zero {a : BitVec 128} {k : Nat} {s : Search} (h : LowestInv a k s) :
    s.rest ≠ 0 := by
  intro hz
  apply h.low
  rw [hz]
  exact Nat.zero_mod _

theorem LowestInv.passed_lt {a : BitVec 128} {k : Nat} {s : Search} (h : LowestInv a k s) :
    s.passed < 128 := by
  have hpos : 0 < s.rest.toNat := Nat.pos_of_ne_zero (toNat_ne_zero h.rest_ne_zero)
  have hle : 2 ^ s.passed ≤ a.toNat := by
    rw [h.value]
    exact Nat.le_mul_of_pos_left _ hpos
  exact (Nat.pow_lt_pow_iff_right (by decide)).1 (Nat.lt_of_le_of_lt hle a.isLt)

/-- The test of a round looks at the low bits of the rest. -/
theorem towardsLowest_eq {shift : Nat} {s : Search} (hs : shift < 128) :
    s.towardsLowest shift =
      if s.rest.toNat % 2 ^ shift = 0 then s.pass unsignedLimit shift else .ok s := by
  have hlt : 2 ^ shift < 2 ^ 128 := Nat.pow_lt_pow_right (by decide) hs
  have hpos : 0 < 2 ^ shift := Nat.two_pow_pos shift
  have hpower : ((1 : BitVec 128) <<< shift).toNat = 2 ^ shift := by
    rw [BitVec.toNat_shiftLeft, Nat.shiftLeft_eq]
    exact (congrArg (· % 2 ^ 128) (Nat.one_mul _)).trans (Nat.mod_eq_of_lt hlt)
  have hunder : ((1 : BitVec 128) <<< shift).usubOverflow 1 = false := by
    rw [BitVec.usubOverflow, hpower]
    exact decide_eq_false (Nat.not_lt.2 hpos)
  have hlow : ((1 : BitVec 128) <<< shift - 1).toNat = 2 ^ shift - 1 := by
    rw [BitVec.toNat_sub_of_le (by rw [BitVec.le_def, hpower]; exact hpos), hpower]
    rfl
  have htest : (s.rest &&& ((1 : BitVec 128) <<< shift - 1) = 0) ↔ s.rest.toNat % 2 ^ shift = 0 := by
    rw [← BitVec.toNat_inj, BitVec.toNat_and, hlow, Nat.and_two_pow_sub_one_eq_mod]
    exact Iff.rfl
  have hsub : Checked.sub ((1 : BitVec 128) <<< shift) 1 = .ok ((1 : BitVec 128) <<< shift - 1) := by
    unfold Checked.sub
    rw [hunder]
    rfl
  unfold Search.towardsLowest Checked.shiftLeft
  rw [if_pos hs]
  show (Checked.sub ((1 : BitVec 128) <<< shift) 1 >>= fun low =>
    if s.rest &&& low = 0 then s.pass unsignedLimit shift else .ok s) = _
  rw [hsub]
  show (if s.rest &&& ((1 : BitVec 128) <<< shift - 1) = 0 then _ else _) = _
  simp only [htest]

/-- One round towards the lowest set bit keeps the rest nonzero and accounts for what it drops. -/
theorem lowestInv_step {a : BitVec 128} {k : Nat} {s : Search} (h : LowestInv a (k + 1) s) :
    ∃ s', s.towardsLowest (1 <<< k) = .ok s' ∧ LowestInv a k s' := by
  have hshift := shift_le h.rounds
  rw [Nat.one_shiftLeft, towardsLowest_eq (by omega)]
  by_cases hz : s.rest.toNat % 2 ^ 2 ^ k = 0
  · have hp := h.passed_lt
    rw [if_pos hz, Search.pass_eq (by unfold unsignedLimit; omega) (by omega)]
    refine ⟨_, rfl, ⟨by have := h.rounds; omega, ?_, ?_⟩⟩
    · -- the dropped bits are zeros, so dividing them away loses nothing
      show a.toNat = (s.rest >>> 2 ^ k).toNat * 2 ^ (s.passed + 2 ^ k)
      rw [BitVec.toNat_ushiftRight, Nat.shiftRight_eq_div_pow, Nat.pow_add,
        Nat.mul_comm (2 ^ s.passed), ← Nat.mul_assoc, Nat.div_mul_cancel (Nat.dvd_of_mod_eq_zero hz)]
      exact h.value
    -- both halves of the low bits clear would contradict the invariant before the round
    · show (s.rest >>> 2 ^ k).toNat % 2 ^ 2 ^ k ≠ 0
      intro hlow
      apply h.low
      rw [BitVec.toNat_ushiftRight, Nat.shiftRight_eq_div_pow] at hlow
      rw [two_pow_two_pow_succ, Nat.mod_mul, hz, hlow, Nat.mul_zero]
  · rw [if_neg hz]
    exact ⟨s, rfl, ⟨by have := h.rounds; omega, h.value, hz⟩⟩

/-- Round by round, the search for the lowest set bit of a word that is not zero keeps its
invariant. -/
theorem lowest_rounds {a : BitVec 128} (ha : a ≠ 0) :
    ∀ i ≤ 7, ∃ s, Search.after Search.towardsLowest ⟨a, 0⟩ i = .ok s ∧ LowestInv a (7 - i) s := by
  refine Search.after_inv (fun _ _ => lowestInv_step) ⟨Nat.le_refl 7, (Nat.mul_one _).symm, ?_⟩
  show a.toNat % 2 ^ 128 ≠ 0
  rw [Nat.mod_eq_of_lt a.isLt]
  exact toNat_ne_zero ha

/-- When no round is left, the set bit that is near is the lowest one of the rest. -/
theorem LowestInv.odd {a : BitVec 128} {s : Search} (h : LowestInv a 0 s) : s.rest.toNat % 2 = 1 := by
  have hlow := h.low
  rw [show 2 ^ 2 ^ 0 = 2 from rfl] at hlow
  omega

theorem trailing_eq_passed {a : BitVec 128} {s : Search} (ha : a ≠ 0)
    (hs : Search.after Search.towardsLowest ⟨a, 0⟩ 7 = .ok s) (width : Nat) :
    trailing a width = .ok s.passed := by
  unfold trailing
  rw [if_neg ha, ← Search.rounds_of_after (Nat.le_refl 7) hs]
  rfl

/-- An odd number times a power of two has as many trailing zeros as the exponent says. -/
theorem ctz_of_odd_mul {w : Nat} {a : BitVec w} {r n : Nat} (h : a.toNat = r * 2 ^ n) (hr : r % 2 = 1) :
    a.ctz.toNat = n := by
  apply ctz_eq_of_lowest
  · show a.toNat.testBit n = true
    rw [h, Nat.testBit_mul_two_pow]
    simp [hr]
  · intro i hi
    show a.toNat.testBit i = false
    rw [h, Nat.testBit_mul_two_pow]
    simp [Nat.not_le.2 hi]

/-- The search for the lowest set bit of a word that is not zero finds it. -/
theorem trailing_of_ne_zero {a : BitVec 128} (ha : a ≠ 0) (width : Nat) :
    trailing a width = .ok a.ctz.toNat := by
  obtain ⟨s, hs, hI⟩ := lowest_rounds ha 7 (Nat.le_refl 7)
  rw [trailing_eq_passed ha hs, ctz_of_odd_mul hI.value hI.odd]

/-! ## Towards the highest set bit -/

/-- Before the last `k` rounds: the rest is what lies above the bits passed, and it is small. -/
structure HighestInv (a : BitVec 128) (k : Nat) (s : Search) : Prop where
  rounds : k ≤ 7
  value : s.rest.toNat = a.toNat / 2 ^ s.passed
  pos : s.rest.toNat ≠ 0
  high : s.rest.toNat < 2 ^ 2 ^ k

theorem HighestInv.passed_lt {a : BitVec 128} {k : Nat} {s : Search} (h : HighestInv a k s) :
    s.passed < 128 := by
  have hle : 2 ^ s.passed ≤ a.toNat := by
    by_contra hlt
    exact h.pos (h.value.trans (Nat.div_eq_of_lt (Nat.lt_of_not_le hlt)))
  exact (Nat.pow_lt_pow_iff_right (by decide)).1 (Nat.lt_of_le_of_lt hle a.isLt)

theorem towardsHighest_eq {shift : Nat} {s : Search} (hs : shift < 128) :
    s.towardsHighest shift =
      if s.rest.toNat / 2 ^ shift ≠ 0 then s.pass signedLimit shift else .ok s := by
  have htest : (s.rest >>> shift ≠ 0) ↔ s.rest.toNat / 2 ^ shift ≠ 0 := by
    rw [not_iff_not, ← BitVec.toNat_inj, BitVec.toNat_ushiftRight, Nat.shiftRight_eq_div_pow]
    exact Iff.rfl
  unfold Search.towardsHighest Checked.shiftRight
  rw [if_pos hs]
  show (if s.rest >>> shift ≠ 0 then _ else _) = _
  simp only [htest]

/-- One round towards the highest set bit halves the room that is left for it. -/
theorem highestInv_step {a : BitVec 128} {k : Nat} {s : Search} (h : HighestInv a (k + 1) s) :
    ∃ s', s.towardsHighest (1 <<< k) = .ok s' ∧ HighestInv a k s' := by
  have hshift := shift_le h.rounds
  rw [Nat.one_shiftLeft, towardsHighest_eq (by omega)]
  by_cases hz : s.rest.toNat / 2 ^ 2 ^ k = 0
  · rw [if_neg (not_not.2 hz)]
    refine ⟨s, rfl, ⟨by have := h.rounds; omega, h.value, h.pos, ?_⟩⟩
    exact Nat.lt_of_div_eq_zero (Nat.two_pow_pos _) hz
  · have hp := h.passed_lt
    rw [if_pos hz, Search.pass_eq (by unfold signedLimit; omega) (by omega)]
    have hrest : (s.rest >>> 2 ^ k).toNat = s.rest.toNat / 2 ^ 2 ^ k := by
      rw [BitVec.toNat_ushiftRight, Nat.shiftRight_eq_div_pow]
    refine ⟨_, rfl, ⟨by have := h.rounds; omega, ?_, ?_, ?_⟩⟩
    · show (s.rest >>> 2 ^ k).toNat = a.toNat / 2 ^ (s.passed + 2 ^ k)
      rw [hrest, h.value, Nat.div_div_eq_div_mul, Nat.pow_add]
    · show (s.rest >>> 2 ^ k).toNat ≠ 0
      rw [hrest]
      exact hz
    · show (s.rest >>> 2 ^ k).toNat < 2 ^ 2 ^ k
      rw [hrest, Nat.div_lt_iff_lt_mul (Nat.two_pow_pos _), ← two_pow_two_pow_succ]
      exact h.high

/-- Round by round, the search for the highest set bit of a word that is not zero keeps its
invariant. -/
theorem highest_rounds {a : BitVec 128} (ha : a ≠ 0) :
    ∀ i ≤ 7, ∃ s, Search.after Search.towardsHighest ⟨a, 0⟩ i = .ok s ∧ HighestInv a (7 - i) s :=
  Search.after_inv (fun _ _ => highestInv_step)
    ⟨Nat.le_refl 7, (Nat.div_one _).symm, toNat_ne_zero ha, a.isLt⟩

/-- When no round is left, the rest is the highest set bit alone. -/
theorem HighestInv.rest_eq_one {a : BitVec 128} {s : Search} (h : HighestInv a 0 s) :
    s.rest.toNat = 1 := by
  have hhigh := h.high
  have hpos := h.pos
  rw [show 2 ^ 2 ^ 0 = 2 from rfl] at hhigh
  omega

theorem log2_eq_passed {a : BitVec 128} {s : Search} (ha : a ≠ 0)
    (hs : Search.after Search.towardsHighest ⟨a, 0⟩ 7 = .ok s) : log2 a = .ok (s.passed : Int) := by
  unfold log2
  rw [if_neg ha, ← Search.rounds_of_after (Nat.le_refl 7) hs]
  rfl

/-- The search for the highest set bit finds it, and gives minus one for zero. -/
theorem log2_eq (a : BitVec 128) : log2 a = .ok (if a = 0 then -1 else (a.toNat.log2 : Int)) := by
  by_cases ha : a = 0
  · unfold log2
    rw [if_pos ha, if_pos ha]
  obtain ⟨s, hs, hI⟩ := highest_rounds ha 7 (Nat.le_refl 7)
  have hlog : a.toNat.log2 = s.passed := by
    rw [Nat.log2_eq_iff (toNat_ne_zero ha)]
    have hdiv := Nat.div_add_mod a.toNat (2 ^ s.passed)
    have hmod := Nat.mod_lt a.toNat (Nat.two_pow_pos s.passed)
    rw [← hI.value, hI.rest_eq_one] at hdiv
    rw [Nat.pow_succ]
    omega
  rw [if_neg ha, log2_eq_passed ha hs, hlog]

end Wordwise.Engine.Halving
