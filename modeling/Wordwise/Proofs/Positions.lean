/-
Positions of set bits. A word gives the ascending list of the positions of its set bits, a bit's
position gives the word with that bit alone, and an operand stands for exactly one word, or for
none when it is a position outside the word.
-/
import Mathlib.Order.Defs.LinearOrder
import Wordwise.Operand
import Wordwise.Proofs.SetBits

namespace Wordwise

variable {W : Width}

namespace Position

/-! ## The order of positions -/

instance : LinearOrder Position where
  le_refl p := Int.le_refl p.val
  le_trans _ _ _ := Int.le_trans
  lt_iff_le_not_ge _ _ := Int.lt_iff_le_and_not_ge
  le_antisymm _ _ hpq hqp := Position.ext (Int.le_antisymm hpq hqp)
  le_total p q := Int.le_total p.val q.val
  toDecidableLE := inferInstance
  toDecidableLT := inferInstance
  toDecidableEq := inferInstance
  compare_eq_compareOfLessAndEq p q := by
    show compareOfLessAndEq p.val q.val = compareOfLessAndEq p q
    unfold compareOfLessAndEq
    have heq : p.val = q.val ↔ p = q := ⟨Position.ext, congrArg val⟩
    simp only [lt_def, heq]

/-! ## Bits as positions -/

theorem wrap_val_of_lt {i : Nat} (hi : i < W.bits) : (wrap i).val = i := by
  have := W.bits_le
  exact wrap_val (by omega)

theorem isBit_iff {p : Position} : p.isBit W = true ↔ 0 ≤ p.val ∧ p.val < W.bits := by
  simp only [isBit, Bool.and_eq_true, decide_eq_true_eq, le_def, lt_def, first_val, past_val]

theorem hold_eq {c : Fault} {i : Int} (h : -32768 ≤ i ∧ i ≤ 32767) :
    hold c i = .ok ⟨i, h.1, h.2⟩ := dif_pos h

theorem hold_spec {c : Fault} {i : Int} (h : -32768 ≤ i ∧ i ≤ 32767) :
    ∃ p, hold c i = .ok p ∧ p.val = i := ⟨_, hold_eq h, rfl⟩

theorem hold_error {c : Fault} {i : Int} (h : ¬ (-32768 ≤ i ∧ i ≤ 32767)) :
    hold c i = .error c := dif_neg h

/-! ## Steps to a neighbour -/

theorem succ_spec {p : Position} (hp : p.val < 128) : ∃ q, p.succ = .ok q ∧ q.val = p.val + 1 := by
  have hlo := p.lo
  unfold succ
  rw [if_pos (show p < past .w128 from hp)]
  exact hold_spec (by omega)

theorem succ_error {p : Position} (hp : ¬ p.val < 128) : p.succ = .error (.noSuccessor p.val) :=
  if_neg hp

theorem pred_spec {p : Position} (hp : -1 < p.val) : ∃ q, p.pred = .ok q ∧ q.val = p.val - 1 := by
  have hhi := p.hi
  unfold pred
  rw [if_pos (show before < p from hp)]
  exact hold_spec (by omega)

theorem pred_error {p : Position} (hp : ¬ -1 < p.val) : p.pred = .error (.noPredecessor p.val) :=
  if_neg hp

end Position

theorem shiftAmount_eq {i : Int} (h : 0 ≤ i ∧ i < 4294967296) : shiftAmount i = i.toNat := by
  rw [shiftAmount, BitVec.toNat_ofInt]
  exact congrArg Int.toNat (Int.emod_eq_of_lt h.1 h.2)

theorem shiftUp_one {i : Nat} (hi : i < W.bits) :
    shiftUp (1 : Word W) (shiftAmount i) = BitVec.twoPow W.bits i := by
  have := W.bits_le
  rw [shiftAmount_eq (by omega), shiftUp_eq]
  rfl

/-- The position of a bit gives the word with that bit alone. -/
theorem Position.toWord_eq {p : Position} {i : Nat} (hp : p.val = i) (hi : i < W.bits) :
    p.toWord W = .ok (BitVec.twoPow W.bits i) := by
  unfold Position.toWord
  rw [if_pos (isBit_iff.2 (by omega)), hp, shiftUp_one hi]

theorem Position.toWord_error {p : Position} (hp : ¬ (0 ≤ p.val ∧ p.val < W.bits)) :
    p.toWord W = .error (.outOfBounds p.val) :=
  if_neg fun h => hp (isBit_iff.1 h)

/-! ## The list of positions -/

/-- The positions of the set bits of a word, in ascending order. -/
def memberList (a : Word W) : List Position := (setBits a).map fun i : Nat => .wrap i

theorem map_val_memberList (a : Word W) :
    (memberList a).map Position.val = (setBits a).map fun i : Nat => (i : Int) := by
  unfold memberList
  rw [List.map_map]
  refine List.map_congr_left fun i hi => ?_
  rw [Function.comp_apply, Position.wrap_val_of_lt (lt_of_mem_setBits hi)]

theorem mem_memberList {a : Word W} {p : Position} :
    p ∈ memberList a ↔ ∃ i : Nat, a.getLsbD i = true ∧ p.val = i := by
  unfold memberList
  rw [List.mem_map]
  constructor
  · rintro ⟨i, hi, rfl⟩
    exact ⟨i, mem_setBits.1 hi, Position.wrap_val_of_lt (lt_of_mem_setBits hi)⟩
  · rintro ⟨i, hi, hp⟩
    refine ⟨i, mem_setBits.2 hi, Position.ext ?_⟩
    rw [hp, Position.wrap_val_of_lt (BitVec.lt_of_getLsbD hi)]

theorem val_of_mem_memberList {a : Word W} {p : Position} (h : p ∈ memberList a) :
    0 ≤ p.val ∧ p.val < W.bits := by
  obtain ⟨i, hi, hp⟩ := mem_memberList.1 h
  have := BitVec.lt_of_getLsbD hi
  omega

/-- A word is known by the positions of its set bits. -/
theorem eq_of_mem_memberList_iff {a b : Word W} (h : ∀ p, p ∈ memberList a ↔ p ∈ memberList b) :
    a = b := by
  have hbit : ∀ (c : Word W) (j : Nat), j < W.bits → (.wrap j ∈ memberList c ↔ c.getLsbD j = true) := by
    intro c j hj
    rw [mem_memberList, Position.wrap_val_of_lt hj]
    constructor
    · rintro ⟨i, hi, hij⟩
      rwa [Int.ofNat.inj hij]
    · intro hc
      exact ⟨j, hc, rfl⟩
  apply BitVec.eq_of_getLsbD_eq
  intro j hj
  rw [Bool.eq_iff_iff, ← hbit a j hj, h, hbit b j hj]

theorem memberList_pairwise (a : Word W) : (memberList a).Pairwise (· < ·) := by
  have hval : ((memberList a).map Position.val).Pairwise (· < ·) := by
    rw [map_val_memberList, List.pairwise_map]
    exact (setBits_sortedLT a).pairwise.imp fun hij => Int.ofNat_lt.2 hij
  rw [List.pairwise_map] at hval
  exact hval

theorem length_memberList (a : Word W) : (memberList a).length = (setBits a).length :=
  List.length_map _

/-! ## Operands -/

/-- The word that an operand stands for: that of a form, or the bit of a position alone. -/
inductive Operand.Denotes : Operand W → Word W → Prop
  | word (a : Word W) : Denotes (.form (.word a)) a
  | mask (a : Word W) : Denotes (.form (.mask ⟨a⟩)) a
  | set (a : Word W) : Denotes (.form (.set (.ofWord a))) a
  | position (p : Position) (i : Nat) (hp : p.val = i) (hi : i < W.bits) :
    Denotes (.position p) (BitVec.twoPow W.bits i)

/-- Reading an operand gives the word that it stands for. -/
theorem Operand.read_eq_ok_iff {o : Operand W} {a : Word W} : o.read = .ok a ↔ o.Denotes a := by
  constructor
  · intro h
    cases o with
    | form f =>
      cases h
      cases f with
      | word a => exact .word a
      | mask m => exact .mask m.bits
      | set s => exact .set s.word
    | position p =>
      by_cases hp : 0 ≤ p.val ∧ p.val < W.bits
      · have hval : p.val = (p.val.toNat : Nat) := (Int.toNat_of_nonneg hp.1).symm
        have hlt : p.val.toNat < W.bits := by omega
        rw [Operand.read_position, Position.toWord_eq hval hlt] at h
        cases h
        exact .position p _ hval hlt
      · rw [Operand.read_position, Position.toWord_error hp] at h
        cases h
  · intro h
    cases h with
    | word => rfl
    | mask => rfl
    | set => rfl
    | position p i hp hi => exact Position.toWord_eq hp hi

/-- An operand stands for no word exactly when it is a position outside the word, and the refusal
names the position. -/
theorem Operand.read_eq_error_iff {o : Operand W} {f : Fault} :
    o.read = .error f ↔
      ∃ p : Position, o = .position p ∧ ¬ (0 ≤ p.val ∧ p.val < W.bits) ∧ f = .outOfBounds p.val := by
  constructor
  · intro h
    cases o with
    | form g => cases h
    | position p =>
      by_cases hp : 0 ≤ p.val ∧ p.val < W.bits
      · rw [Operand.read_position,
          Position.toWord_eq (Int.toNat_of_nonneg hp.1).symm (by omega)] at h
        cases h
      · rw [Operand.read_position, Position.toWord_error hp] at h
        cases h
        exact ⟨p, rfl, hp, rfl⟩
  · rintro ⟨p, rfl, hp, rfl⟩
    exact Position.toWord_error hp

end Wordwise
