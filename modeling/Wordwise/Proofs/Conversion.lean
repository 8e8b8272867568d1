/-
From positions to words and back. Whichever way a position is turned into the word of its bit, the
word and the positions that are accepted are the same; a mask is refused as a shift that is too far,
all else as a position out of bounds. A word goes back to the position of its lowest bit: what a
position was turned into gives it back, and a word is given back when it has no other bit.
-/
import Wordwise.Proofs.Members
import Wordwise.Proofs.Refusals

namespace Wordwise

variable {W : Width}

/-! ## Masks of one bit -/

theorem Mask.single_eq {p : Position} {i : Nat} (hp : p.val = i) (hi : i < W.bits) :
    (single p : Except Fault (Mask W)) = .ok ⟨BitVec.twoPow W.bits i⟩ := by
  have hshift : Checked.shiftLeft (1 : Word W) p.val.toNat = .ok (BitVec.twoPow W.bits i) := by
    rw [hp, Int.toNat_natCast]
    exact if_pos hi
  unfold single
  rw [if_pos (by omega), hshift]
  rfl

/-- A negative amount and one that reaches the width are refused alike. -/
theorem Mask.single_error {p : Position} (hp : ¬ (0 ≤ p.val ∧ p.val < W.bits)) :
    (single p : Except Fault (Mask W)) = .error .shiftLeftOverflow := by
  unfold single
  by_cases h0 : 0 ≤ p.val
  · have hshift : Checked.shiftLeft (1 : Word W) p.val.toNat = .error .shiftLeftOverflow :=
      if_neg (by omega)
    rw [if_pos h0, hshift]
    rfl
  · exact if_neg h0

namespace Position

/-! ## Ways in -/

/-- The checked ways from a position to the word of its bit all give this result: on its own, read as
an operand, as a set of its own, inserted into the empty set, and collected from a list. -/
structure TurnsInto (p : Position) (x : Except Fault (Word W)) : Prop where
  toWord : p.toWord W = x
  read : (Operand.position p).read = x
  singleton : (WordSet.singleton p).map WordSet.word = x
  insert : (WordSet.empty.insert (.position p)).map WordSet.word = x
  ofPositions : (WordSet.ofPositions [p]).map WordSet.word = x

theorem turnsInto_toWord (p : Position) : p.TurnsInto (p.toWord W) := by
  have hinsert : (WordSet.empty.insert (.position p)).map WordSet.word = p.toWord W := by
    unfold WordSet.insert
    rw [Operand.read_position]
    cases p.toWord W with
    | error f => rfl
    | ok a => exact congrArg Except.ok (BitVec.zero_or)
  constructor
  case toWord => rfl
  case read => rfl
  case singleton =>
    unfold WordSet.singleton
    cases p.toWord W with
    | error f => rfl
    | ok a => rfl
  case insert => exact hinsert
  case ofPositions =>
    unfold WordSet.ofPositions
    rw [← hinsert, List.foldlM_cons]
    cases WordSet.empty.insert (.position p : Operand W) with
    | error f => rfl
    | ok s => rfl

/-- The word of a bit alone goes back to the position of the bit. -/
theorem ofWord_twoPow {i : Nat} (hi : i < W.bits) :
    ofWord .direct (BitVec.twoPow W.bits i : Word W) = .ok (.wrap i) := by
  unfold ofWord
  rw [if_neg (twoPow_ne_zero hi), Engine.direct_trailing, Checked.ok_bind, ctz_twoPow hi]
  rfl

/-- What a position is turned into at a width and goes back from, and what it is refused with. -/
structure Converts (e : Engine) (W : Width) (p : Position) : Prop where
  inside : 0 ≤ p.val ∧ p.val < W.bits → ∃ a : Word W, a.toNat = 2 ^ p.val.toNat ∧
    p.TurnsInto (.ok a) ∧ Mask.single p = .ok (⟨a⟩ : Mask W) ∧ ofWord e a = .ok p
  outside : ¬ (0 ≤ p.val ∧ p.val < W.bits) → ∃ f g : Fault,
    f.message = "Bit index " ++ toString p.val ++ " out of bounds" ∧
    g.message = "attempt to shift left with overflow" ∧
    p.TurnsInto (.error f : Except Fault (Word W)) ∧ (Mask.single p : Except Fault (Mask W)) = .error g

theorem converts (W : Width) (p : Position) : Converts .direct W p := by
  have hturns := p.turnsInto_toWord (W := W)
  constructor
  case inside =>
    rintro ⟨h0, hN⟩
    have hval : p.val = (p.val.toNat : Nat) := (Int.toNat_of_nonneg h0).symm
    have hlt : p.val.toNat < W.bits := by omega
    have hback : wrap p.val.toNat = p := Position.ext ((wrap_val_of_lt hlt).trans hval.symm)
    rw [toWord_eq hval hlt] at hturns
    refine ⟨_, BitVec.toNat_twoPow_of_lt hlt, hturns, Mask.single_eq hval hlt, ?_⟩
    rw [ofWord_twoPow hlt, hback]
  case outside =>
    intro hp
    rw [toWord_error hp] at hturns
    refine ⟨.outOfBounds p.val, .shiftLeftOverflow, ?_, rfl, hturns, Mask.single_error hp⟩
    rw [Fault.message, ofList_decimal]

/-! ## Ways back -/

/-- What a word goes back to, which is the position of its lowest bit. -/
structure GoesBack (e : Engine) (a : Word W) : Prop where
  nonzero : a ≠ 0 → ∃ p, ofWord e a = .ok p ∧ 0 ≤ p.val ∧ p.val < W.bits ∧
    p.toWord W = .ok (WordSet.ofWord a).lowest.word ∧
    (p.toWord W = .ok a ↔ ∃ i : Nat, a.toNat = 2 ^ i) ∧
    (p.toWord W = .ok a ↔ (WordSet.ofWord a).isSingleton = .ok true)
  zero : a = 0 → (WordSet.ofWord a).lowestPosition e = .ok (past W) ∧ ∃ f, ofWord e a = .error f ∧
    f.message = "Index of the lowest bit of an empty mask"

/-- A power of two is the word of its lowest bit. -/
theorem twoPow_ctz_eq_iff {a : Word W} (ha : a ≠ 0) :
    BitVec.twoPow W.bits a.ctz.toNat = a ↔ ∃ i : Nat, a.toNat = 2 ^ i := by
  constructor
  · intro h
    refine ⟨a.ctz.toNat, ?_⟩
    rw [← BitVec.toNat_twoPow_of_lt (ctz_lt ha), h]
  · rintro ⟨i, hi⟩
    have hlt : i < W.bits := (Nat.pow_lt_pow_iff_right Nat.one_lt_two).1 (hi ▸ a.isLt)
    have heq : a = BitVec.twoPow W.bits i := by
      apply BitVec.eq_of_toNat_eq
      rw [hi, BitVec.toNat_twoPow_of_lt hlt]
    rw [heq, ctz_twoPow hlt]

/-- A word with no other set bit is the word of its lowest bit. -/
theorem twoPow_ctz_eq_iff_length {a : Word W} (ha : a ≠ 0) :
    BitVec.twoPow W.bits a.ctz.toNat = a ↔ (setBits a).length = 1 := by
  constructor
  · intro h
    rw [← h, setBits_twoPow (ctz_lt ha), List.length_singleton]
  · intro hlength
    obtain ⟨i, hi⟩ := List.length_eq_one_iff.1 hlength
    have hcons := setBits_eq_cons ha
    rw [hi] at hcons
    apply setBits_injective
    rw [setBits_twoPow (ctz_lt ha), hi, (List.cons.inj hcons).1]

theorem goesBack (a : Word W) : GoesBack .direct a := by
  constructor
  case nonzero =>
    intro ha
    have hlt := ctz_lt ha
    have hval := wrap_val_of_lt hlt
    have hword : (wrap a.ctz.toNat).toWord W = .ok (BitVec.twoPow W.bits a.ctz.toNat) := toWord_eq hval hlt
    have hofWord : ofWord .direct a = .ok (wrap a.ctz.toNat) := if_neg ha
    refine ⟨wrap a.ctz.toNat, hofWord, by omega, by omega, ?_, ?_, ?_⟩
    · rw [hword, WordSet.lowest, WordSet.word_ofWord, WordSet.word_ofWord, lowestBit_eq ha]
    · rw [hword, Except.ok.injEq, twoPow_ctz_eq_iff ha]
    · rw [hword, Except.ok.injEq, twoPow_ctz_eq_iff_length ha, WordSet.isSingleton, isPowerOfTwo_eq,
        WordSet.word_ofWord, Except.ok.injEq, decide_eq_true_iff]
  case zero =>
    rintro rfl
    refine ⟨rfl, .emptyWord, rfl, rfl⟩

/-- In every build, a position and the word of its bit are turned into one another, in every way
alike, and what is no position of a bit, or no word with one, is refused. -/
theorem conversions_inverse (portable : Bool) (W : Width) :
    (∀ p, Converts (.select portable) W p) ∧ ∀ a : Word W, GoesBack (.select portable) a := by
  rw [Engine.select_eq_direct]
  exact ⟨converts W, goesBack⟩

end Position

end Wordwise
