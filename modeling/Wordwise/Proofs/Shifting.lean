/-
The laws of shifting, for every amount. Two shifts the same way are one by the sum of their amounts,
also where each leaves something and both together nothing; operators may be applied before or after
a shift. As a number a set is multiplied or divided by a power of two. Its members are moved and keep
their order: those that leave the word are lost, and a shift there and back keeps the others.
-/
import Wordwise.Proofs.SetRun

namespace Wordwise

variable {w : ℕ}

/-! ## There and back -/

/-- A shift up and down again loses the set bits that reach the width. -/
theorem setBits_shiftLeft_ushiftRight (a : BitVec w) (n : ℕ) :
    setBits (a <<< n >>> n) = (setBits a).filter (· + n < w) := by
  apply setBits_eq_of_mem_iff
  · exact List.sortedLT_iff_pairwise.2 ((setBits_sortedLT a).pairwise.filter _)
  · intro i
    rw [List.mem_filter, mem_setBits, BitVec.getLsbD_ushiftRight, BitVec.getLsbD_shiftLeft,
      Nat.add_sub_cancel_left, Nat.add_comm n]
    simp [and_comm]

/-- A shift down and up again loses the set bits below the amount. -/
theorem setBits_ushiftRight_shiftLeft (a : BitVec w) (n : ℕ) :
    setBits (a >>> n <<< n) = (setBits a).filter (n ≤ ·) := by
  apply setBits_eq_of_mem_iff
  · exact List.sortedLT_iff_pairwise.2 ((setBits_sortedLT a).pairwise.filter _)
  · intro i
    rw [List.mem_filter, mem_setBits, BitVec.getLsbD_shiftLeft, BitVec.getLsbD_ushiftRight]
    rcases Nat.lt_or_ge i n with hi | hi
    · simp [hi]
    · rw [Nat.add_sub_cancel' hi]
      cases hbit : a.getLsbD i with
      | false => simp
      | true => simp [hi, hi.not_gt, BitVec.lt_of_getLsbD hbit]

/-! ## Operators -/

theorem shiftLeft_apply (op : Connective) (a b : BitVec w) (n : ℕ) :
    (op.apply a b : BitVec w) <<< n = op.apply (a <<< n) (b <<< n) := by
  cases op with
  | or => exact BitVec.shiftLeft_or_distrib a b n
  | and => exact BitVec.shiftLeft_and_distrib a b n
  | xor => exact BitVec.shiftLeft_xor_distrib a b n

theorem ushiftRight_apply (op : Connective) (a b : BitVec w) (n : ℕ) :
    (op.apply a b : BitVec w) >>> n = op.apply (a >>> n) (b >>> n) := by
  cases op with
  | or => exact BitVec.ushiftRight_or_distrib a b n
  | and => exact BitVec.ushiftRight_and_distrib a b n
  | xor => exact BitVec.ushiftRight_xor_distrib a b n

namespace WordSet

variable {W : Width}

theorem word_apply (op : Connective) (s t : WordSet W) :
    (op.apply s t : WordSet W).word = op.apply s.word t.word :=
  word_combine op s (.set t)

/-! ## Sets -/

/-- The laws of the shifts in one direction, with those back, that know nothing of positions. -/
structure ShiftLaws (shift back : WordSet W → ℕ → WordSet W) (s t : WordSet W) : Prop where
  twice : ∀ a b, shift (shift s a) b = shift s (a + b)
  cleared : ∀ n, W.bits ≤ n → shift s n = empty ∧ back (shift s n) n = empty
  apply : ∀ (op : Connective) n, shift (op.apply s t) n = op.apply (shift s n) (shift t n)

/-- A shift of sets has the laws that the shift of their words has. -/
theorem shiftLaws_of_word {shift back : WordSet W → ℕ → WordSet W} {f g : Word W → ℕ → Word W}
    (hshift : ∀ s n, (shift s n).word = f s.word n) (hback : ∀ s n, (back s n).word = g s.word n)
    (htwice : ∀ a m n, f (f a m) n = f a (m + n)) (hclear : ∀ a n, W.bits ≤ n → f a n = 0)
    (hzero : ∀ n, g 0 n = 0)
    (happly : ∀ (op : Connective) a b n, f (op.apply a b) n = op.apply (f a n) (f b n))
    (s t : WordSet W) : ShiftLaws shift back s t := by
  constructor
  case twice =>
    intro a b
    apply eq_of_word_eq
    rw [hshift, hshift, hshift, htwice]
  case cleared =>
    intro n hn
    constructor
    · apply eq_of_word_eq
      rw [hshift, hclear _ n hn, word_empty]
    · apply eq_of_word_eq
      rw [hback, hshift, hclear _ n hn, hzero, word_empty]
  case apply =>
    intro op n
    apply eq_of_word_eq
    rw [hshift, word_apply, word_apply, hshift, hshift, happly]

theorem shiftUp_laws (s t : WordSet W) : ShiftLaws shiftUp shiftDown s t := by
  refine shiftLaws_of_word word_shiftUp word_shiftDown (fun a m n => ?_) (fun _ _ => ?_)
    (fun _ => BitVec.zero_ushiftRight) (fun op a b n => shiftLeft_apply op a b n) s t
  · exact (BitVec.shiftLeft_add a m n).symm
  · exact BitVec.shiftLeft_eq_zero

theorem shiftDown_laws (s t : WordSet W) : ShiftLaws shiftDown shiftUp s t := by
  refine shiftLaws_of_word word_shiftDown word_shiftUp (fun a m n => ?_) (fun _ _ => ?_)
    BitVec.zero_shiftLeft (fun op a b n => ushiftRight_apply op a b n) s t
  · exact (BitVec.shiftRight_add a m n).symm
  · exact BitVec.ushiftRight_eq_zero

/-- What a set is as a number after a shift. -/
structure ShiftedNumber (s : WordSet W) : Prop where
  up : ∀ n, (s.shiftUp n).word.toNat = s.word.toNat * 2 ^ n % 2 ^ W.bits
  down : ∀ n, (s.shiftDown n).word.toNat = s.word.toNat / 2 ^ n

theorem shifted_number (s : WordSet W) : ShiftedNumber s where
  up n := by rw [word_shiftUp, BitVec.toNat_shiftLeft, Nat.shiftLeft_eq]
  down n := by rw [word_shiftDown, BitVec.toNat_ushiftRight, Nat.shiftRight_eq_div_pow]

/-! ## Members -/

/-- The members that a set lists, as numbers. -/
def Lists (e : Engine) (s : WordSet W) (zs : List ℤ) : Prop :=
  ∃ ps, s.members.toList e = .ok ps ∧ ps.map Position.val = zs

/-- What a set that lists these members lists after shifts. -/
structure ShiftedMembers (e : Engine) (s : WordSet W) (zs : List ℤ) : Prop where
  up : ∀ n : ℕ, Lists e (s.shiftUp n) ((zs.map (· + (n : ℤ))).filter (· < W.bits))
  down : ∀ n : ℕ, Lists e (s.shiftDown n) ((zs.map (· - (n : ℤ))).filter (0 ≤ ·))
  upDown : ∀ n : ℕ, Lists e ((s.shiftUp n).shiftDown n) (zs.filter (· < W.bits - (n : ℤ)))
  downUp : ∀ n : ℕ, Lists e ((s.shiftDown n).shiftUp n) (zs.filter ((n : ℤ) ≤ ·))

/-- A set lists the set bits of its word. -/
theorem lists_setBits (s : WordSet W) : Lists .direct s ((setBits s.word).map fun i : ℕ => (i : ℤ)) :=
  ⟨_, Members.toList_eq s.members, map_val_memberList s.word⟩

theorem map_filter_eq {α β : Type} {f : α → β} {p : α → Bool} {q : β → Bool} {l : List α}
    (h : ∀ a ∈ l, p a = q (f a)) : (l.filter p).map f = (l.map f).filter q := by
  rw [List.filter_map]
  exact congrArg (List.map f) (List.filter_congr h)

theorem shifted_members (s : WordSet W) :
    ShiftedMembers .direct s ((setBits s.word).map fun i : ℕ => (i : ℤ)) := by
  constructor
  case up =>
    intro n
    have h := lists_setBits (s.shiftUp n)
    rw [word_shiftUp, setBits_shiftLeft,
      map_filter_eq (q := fun z : ℤ => decide (z < W.bits)) fun i _ => by simp] at h
    rw [List.map_map] at h ⊢
    exact h
  case down =>
    intro n
    have h := lists_setBits (s.shiftDown n)
    rw [word_shiftDown, setBits_ushiftRight, List.map_map] at h
    have hcast : ((setBits s.word).filter (n ≤ ·)).map ((fun i : ℕ => (i : ℤ)) ∘ (· - n)) =
        ((setBits s.word).filter (n ≤ ·)).map fun i : ℕ => (i : ℤ) - n := by
      refine List.map_congr_left fun i hi => ?_
      exact Nat.cast_sub (of_decide_eq_true (List.mem_filter.1 hi).2)
    rw [hcast, map_filter_eq (q := fun z : ℤ => decide (0 ≤ z)) fun i _ => by simp] at h
    rw [List.map_map]
    exact h
  case upDown =>
    intro n
    have h := lists_setBits ((s.shiftUp n).shiftDown n)
    rw [word_shiftDown, word_shiftUp, setBits_shiftLeft_ushiftRight,
      map_filter_eq (q := fun z : ℤ => decide (z < W.bits - (n : ℤ)))] at h
    · exact h
    · intro i _
      rw [decide_eq_decide]
      omega
  case downUp =>
    intro n
    have h := lists_setBits ((s.shiftDown n).shiftUp n)
    rw [word_shiftUp, word_shiftDown, setBits_ushiftRight_shiftLeft,
      map_filter_eq (q := fun z : ℤ => decide ((n : ℤ) ≤ z)) fun i _ => by simp] at h
    exact h

/-- In every build, and for every amount, shifts compose, distribute over the operators, multiply or
divide the number of a set, and move its members. -/
theorem shifts_move_members (portable : Bool) (s t : WordSet W) :
    ShiftLaws shiftUp shiftDown s t ∧ ShiftLaws shiftDown shiftUp s t ∧ ShiftedNumber s ∧
      ∃ zs, Lists (.select portable) s zs ∧ ShiftedMembers (.select portable) s zs := by
  rw [Engine.select_eq_direct]
  exact ⟨shiftUp_laws s t, shiftDown_laws s t, shifted_number s, _, lists_setBits s, shifted_members s⟩

end WordSet

end Wordwise
