/-
The digits of a set. Each place of the text answers whether its position is a member, the highest
position first, and no set is refused. Written one by one as they come, the digits fill a sink as the
whole text does.
-/
import Wordwise.Proofs.Positions
import Wordwise.Text.Digits

namespace Wordwise

/-! ## Sinks -/

/-- Write a text up to the first character that is refused, and say whether all of it went in. -/
def Sink.write : Sink → List Char → Sink × Bool
  | out, [] => (out, true)
  | out, c :: cs =>
    match out.push? c with
    | none => (out, false)
    | some out' => out'.write cs

/-- A sink without a capacity takes all. -/
theorem Sink.write_unbounded : ∀ cs before : List Char,
    (⟨none, before⟩ : Sink).write cs = (⟨none, before ++ cs⟩, true)
  | [], before => by simp [write]
  | c :: cs, before => by
    rw [write, push?]
    simp [write_unbounded cs]

namespace WordSet

variable {W : Width}

/-! ## Digits -/

/-- A set meets the position of a bit exactly when that bit is set. -/
theorem meets_position (s : WordSet W) {p : Position} {i : Nat} (hp : p.val = i) (hi : i < W.bits) :
    s.meets (.position p) = .ok (s.word.getLsbD i) := by
  unfold meets
  rw [Operand.read_position, Position.toWord_eq hp hi, Checked.ok_bind, BitVec.and_twoPow]
  -- the bits that both have in common are the bit itself or none
  cases s.word.getLsbD i with
  | false => exact congrArg Except.ok (bne_self_eq_false _)
  | true => exact congrArg Except.ok (bne_iff_ne.2 (twoPow_ne_zero hi))

/-- The text that the digits of a set are. -/
def spelling (s : WordSet W) (zero one : Char) : List Char :=
  (List.range W.bits).reverse.map fun i => if s.word.getLsbD i then one else zero

theorem nextDigit_first (s : WordSet W) (zero one : Char) {p : Position} (hp : p.val = 0) :
    s.nextDigit zero one p = .ok none :=
  if_pos (Position.ext hp)

/-- Above the first bit there is always a digit, which tells whether the position is a member. -/
theorem nextDigit_succ (s : WordSet W) (zero one : Char) {k : Nat} (hk : k < W.bits) {p : Position}
    (hp : p.val = k + 1) : ∃ q : Position, q.val = k ∧
      s.nextDigit zero one p = .ok (some (if s.word.getLsbD k then one else zero, q)) := by
  obtain ⟨q, hpred, hval⟩ := Position.pred_spec (p := p) (by omega)
  have hq : q.val = k := by omega
  have hne : p ≠ .first := by
    rintro rfl
    rw [Position.first_val] at hp
    omega
  refine ⟨q, hq, ?_⟩
  unfold nextDigit
  rw [if_neg hne, hpred, Checked.ok_bind, meets_position s hq hk]
  rfl

/-! ## Texts -/

theorem writeFrom_none {s : WordSet W} {zero one : Char} {p : Position}
    (h : s.nextDigit zero one p = .ok none) (out : Sink) : s.writeFrom zero one out p = .ok (out, true) := by
  rw [writeFrom]
  split
  case h_1 hf => cases h.symm.trans hf
  case h_2 => rfl
  case h_3 hf => cases h.symm.trans hf

theorem writeFrom_some {s : WordSet W} {zero one c : Char} {p q : Position}
    (h : s.nextDigit zero one p = .ok (some (c, q))) (out : Sink) : s.writeFrom zero one out p =
      match out.push? c with
      | none => .ok (out, false)
      | some out' => s.writeFrom zero one out' q := by
  rw [writeFrom]
  split
  case h_1 hf => cases h.symm.trans hf
  case h_2 hf => cases h.symm.trans hf
  case h_3 hf =>
    cases h.symm.trans hf
    rfl

/-- The digits below position `k`, written one by one, are written as the text that they make. -/
theorem writeFrom_eq (s : WordSet W) (zero one : Char) : ∀ (k : Nat) (out : Sink) (p : Position),
    k ≤ W.bits → p.val = k → s.writeFrom zero one out p =
      .ok (out.write ((List.range k).reverse.map fun i => if s.word.getLsbD i then one else zero))
  | 0, out, p, _, hp => writeFrom_none (nextDigit_first s zero one hp) out
  | k + 1, out, p, hk, hp => by
    obtain ⟨q, hq, hdigit⟩ := nextDigit_succ s zero one hk hp
    rw [writeFrom_some hdigit, List.range_succ, List.reverse_append, List.map_append, List.reverse_singleton,
      List.map_singleton, List.singleton_append, Sink.write]
    -- the sink decides whether the next digit is looked for
    cases out.push? (if s.word.getLsbD k then one else zero) with
    | none => rfl
    | some out' => exact writeFrom_eq s zero one k out' q (Nat.le_of_succ_le hk) hq

theorem writeTo_eq (s : WordSet W) (out : Sink) (zero one : Char) :
    s.writeTo out zero one = .ok (out.write (s.spelling zero one)) :=
  writeFrom_eq s zero one W.bits out (.past W) (Nat.le_refl _) rfl

theorem digits_eq_spelling (s : WordSet W) (zero one : Char) :
    s.digits zero one = .ok (s.spelling zero one) := by
  unfold digits
  rw [writeTo_eq, Sink.unbounded, Sink.write_unbounded]
  rfl

/-- The digits of the upper positions stand before those of the lower ones. -/
theorem map_reverse_range_add {α : Type} (f : Nat → α) (k m : Nat) :
    (List.range (k + m)).reverse.map f =
      ((List.range m).reverse.map fun i => f (k + i)) ++ (List.range k).reverse.map f := by
  rw [List.range_add, List.reverse_append, List.map_append, ← List.map_reverse, List.map_map]
  rfl

end WordSet

end Wordwise
