/-
Scans and the order of words. The places where a scan of a union can stop are those of its two parts,
so an upward scan of a union stops at the nearer of the two stops of its parts, which is their
minimum, and a downward scan at their maximum; the sentinels take part as the highest and the lowest
place. More members can only bring a stop nearer, and a start that lies further on never leads to a
stop that lies further back.
-/
import Wordwise.Proofs.Engine.Agreement
import Wordwise.Proofs.Scan

namespace Wordwise.Position

variable {W : Width}

/-! ## The order of values -/

theorem val_min (p q : Position) : (min p q).val = min p.val q.val := by
  rcases le_total p q with h | h
  · rw [min_eq_left h, min_eq_left (le_def.1 h)]
  · rw [min_eq_right h, min_eq_right (le_def.1 h)]

theorem val_max (p q : Position) : (max p q).val = max p.val q.val := by
  rcases le_total p q with h | h
  · rw [max_eq_right h, max_eq_right (le_def.1 h)]
  · rw [max_eq_left h, max_eq_left (le_def.1 h)]

/-! ## Stops of unions -/

theorem exists_bit_or {a b : Word W} {q : Int} :
    (∃ i : Nat, (a ||| b).getLsbD i = true ∧ q = i) ↔
      (∃ i : Nat, a.getLsbD i = true ∧ q = i) ∨ ∃ i : Nat, b.getLsbD i = true ∧ q = i := by
  simp only [BitVec.getLsbD_or, Bool.or_eq_true, or_and_right, exists_or]

theorem stopsAbove_or (a b : Word W) (p : Int) :
    stopsAbove (a ||| b) p = stopsAbove a p ∪ stopsAbove b p := by
  ext q
  simp only [stopsAbove, Set.mem_union, Set.mem_ofPred_eq, exists_bit_or]
  rw [or_or_distrib_left, and_or_left]

theorem stopsBelow_or (a b : Word W) (p : Int) :
    stopsBelow (a ||| b) p = stopsBelow a p ∪ stopsBelow b p := by
  ext q
  simp only [stopsBelow, Set.mem_union, Set.mem_ofPred_eq, exists_bit_or]
  rw [or_or_distrib_left, and_or_left]

/-! ## Stops of later starts -/

theorem stopsAbove_antitone (a : Word W) {p p' : Int} (h : p ≤ p') :
    stopsAbove a p' ⊆ stopsAbove a p :=
  fun _ hq => ⟨Int.lt_of_le_of_lt h hq.1, hq.2⟩

theorem stopsBelow_monotone (a : Word W) {p p' : Int} (h : p ≤ p') :
    stopsBelow a p ⊆ stopsBelow a p' :=
  fun _ hq => ⟨Int.lt_of_lt_of_le hq.1 h, hq.2⟩

/-! ## Scans -/

/-- What the scans of two operands say about the scans of an operand that stands for their union. -/
structure UnionScans (e : Engine) (o₁ o₂ o : Operand W) : Prop where
  next_min : ∀ p : Position, -1 ≤ p.val → p.val < W.bits → ∃ q₁ q₂,
    p.next e o₁ = .ok q₁ ∧ p.next e o₂ = .ok q₂ ∧ p.next e o = .ok (min q₁ q₂)
  prev_max : ∀ p : Position, 0 < p.val → p.val ≤ W.bits → ∃ q₁ q₂,
    p.prev e o₁ = .ok q₁ ∧ p.prev e o₂ = .ok q₂ ∧ p.prev e o = .ok (max q₁ q₂)
  next_more : ∀ p q₁ q : Position, p.next e o₁ = .ok q₁ → p.next e o = .ok q → q ≤ q₁
  prev_more : ∀ p q₁ q : Position, p.prev e o₁ = .ok q₁ → p.prev e o = .ok q → q₁ ≤ q

/-- The scans of an operand keep the order of their starts. -/
structure ScansAscend (e : Engine) (o : Operand W) : Prop where
  next : ∀ p p' : Position, -1 ≤ p.val → p ≤ p' → p'.val < W.bits → ∃ q q',
    p.next e o = .ok q ∧ p'.next e o = .ok q' ∧ q ≤ q'
  prev : ∀ p p' : Position, 0 < p.val → p ≤ p' → p'.val ≤ W.bits → ∃ q q',
    p.prev e o = .ok q ∧ p'.prev e o = .ok q' ∧ q ≤ q'

theorem next_or {a b : Word W} {o₁ o₂ o : Operand W} (h₁ : o₁.Denotes a) (h₂ : o₂.Denotes b)
    (h : o.Denotes (a ||| b)) {p q₁ q₂ : Position} (hq₁ : p.next .direct o₁ = .ok q₁)
    (hq₂ : p.next .direct o₂ = .ok q₂) : p.next .direct o = .ok (min q₁ q₂) := by
  obtain ⟨hp, hleast₁⟩ := (next_eq_ok_iff h₁).1 hq₁
  obtain ⟨-, hleast₂⟩ := (next_eq_ok_iff h₂).1 hq₂
  rw [next_eq_ok_iff h, stopsAbove_or, val_min]
  exact ⟨hp, hleast₁.union hleast₂⟩

theorem prev_or {a b : Word W} {o₁ o₂ o : Operand W} (h₁ : o₁.Denotes a) (h₂ : o₂.Denotes b)
    (h : o.Denotes (a ||| b)) {p q₁ q₂ : Position} (hq₁ : p.prev .direct o₁ = .ok q₁)
    (hq₂ : p.prev .direct o₂ = .ok q₂) : p.prev .direct o = .ok (max q₁ q₂) := by
  obtain ⟨hp, hgreatest₁⟩ := (prev_eq_ok_iff h₁).1 hq₁
  obtain ⟨-, hgreatest₂⟩ := (prev_eq_ok_iff h₂).1 hq₂
  rw [prev_eq_ok_iff h, stopsBelow_or, val_max]
  exact ⟨hp, hgreatest₁.union hgreatest₂⟩

theorem scans_ascend {a : Word W} {o : Operand W} (h : o.Denotes a) : ScansAscend .direct o := by
  constructor
  case next =>
    intro p p' h0 hle hN
    have hval := le_def.1 hle
    obtain ⟨q, hq, hleast⟩ := next_spec h h0 (by omega)
    obtain ⟨q', hq', hleast'⟩ := next_spec h (by omega) hN
    exact ⟨q, q', hq, hq', hleast'.mono hleast (stopsAbove_antitone a hval)⟩
  case prev =>
    intro p p' h0 hle hN
    have hval := le_def.1 hle
    obtain ⟨q, hq, hgreatest⟩ := prev_spec h h0 (by omega)
    obtain ⟨q', hq', hgreatest'⟩ := prev_spec h (by omega) hN
    exact ⟨q, q', hq, hq', hgreatest.mono hgreatest' (stopsBelow_monotone a hval)⟩

/-- In every build, scans turn unions into minima and maxima, and they keep the order of their
starts. -/
theorem scans_follow_order (portable : Bool) {a b : Word W} {o₁ o₂ o : Operand W}
    (h₁ : o₁.Denotes a) (h₂ : o₂.Denotes b) (h : o.Denotes (a ||| b)) :
    UnionScans (.select portable) o₁ o₂ o ∧ ScansAscend (.select portable) o₁ := by
  rw [Engine.select_eq_direct]
  refine ⟨?_, scans_ascend h₁⟩
  constructor
  case next_min =>
    intro p h0 hN
    obtain ⟨q₁, hq₁, -⟩ := next_spec h₁ h0 hN
    obtain ⟨q₂, hq₂, -⟩ := next_spec h₂ h0 hN
    exact ⟨q₁, q₂, hq₁, hq₂, next_or h₁ h₂ h hq₁ hq₂⟩
  case prev_max =>
    intro p h0 hN
    obtain ⟨q₁, hq₁, -⟩ := prev_spec h₁ h0 hN
    obtain ⟨q₂, hq₂, -⟩ := prev_spec h₂ h0 hN
    exact ⟨q₁, q₂, hq₁, hq₂, prev_or h₁ h₂ h hq₁ hq₂⟩
  case next_more =>
    intro p q₁ q hq₁ hq
    obtain ⟨hp, -⟩ := (next_eq_ok_iff h₁).1 hq₁
    obtain ⟨q₂, hq₂, -⟩ := next_spec h₂ hp.1 hp.2
    rw [next_or h₁ h₂ h hq₁ hq₂] at hq
    cases hq
    exact min_le_left q₁ q₂
  case prev_more =>
    intro p q₁ q hq₁ hq
    obtain ⟨hp, -⟩ := (prev_eq_ok_iff h₁).1 hq₁
    obtain ⟨q₂, hq₂, -⟩ := prev_spec h₂ hp.1 hp.2
    rw [prev_or h₁ h₂ h hq₁ hq₂] at hq
    cases hq
    exact le_max_left q₁ q₂

/-- A set joined with a bit, in the three forms of an operand. -/
theorem scans_follow_order_ends :
    ((Operand.form (.mask ⟨0x80#8⟩) : Operand .w8).Denotes 0x80#8 ∧
      (Operand.position first : Operand .w8).Denotes (BitVec.twoPow 8 0) ∧
      (Operand.form (.set (.ofWord 0x81#8)) : Operand .w8).Denotes (0x80#8 ||| BitVec.twoPow 8 0)) ∧
    UnionScans (.select true) (.form (.mask ⟨0x80#8⟩) : Operand .w8) (.position first)
      (.form (.set (.ofWord 0x81#8))) ∧
    ScansAscend (.select true) (.form (.mask ⟨0x80#8⟩) : Operand .w8) :=
  ⟨⟨.mask _, .position first 0 rfl (by decide), .set _⟩,
    scans_follow_order true (.mask _) (.position first 0 rfl (by decide)) (.set _)⟩

end Wordwise.Position
