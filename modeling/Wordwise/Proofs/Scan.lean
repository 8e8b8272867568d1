/-
What the scans find. An upward scan stops at the least, a downward scan at the greatest of the
places where it may stop: the set bits on its side of the start, and the sentinel of its
direction. The sentinel is one of these places, so a scan from a permitted start with an operand
that can be read always succeeds.
-/
import Mathlib.Order.Bounds.Basic
import Mathlib.Order.Interval.Set.Defs
import Wordwise.Engine.Direct
import Wordwise.Proofs.Positions
import Wordwise.Scan

namespace Wordwise.Position

variable {W : Width}

/-! ## Where scans can stop -/

/-- The set bits above an integer, and the place past the last bit. -/
def stopsAbove (a : Word W) (p : Int) : Set Int :=
  {q | p < q ∧ (q = W.bits ∨ ∃ i : Nat, a.getLsbD i = true ∧ q = i)}

/-- The set bits below an integer, and the place before the first bit. -/
def stopsBelow (a : Word W) (p : Int) : Set Int :=
  {q | q < p ∧ (q = -1 ∨ ∃ i : Nat, a.getLsbD i = true ∧ q = i)}

theorem le_of_mem_stopsAbove {a : Word W} {p q : Int} (h : q ∈ stopsAbove a p) : q ≤ W.bits := by
  obtain ⟨-, rfl | ⟨i, hi, rfl⟩⟩ := h
  · exact Int.le_refl _
  · have := BitVec.lt_of_getLsbD hi
    omega

theorem le_of_mem_stopsBelow {a : Word W} {p q : Int} (h : q ∈ stopsBelow a p) : -1 ≤ q := by
  obtain ⟨-, rfl | ⟨i, -, rfl⟩⟩ := h
  · exact Int.le_refl _
  · omega

/-! ## Upwards -/

/-- The lowest set bit that is left after a shift lies as far above the position as the shifted
word has trailing zeros. -/
theorem seekUp_spec {a : Word W} {p : Position} (h0 : 0 ≤ p.val) (hN : p.val < W.bits) :
    ∃ q, p.seekUp .direct a = .ok q ∧ IsLeast (stopsAbove a (p.val - 1)) q.val := by
  obtain ⟨n, hn⟩ : ∃ n : Nat, p.val = n := ⟨p.val.toNat, by omega⟩
  have hN' := W.bits_le
  have hshift : shiftDown a (shiftAmount p.val) = a >>> n := by
    rw [hn, shiftAmount_eq (by omega), shiftDown_eq, Int.toNat_natCast]
  -- a set bit from `n` upwards survives the shift
  have hsurvives : ∀ i, n ≤ i → a.getLsbD i = true → (a >>> n).getLsbD (i - n) = true := by
    intro i hni hi
    rw [BitVec.getLsbD_ushiftRight, Nat.add_sub_cancel' hni]
    exact hi
  unfold seekUp
  rw [hshift, hn]
  by_cases hz : a >>> n = 0
  · rw [if_pos hz]
    refine ⟨past W, rfl, ⟨by show _ < _; rw [past_val]; omega, .inl rfl⟩, ?_⟩
    rintro q ⟨hq, rfl | ⟨i, hi, rfl⟩⟩
    · exact Int.le_refl _
    · have hbit := hsurvives i (by omega) hi
      rw [hz] at hbit
      simp at hbit
  · have hbit : a.getLsbD (n + (a >>> n).ctz.toNat) = true := by
      rw [← BitVec.getLsbD_ushiftRight]
      exact BitVec.getLsbD_true_ctz_of_ne_zero hz
    have hlt := BitVec.lt_of_getLsbD hbit
    rw [if_neg hz]
    refine ⟨⟨n + (a >>> n).ctz.toNat, by omega, by omega⟩, ?_, ⟨?_, .inr ⟨_, hbit, ?_⟩⟩, ?_⟩
    · show p.add ((a >>> n).ctz.toNat : Nat) = _
      unfold Position.add
      rw [hn]
      exact hold_eq (by omega)
    · show (n : Int) - 1 < n + (a >>> n).ctz.toNat
      omega
    · exact (Int.natCast_add _ _).symm
    · rintro q ⟨hq, rfl | ⟨i, hi, rfl⟩⟩
      · show (n : Int) + _ ≤ _
        omega
      · show (n : Int) + _ ≤ _
        have hle := ctz_le_of_getLsbD (hsurvives i (by omega) hi)
        omega

/-- An upward scan from a permitted start finds the least place where it can stop. -/
theorem next_spec {o : Operand W} {a : Word W} (ho : o.Denotes a) {p : Position} (h0 : -1 ≤ p.val)
    (hN : p.val < W.bits) :
    ∃ q, p.next .direct o = .ok q ∧ IsLeast (stopsAbove a p.val) q.val := by
  have hbits := W.bits_le
  have hstep : p.add 1 = .ok ⟨p.val + 1, by omega, by omega⟩ := hold_eq (by omega)
  unfold next
  rw [if_pos (show before ≤ p ∧ p < past W from ⟨h0, hN⟩), hstep, leaving_ok, Checked.ok_bind]
  by_cases hlast : p.val + 1 = W.bits
  · rw [if_pos (Position.ext hlast)]
    refine ⟨_, rfl, ⟨by show _ < p.val + 1; omega, .inl hlast⟩, ?_⟩
    rintro q ⟨hq, -⟩
    exact hq
  · rw [if_neg fun h => hlast (congrArg val h), Operand.read_eq_ok_iff.2 ho]
    obtain ⟨q, hq, hleast⟩ := seekUp_spec (a := a) (p := ⟨p.val + 1, by omega, by omega⟩)
      (by show 0 ≤ p.val + 1; omega) (by show p.val + 1 < _; omega)
    rw [show p.val + 1 - 1 = p.val by omega] at hleast
    exact ⟨q, leaving_eq_ok_iff.2 hq, hleast⟩

theorem next_error {o : Operand W} {e : Engine} {p : Position} (hp : ¬ (-1 ≤ p.val ∧ p.val < W.bits)) :
    p.next e o = .error ⟨.upwardScan p.val W, p⟩ :=
  if_neg hp

/-- An upward scan succeeds from the permitted starts only, and with the least stop only. -/
theorem next_eq_ok_iff {o : Operand W} {a : Word W} (ho : o.Denotes a) {p q : Position} :
    p.next .direct o = .ok q ↔
      (-1 ≤ p.val ∧ p.val < W.bits) ∧ IsLeast (stopsAbove a p.val) q.val := by
  by_cases hp : -1 ≤ p.val ∧ p.val < W.bits
  · obtain ⟨r, hr, hleast⟩ := next_spec ho hp.1 hp.2
    rw [hr]
    constructor
    · rintro ⟨⟩
      exact ⟨hp, hleast⟩
    · rintro ⟨-, hq⟩
      rw [Position.ext (hleast.unique hq)]
  · simp [next_error hp, hp]

/-- From the last bit an upward scan goes past it, whatever its operand. -/
theorem next_last {o : Operand W} {e : Engine} {p : Position} (hp : p.val = W.bits - 1) :
    p.next e o = .ok (past W) := by
  have hpos := W.bits_pos
  have hbits := W.bits_le
  have hstart : before ≤ p ∧ p < past W := by
    rw [le_def, lt_def, before_val, past_val]
    omega
  have hstep : p.add 1 = .ok (past W) := by
    unfold Position.add
    rw [hold_eq (by omega)]
    refine congrArg Except.ok (Position.ext ?_)
    show p.val + 1 = W.bits
    omega
  unfold next
  rw [if_pos hstart, hstep, leaving_ok, Checked.ok_bind, if_pos rfl]
  rfl

/-- From any other permitted start an upward scan reads its operand, which can be refused. The scan
has gone one up before. -/
theorem next_unread {o : Operand W} {e : Engine} {p : Position} {f : Fault} (h0 : -1 ≤ p.val)
    (hN : p.val ≤ W.bits - 2) (ho : o.read = .error f) :
    ∃ q, p.next e o = .error ⟨f, q⟩ ∧ q.val = p.val + 1 := by
  have hbits := W.bits_le
  have hstart : before ≤ p ∧ p < past W := by
    rw [le_def, lt_def, before_val, past_val]
    omega
  obtain ⟨q, hstep, hval⟩ := hold_spec (c := .addOverflow) (i := p.val + 1) (by omega)
  have hne : q ≠ past W := by
    rintro rfl
    rw [past_val] at hval
    omega
  refine ⟨q, ?_, hval⟩
  unfold next Position.add
  rw [if_pos hstart, hstep, leaving_ok, Checked.ok_bind, if_neg hne, ho, Checked.error_bind, leaving_error]

/-! ## Downwards -/

/-- The highest set bit that is left after the bits from the position upwards are shifted out lies
as far below the position as the shifted word has leading zeros, and one more. -/
theorem seekDown_spec {a : Word W} {p : Position} (h0 : 0 < p.val) (hN : p.val ≤ W.bits) :
    ∃ q, p.seekDown .direct a = .ok q ∧ IsGreatest (stopsBelow a p.val) q.val := by
  obtain ⟨n, hn⟩ : ∃ n : Nat, p.val = n := ⟨p.val.toNat, by omega⟩
  have hbits := W.bits_le
  have hgap : (past W).sub p.val = .ok ⟨W.bits - p.val, by omega, by omega⟩ := hold_eq (by rw [past_val]; omega)
  have hshift : shiftUp a (shiftAmount (W.bits - p.val)) = a <<< (W.bits - n) := by
    rw [hn, shiftAmount_eq (by omega), shiftUp_eq, Int.toNat_sub]
  -- bit `j` of the shifted word is bit `j - (N - n)` of the word
  have hbit : ∀ i < n, (a <<< (W.bits - n)).getLsbD (i + (W.bits - n)) = a.getLsbD i := by
    intro i hi
    rw [BitVec.getLsbD_shiftLeft, Nat.add_sub_cancel]
    simp [show i + (W.bits - n) < W.bits by omega]
  unfold seekDown
  rw [hgap, Checked.ok_bind, hshift, Engine.direct_leading, Checked.ok_bind]
  by_cases hz : a <<< (W.bits - n) = 0
  · rw [if_pos hz]
    refine ⟨before, rfl, ⟨by show _ < _; rw [before_val]; omega, .inl rfl⟩, ?_⟩
    rintro q ⟨hq, rfl | ⟨i, hi, rfl⟩⟩
    · exact Int.le_refl _
    · have := hbit i (by omega)
      rw [hz, hi] at this
      simp at this
  · have hlog := log2_lt hz
    have hclz := clz_eq hz
    have htop := getLsbD_log2 hz
    -- the shift has cleared the bits below `N - n`, so the highest one comes from below `n`
    have hge : W.bits - n ≤ (a <<< (W.bits - n)).toNat.log2 := by
      by_contra hlt
      rw [BitVec.getLsbD_shiftLeft] at htop
      simp only [Bool.and_eq_true, Bool.not_eq_true', decide_eq_true_eq, decide_eq_false_iff_not] at htop
      omega
    have hfound : a.getLsbD ((a <<< (W.bits - n)).toNat.log2 - (W.bits - n)) = true := by
      have := hbit ((a <<< (W.bits - n)).toNat.log2 - (W.bits - n)) (by omega)
      rw [Nat.sub_add_cancel hge, htop] at this
      exact this.symm
    generalize hl : (a <<< (W.bits - n)).toNat.log2 = l at *
    rw [if_neg hz, hclz, hold_eq (by omega)]
    refine ⟨⟨(l - (W.bits - n) : Nat), by omega, by omega⟩, ?_, ⟨?_, .inr ⟨_, hfound, rfl⟩⟩, ?_⟩
    · show p.sub (((W.bits - 1 - l : Nat) : Int) + 1) = _
      unfold Position.sub
      rw [hold_eq (by omega)]
      refine congrArg Except.ok (Position.ext ?_)
      show p.val - (((W.bits - 1 - l : Nat) : Int) + 1) = ((l - (W.bits - n) : Nat) : Int)
      omega
    · show ((l - (W.bits - n) : Nat) : Int) < p.val
      omega
    · rintro q ⟨hq, rfl | ⟨i, hi, rfl⟩⟩
      · show -1 ≤ ((l - (W.bits - n) : Nat) : Int)
        omega
      · have := le_log2_of_getLsbD ((hbit i (by omega)).trans hi)
        show (i : Int) ≤ ((l - (W.bits - n) : Nat) : Int)
        omega

/-- A downward scan from a permitted start finds the greatest place where it can stop. -/
theorem prev_spec {o : Operand W} {a : Word W} (ho : o.Denotes a) {p : Position} (h0 : 0 < p.val)
    (hN : p.val ≤ W.bits) :
    ∃ q, p.prev .direct o = .ok q ∧ IsGreatest (stopsBelow a p.val) q.val := by
  unfold prev
  rw [if_pos (show p.canDescend ∧ p ≤ past W from ⟨decide_eq_true h0, hN⟩), Operand.read_eq_ok_iff.2 ho]
  obtain ⟨q, hq, hgreatest⟩ := seekDown_spec (a := a) h0 hN
  exact ⟨q, leaving_eq_ok_iff.2 hq, hgreatest⟩

theorem canDescend_iff {p : Position} : p.canDescend = true ↔ 0 < p.val := decide_eq_true_iff

theorem prev_error {o : Operand W} {e : Engine} {p : Position} (hp : ¬ (0 < p.val ∧ p.val ≤ W.bits)) :
    p.prev e o = .error ⟨.downwardScan p.val W, p⟩ :=
  if_neg fun h => hp ⟨canDescend_iff.1 h.1, h.2⟩

/-- A downward scan succeeds from the permitted starts only, and with the greatest stop only. -/
theorem prev_eq_ok_iff {o : Operand W} {a : Word W} (ho : o.Denotes a) {p q : Position} :
    p.prev .direct o = .ok q ↔
      (0 < p.val ∧ p.val ≤ W.bits) ∧ IsGreatest (stopsBelow a p.val) q.val := by
  by_cases hp : 0 < p.val ∧ p.val ≤ W.bits
  · obtain ⟨r, hr, hgreatest⟩ := prev_spec ho hp.1 hp.2
    rw [hr]
    constructor
    · rintro ⟨⟩
      exact ⟨hp, hgreatest⟩
    · rintro ⟨-, hq⟩
      rw [Position.ext (hgreatest.unique hq)]
  · simp [prev_error hp, hp]

/-- A downward scan from a permitted start always reads its operand. -/
theorem prev_unread {o : Operand W} {e : Engine} {p : Position} {f : Fault} (h0 : 0 < p.val)
    (hN : p.val ≤ W.bits) (ho : o.read = .error f) : p.prev e o = .error ⟨f, p⟩ := by
  unfold prev
  rw [if_pos ⟨canDescend_iff.2 h0, hN⟩, ho, Checked.error_bind, leaving_error]

end Wordwise.Position
