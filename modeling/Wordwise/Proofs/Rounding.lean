/-
Scans there and back. From where an upward scan stops, a downward scan comes back to the greatest
stop up to the start, since no bit lies between; a downward scan followed by an upward one comes to
the least stop from the start on. So the two directions round to the stops of a word, they undo each
other on the stops themselves, and rounding twice is rounding once. The one way that is closed leads
down from bit zero, where no downward scan may start.
-/
import Wordwise.Proofs.Engine.Agreement
import Wordwise.Proofs.Scan

namespace Wordwise.Position

variable {W : Width}

/-! ## No stop between -/

/-- Between a place and the least stop above it there is no stop, so that the same stops are below
both. -/
theorem stopsBelow_eq_of_isLeast {a : Word W} {p q : Int} (hp : -1 ≤ p)
    (h : IsLeast (stopsAbove a p) q) : stopsBelow a q = stopsBelow a (p + 1) := by
  obtain ⟨⟨hpq, -⟩, hleast⟩ := h
  ext x
  constructor
  · rintro ⟨hx, hstop⟩
    refine ⟨?_, hstop⟩
    by_contra hlt
    rcases hstop with rfl | ⟨i, hi, rfl⟩
    · omega
    · have : q ≤ i := hleast ⟨by omega, .inr ⟨i, hi, rfl⟩⟩
      omega
  · rintro ⟨hx, hstop⟩
    exact ⟨by omega, hstop⟩

/-- Between a place and the greatest stop below it there is no stop, so that the same stops are above
both. -/
theorem stopsAbove_eq_of_isGreatest {a : Word W} {p q : Int} (hp : p ≤ W.bits)
    (h : IsGreatest (stopsBelow a p) q) : stopsAbove a q = stopsAbove a (p - 1) := by
  obtain ⟨⟨hqp, -⟩, hgreatest⟩ := h
  ext x
  constructor
  · rintro ⟨hx, hstop⟩
    refine ⟨?_, hstop⟩
    by_contra hlt
    rcases hstop with rfl | ⟨i, hi, rfl⟩
    · omega
    · have : (i : Int) ≤ q := hgreatest ⟨by omega, .inr ⟨i, hi, rfl⟩⟩
      omega
  · rintro ⟨hx, hstop⟩
    exact ⟨by omega, hstop⟩

/-! ## Rounding -/

/-- A set bit, or the place next to the first bit or to the last one. -/
def IsStop (m : Word W) (p : Position) : Prop := p ∈ memberList m ∨ p = before ∨ p = past W

theorem IsStop.le {m : Word W} {p : Position} (hp : IsStop m p) : -1 ≤ p.val ∧ p.val ≤ W.bits := by
  rcases hp with hbit | rfl | rfl
  · obtain ⟨i, hi, hval⟩ := mem_memberList.1 hbit
    have := BitVec.lt_of_getLsbD hi
    omega
  · simp
  · simp

/-- The last set bit up to a position, or the place before the first bit when there is none. -/
structure Floor (m : Word W) (p q : Position) : Prop where
  found : (∃ x ∈ memberList m, x ≤ p) → IsGreatest {x | x ∈ memberList m ∧ x ≤ p} q
  none : (∀ x ∈ memberList m, p < x) → q = before

/-- The first set bit from a position on, or the place past the last bit when there is none. -/
structure Ceiling (m : Word W) (p q : Position) : Prop where
  found : (∃ x ∈ memberList m, p ≤ x) → IsLeast {x | x ∈ memberList m ∧ p ≤ x} q
  none : (∀ x ∈ memberList m, x < p) → q = past W

theorem isStop_of_mem_stopsAbove {m : Word W} {p : Int} {q : Position} (h : q.val ∈ stopsAbove m p) :
    IsStop m q := by
  obtain ⟨-, hpast | hbit⟩ := h
  · exact .inr (.inr (Position.ext hpast))
  · exact .inl (mem_memberList.2 hbit)

/-- The greatest stop below the next place is the floor. -/
theorem floor_of_isGreatest {m : Word W} {p q : Position}
    (h : IsGreatest (stopsBelow m (p.val + 1)) q.val) : Floor m p q := by
  obtain ⟨⟨hqp, hstop⟩, hgreatest⟩ := h
  have hle : ∀ x ∈ memberList m, x ≤ p → x ≤ q := by
    intro x hx hxp
    have hxp' : x.val ≤ p.val := hxp
    exact hgreatest ⟨by omega, .inr (mem_memberList.1 hx)⟩
  have hqp' : q ≤ p := Int.lt_add_one_iff.1 hqp
  constructor
  case found =>
    rintro ⟨x, hx, hxp⟩
    refine ⟨⟨?_, hqp'⟩, fun y hy => hle y hy.1 hy.2⟩
    -- the place before the first bit lies below every bit
    rcases hstop with hbefore | hbit
    · obtain ⟨i, -, hval⟩ := mem_memberList.1 hx
      have : x.val ≤ q.val := hle x hx hxp
      omega
    · exact mem_memberList.2 hbit
  case none =>
    intro hnone
    rcases hstop with hbefore | hbit
    · exact Position.ext hbefore
    · exact absurd (hnone q (mem_memberList.2 hbit)) (not_lt_of_ge hqp')

/-- The least stop above the previous place is the ceiling. -/
theorem ceiling_of_isLeast {m : Word W} {p q : Position}
    (h : IsLeast (stopsAbove m (p.val - 1)) q.val) : Ceiling m p q := by
  obtain ⟨⟨hpq, hstop⟩, hleast⟩ := h
  have hle : ∀ x ∈ memberList m, p ≤ x → q ≤ x := by
    intro x hx hpx
    have hpx' : p.val ≤ x.val := hpx
    exact hleast ⟨by omega, .inr (mem_memberList.1 hx)⟩
  have hpq' : p ≤ q := Int.sub_one_lt_iff.1 hpq
  constructor
  case found =>
    rintro ⟨x, hx, hpx⟩
    refine ⟨⟨?_, hpq'⟩, fun y hy => hle y hy.1 hy.2⟩
    -- the place past the last bit lies above every bit
    rcases hstop with hpast | hbit
    · obtain ⟨i, hi, hval⟩ := mem_memberList.1 hx
      have := BitVec.lt_of_getLsbD hi
      have : q.val ≤ x.val := hle x hx hpx
      omega
    · exact mem_memberList.2 hbit
  case none =>
    intro hnone
    rcases hstop with hpast | hbit
    · exact Position.ext hpast
    · exact absurd (hnone q (mem_memberList.2 hbit)) (not_lt_of_ge hpq')

/-! ## Scans there and back -/

/-- A scan up and then one down. -/
def nextPrev (e : Engine) (o : Operand W) (p : Position) : Except (Refusal Position) Position := do
  (← p.next e o).prev e o

/-- A scan down and then one up. -/
def prevNext (e : Engine) (o : Operand W) (p : Position) : Except (Refusal Position) Position := do
  (← p.prev e o).next e o

section
variable {o : Operand W} {m : Word W} {p q r : Position}

/-- Up and down again leads to the greatest stop up to the start. -/
theorem prev_of_next (ho : o.Denotes m) (hq : p.next .direct o = .ok q) :
    q.prev .direct o = .ok r ↔ 0 < q.val ∧ IsGreatest (stopsBelow m (p.val + 1)) r.val := by
  obtain ⟨hp, hleast⟩ := (next_eq_ok_iff ho).1 hq
  have hqN := le_of_mem_stopsAbove hleast.1
  rw [prev_eq_ok_iff ho, stopsBelow_eq_of_isLeast hp.1 hleast]
  simp [hqN]

/-- Down and up again leads to the least stop from the start on. -/
theorem next_of_prev (ho : o.Denotes m) (hq : p.prev .direct o = .ok q) :
    q.next .direct o = .ok r ↔ IsLeast (stopsAbove m (p.val - 1)) r.val := by
  obtain ⟨hp, hgreatest⟩ := (prev_eq_ok_iff ho).1 hq
  have hq0 := le_of_mem_stopsBelow hgreatest.1
  have hqp := hgreatest.1.1
  rw [next_eq_ok_iff ho, stopsAbove_eq_of_isGreatest hp.2 hgreatest]
  simp [hq0, show q.val < W.bits by omega]

theorem isGreatest_self (hp : IsStop m p) (hne : p ≠ past W) :
    IsGreatest (stopsBelow m (p.val + 1)) p.val := by
  refine ⟨⟨by omega, ?_⟩, fun x hx => Int.lt_add_one_iff.1 hx.1⟩
  rcases hp with hbit | rfl | rfl
  · exact .inr (mem_memberList.1 hbit)
  · exact .inl rfl
  · exact absurd rfl hne

theorem isLeast_self (hp : IsStop m p) (hne : p ≠ before) :
    IsLeast (stopsAbove m (p.val - 1)) p.val := by
  refine ⟨⟨by omega, ?_⟩, fun x hx => Int.sub_one_lt_iff.1 hx.1⟩
  rcases hp with hbit | rfl | rfl
  · exact .inr (mem_memberList.1 hbit)
  · exact absurd rfl hne
  · exact .inl rfl

/-- A downward scan that may start leads back to the stop from which an upward scan came. -/
theorem prev_undoes_next (ho : o.Denotes m) (hp : IsStop m p) (hne : p ≠ past W) :
    ∃ q, p.next .direct o = .ok q ∧ (0 < q.val → q.prev .direct o = .ok p) := by
  have hN : p.val ≠ W.bits := fun h => hne (Position.ext h)
  have hle := hp.le
  obtain ⟨q, hq, -⟩ := next_spec ho hle.1 (by omega)
  exact ⟨q, hq, fun hq0 => (prev_of_next ho hq).2 ⟨hq0, isGreatest_self hp hne⟩⟩

theorem next_undoes_prev (ho : o.Denotes m) (hp : IsStop m p) (h0 : 0 < p.val) :
    ∃ q, p.prev .direct o = .ok q ∧ q.next .direct o = .ok p := by
  obtain ⟨q, hq, -⟩ := prev_spec ho h0 hp.le.2
  refine ⟨q, hq, (next_of_prev ho hq).2 (isLeast_self hp ?_)⟩
  rintro rfl
  cases h0

/-- The same stops are above the floor as above the start, so the upward scan stops where it did. -/
theorem nextPrev_again (ho : o.Denotes m) (h : nextPrev .direct o p = .ok r) :
    nextPrev .direct o r = .ok r := by
  obtain ⟨q, hq, hr⟩ := Checked.bind_eq_ok.1 h
  obtain ⟨-, hgreatest⟩ := (prev_of_next ho hq).1 hr
  obtain ⟨hp, hleast⟩ := (next_eq_ok_iff ho).1 hq
  have hrp := hgreatest.1.1
  have hsame := stopsAbove_eq_of_isGreatest (by omega) hgreatest
  rw [Int.add_sub_cancel] at hsame
  have hrq : r.next .direct o = .ok q := by
    rw [next_eq_ok_iff ho, hsame]
    exact ⟨⟨le_of_mem_stopsBelow hgreatest.1, by omega⟩, hleast⟩
  exact Checked.bind_eq_ok.2 ⟨q, hrq, hr⟩

/-- The ceiling is a stop, and an upward scan leads back to it. -/
theorem prevNext_again (ho : o.Denotes m) (h : prevNext .direct o p = .ok r) :
    prevNext .direct o r = .ok r := by
  obtain ⟨q, hq, hr⟩ := Checked.bind_eq_ok.1 h
  have hleast := (next_of_prev ho hq).1 hr
  have hp := ((prev_eq_ok_iff ho).1 hq).1
  have hpr := hleast.1.1
  exact Checked.bind_eq_ok.2 (next_undoes_prev ho (isStop_of_mem_stopsAbove hleast.1) (by omega))

end

/-- What scans there and back come to, from every start that permits the first of them. The second
one is refused only downwards from bit zero. -/
structure ScansRound (e : Engine) (o : Operand W) (m : Word W) : Prop where
  down : ∀ p : Position, -1 ≤ p.val → p.val < W.bits → ∃ q, p.next e o = .ok q ∧
    (0 < q.val → ∃ r, q.prev e o = .ok r ∧ Floor m p r)
  up : ∀ p : Position, 0 < p.val → p.val ≤ W.bits → ∃ q, p.prev e o = .ok q ∧
    ∃ r, q.next e o = .ok r ∧ Ceiling m p r
  prev_undoes : ∀ p : Position, IsStop m p → p ≠ past W → ∃ q, p.next e o = .ok q ∧
    (0 < q.val → q.prev e o = .ok p)
  next_undoes : ∀ p : Position, IsStop m p → 0 < p.val → ∃ q, p.prev e o = .ok q ∧
    q.next e o = .ok p
  down_again : ∀ p r : Position, nextPrev e o p = .ok r → nextPrev e o r = .ok r
  up_again : ∀ p r : Position, prevNext e o p = .ok r → prevNext e o r = .ok r

/-- In every build, scans there and back round to the stops of the word that the operand stands
for. -/
theorem scans_round (portable : Bool) {o : Operand W} {m : Word W} (ho : o.Denotes m) :
    ScansRound (.select portable) o m := by
  rw [Engine.select_eq_direct]
  constructor
  case down =>
    intro p h0 hN
    obtain ⟨q, hq, hleast⟩ := next_spec ho h0 hN
    refine ⟨q, hq, fun hq0 => ?_⟩
    obtain ⟨r, hr, -⟩ := prev_spec ho hq0 (le_of_mem_stopsAbove hleast.1)
    exact ⟨r, hr, floor_of_isGreatest ((prev_of_next ho hq).1 hr).2⟩
  case up =>
    intro p h0 hN
    obtain ⟨q, hq, hgreatest⟩ := prev_spec ho h0 hN
    have hqp : q.val < p.val := hgreatest.1.1
    obtain ⟨r, hr, -⟩ := next_spec ho (le_of_mem_stopsBelow hgreatest.1) (by omega)
    exact ⟨q, hq, r, hr, ceiling_of_isLeast ((next_of_prev ho hq).1 hr)⟩
  case prev_undoes => exact fun p hp hne => prev_undoes_next ho hp hne
  case next_undoes => exact fun p hp h0 => next_undoes_prev ho hp h0
  case down_again => exact fun p r h => nextPrev_again ho h
  case up_again => exact fun p r h => prevNext_again ho h

/-- A set with the first and the last of eight positions. -/
theorem scans_round_ends :
    (Operand.form (.set (.ofWord 0x81#8)) : Operand .w8).Denotes 0x81#8 ∧
      ScansRound (.select true) (.form (.set (.ofWord 0x81#8)) : Operand .w8) 0x81#8 :=
  ⟨.set _, scans_round true (.set _)⟩

end Wordwise.Position
