/-
The positions that scripts come to. No single step leads out of the widest word and its two
sentinels, although a position has no width and every step brings its own; a script that scans and
jumps at one width stays within that width and its sentinels. A scan always moves, and stops at a set
bit of the word that it reads or at the sentinel of its direction, so only a bounded number of scans
in the same direction can follow one another, whatever words they read. All this holds of scripts
whose steps are tried on a copy, and of those that go on from what a refused step leaves.
-/
import Wordwise.Proofs.Refusals

namespace Wordwise.Position

variable {W : Width} {p q : Position}

/-! ## What a step leads to -/

/-- An outcome that is not refused has a permitted start and a place to which its step leads. -/
theorem leads_of_ok {i : Step} {out : Script.Outcome Position Reply} (h : step .direct p i = .ok out) :
    i.refusal? p.val = none ∧ i.Leads p.val out.state.val := by
  have hlawful := step_lawful p i
  rw [h] at hlawful
  exact ⟨hlawful.refused.symm, hlawful.leads out rfl⟩

/-- Where an upward scan stops, by the word that it reads. -/
def StopsUp (o : Operand W) (q : Position) : Prop :=
  q = past W ∨ ∃ (a : Word W) (i : Nat), o.read = .ok a ∧ a.getLsbD i = true ∧ q.val = i

/-- Where a downward scan stops, by the word that it reads. -/
def StopsDown (o : Operand W) (q : Position) : Prop :=
  q = before ∨ ∃ (a : Word W) (i : Nat), o.read = .ok a ∧ a.getLsbD i = true ∧ q.val = i

theorem StopsUp.le {o : Operand W} (h : StopsUp o q) : q.val ≤ W.bits := by
  rcases h with rfl | ⟨a, i, -, hi, hq⟩
  · exact Int.le_refl _
  · have := BitVec.lt_of_getLsbD hi
    omega

theorem StopsDown.le {o : Operand W} (h : StopsDown o q) : -1 ≤ q.val := by
  rcases h with rfl | ⟨a, i, -, -, hq⟩
  · exact Int.le_refl _
  · omega

theorem next_ok {o : Operand W} {out : Script.Outcome Position Reply}
    (h : step .direct p (.next W o) = .ok out) :
    (-1 ≤ p.val ∧ p.val < W.bits) ∧ p < out.state ∧ StopsUp o out.state := by
  obtain ⟨hnone, hleads⟩ := leads_of_ok h
  have hp : -1 ≤ p.val ∧ p.val < W.bits := permitted_of_none hnone
  refine ⟨hp, ?_⟩
  rw [Step.Leads] at hleads
  split at hleads
  case isTrue hlast =>
    rw [lt_def]
    exact ⟨by omega, .inl (Position.ext hleads)⟩
  case isFalse =>
    obtain ⟨a, ha, ⟨hlt, hstop⟩, -⟩ := hleads
    refine ⟨hlt, ?_⟩
    rcases hstop with hpast | ⟨i, hi, hval⟩
    · exact .inl (Position.ext hpast)
    · exact .inr ⟨a, i, Operand.read_eq_ok_iff.2 ha, hi, hval⟩

theorem prev_ok {o : Operand W} {out : Script.Outcome Position Reply}
    (h : step .direct p (.prev W o) = .ok out) :
    (0 < p.val ∧ p.val ≤ W.bits) ∧ out.state < p ∧ StopsDown o out.state := by
  obtain ⟨hnone, hleads⟩ := leads_of_ok h
  have hp : 0 < p.val ∧ p.val ≤ W.bits := permitted_of_none hnone
  obtain ⟨a, ha, ⟨hlt, hstop⟩, -⟩ := hleads
  refine ⟨hp, hlt, ?_⟩
  rcases hstop with hbefore | ⟨i, hi, hval⟩
  · exact .inl (Position.ext hbefore)
  · exact .inr ⟨a, i, Operand.read_eq_ok_iff.2 ha, hi, hval⟩

/-! ## Bounds that steps keep -/

/-- The position is that of a bit of a word of at most `n` bits, or next to one. -/
def Within (n : Nat) (p : Position) : Prop := -1 ≤ p.val ∧ p.val ≤ n

/-- From a position up to `n`, the step leads no higher than `n`. -/
def Step.StaysBelow (n : Nat) : Step → Prop
  | .succ => 128 ≤ n
  | .next V _ => V.bits ≤ n
  | .toPast V => V.bits ≤ n
  | .add _ => False
  | .sub _ => False
  | .goto _ => False
  | _ => True

/-- A single step up or down, a scan, or a jump to a sentinel or to the first bit, at any width. The
questions, which do not move, are counted in. -/
def Step.Travels : Step → Prop
  | .add _ => False
  | .sub _ => False
  | .goto _ => False
  | _ => True

/-- A scan at this width, or a jump to one of its sentinels or to the first bit. The questions are
counted in. -/
def Step.ScansAt (W : Width) : Step → Prop
  | .next V _ => V = W
  | .prev V _ => V = W
  | .toPast V => V = W
  | .succ => False
  | .pred => False
  | i => i.Travels

theorem Step.Travels.staysBelow {i : Step} (hi : i.Travels) : i.StaysBelow 128 := by
  cases i with
  | succ => exact Nat.le_refl 128
  | next V o => exact V.bits_le
  | toPast V => exact V.bits_le
  | _ => exact hi

theorem Step.ScansAt.staysBelow {i : Step} (hi : i.ScansAt W) : i.StaysBelow W.bits := by
  cases i with
  | succ => exact hi.elim
  | next V o =>
    cases hi
    exact Nat.le_refl _
  | toPast V =>
    cases hi
    exact Nat.le_refl _
  | prev V o => trivial
  | pred => trivial
  | _ => exact hi

/-- One step keeps the bounds. Down it is the refusals that keep them. -/
theorem within_step {n : Nat} {i : Step} {out : Script.Outcome Position Reply} (hp : Within n p)
    (hi : i.StaysBelow n) (h : step .direct p i = .ok out) : Within n out.state := by
  obtain ⟨hlo, hhi⟩ := hp
  obtain ⟨hnone, hleads⟩ := leads_of_ok h
  unfold Within
  cases i with
  | succ =>
    have hlt : p.val < 128 := permitted_of_none hnone
    have hq : out.state.val = p.val + 1 := hleads
    have hn : 128 ≤ n := hi
    omega
  | pred =>
    have hlt : -1 < p.val := permitted_of_none hnone
    have hq : out.state.val = p.val - 1 := hleads
    omega
  | next V o =>
    obtain ⟨-, hlt, hstop⟩ := next_ok h
    have hq := hstop.le
    have hn : V.bits ≤ n := hi
    rw [lt_def] at hlt
    omega
  | prev V o =>
    obtain ⟨-, hlt, hstop⟩ := prev_ok h
    have hq := hstop.le
    rw [lt_def] at hlt
    omega
  | toPast V =>
    have hq : out.state.val = V.bits := hleads
    have hn : V.bits ≤ n := hi
    omega
  | toBefore =>
    have hq : out.state.val = -1 := hleads
    omega
  | toFirst =>
    have hq : out.state.val = 0 := hleads
    omega
  | add d => exact hi.elim
  | sub d => exact hi.elim
  | goto r => exact hi.elim
  | _ =>
    have hq : out.state.val = p.val := hleads
    omega

/-- So does a refused one, also where it has gone one up. -/
theorem within_refused {n : Nat} {i : Step} {r : Refusal Position} (hp : Within n p) (hi : i.StaysBelow n)
    (h : step .direct p i = .error r) : Within n r.state := by
  obtain ⟨hlo, hhi⟩ := hp
  have hleaves := (step_lawful p i).leaves r h
  unfold Within
  cases i with
  | next V o =>
    have hn : V.bits ≤ n := hi
    rw [Step.leaves] at hleaves
    split at hleaves <;> omega
  | _ =>
    have hq : r.state.val = p.val := hleaves
    omega

theorem within_after {n : Nat} {i : Step} (hp : Within n p) (hi : i.StaysBelow n) :
    Within n (Script.after (step .direct) p i) := by
  cases h : step .direct p i with
  | ok out =>
    rw [Script.after_ok h]
    exact within_step hp hi h
  | error r =>
    rw [Script.after_error h]
    exact within_refused hp hi h

/-! ## Scripts in place and on copies -/

/-- A machine makes the steps of a position where they are not refused, and leaves either what they
leave or the position as it was. -/
structure Makes (act : Position → Step → Script.Result Position Reply) : Prop where
  ok : ∀ {p i out}, act p i = .ok out → step .direct p i = .ok out
  after : ∀ p i, Script.after act p i = Script.after (step .direct) p i ∨ Script.after act p i = p

theorem makes_step : Makes (step .direct) where
  ok h := h
  after _ _ := .inl rfl

theorem makes_onCopy : Makes (Script.onCopy (step .direct)) where
  ok h := Script.onCopy_eq_ok_iff.1 h
  after := Script.after_onCopy

variable {act : Position → Step → Script.Result Position Reply}

theorem within_final (hact : Makes act) {n : Nat} {is : List Step} (hp : Within n p)
    (his : ∀ i ∈ is, i.StaysBelow n) (k : Nat) : Within n (Script.final act p (is.take k)) := by
  refine Script.final_inv (fun s i hs hi => ?_) _ p hp fun i hi => his i (List.mem_of_mem_take hi)
  rcases hact.after s i with h | h
  · rw [h]
    exact within_after hs hi
  · rwa [h]

/-! ## Scans in a row -/

/-- A sequence of integers that ascends for a while has come at least as far as it has steps. -/
theorem add_le_of_ascending {f : Nat → Int} {n : Nat} (h : ∀ j < n, f j < f (j + 1)) :
    ∀ j ≤ n, f 0 + j ≤ f j
  | 0, _ => by omega
  | j + 1, hj => by
    have hstep := h j (by omega)
    have hle := add_le_of_ascending h j (by omega)
    omega

/-- A sequence cannot ascend within bounds more often than there are integers between them. -/
theorem le_of_ascending_within {f : Nat → Int} {n : Nat} {a b : Int} (hab : a ≤ b + 1)
    (h : ∀ j < n, (a ≤ f j ∧ f j ≤ b) ∧ f j < f (j + 1)) : (n : Int) ≤ b + 1 - a := by
  rcases Nat.eq_zero_or_pos n with rfl | hn
  · omega
  · have hfirst := (h 0 hn).1.1
    have hlast := (h (n - 1) (by omega)).1.2
    have hclimb := add_le_of_ascending (fun j hj => (h j hj).2) (n - 1) (by omega)
    omega

/-- The result at an index, with the positions before and after it. -/
theorem step_of_ok (hact : Makes act) {is : List Step} {k : Nat} {i : Step}
    {out : Script.Outcome Position Reply} (hi : is[k]? = some i)
    (hout : (Script.run act p is)[k]? = some (.ok out)) :
    step .direct (Script.final act p (is.take k)) i = .ok out ∧
      Script.final act p (is.take (k + 1)) = out.state := by
  have hstep := Script.step_eq_of_getElem? hi hout
  exact ⟨hact.ok hstep, (Script.final_take_succ hi p).trans (Script.after_ok hstep)⟩

/-- From index `k` on, `n` steps of a script are scans in one direction at one width, with any
operands, and none of them is refused. -/
def ScansInRow (scan : Operand W → Step) (act : Position → Step → Script.Result Position Reply)
    (p : Position) (is : List Step) (k n : Nat) : Prop :=
  ∀ j < n, ∃ o out, is[k + j]? = some (scan o) ∧ (Script.run act p is)[k + j]? = some (.ok out)

theorem ups_le (hact : Makes act) {is : List Step} {k n : Nat}
    (h : ScansInRow (Step.next W) act p is k n) : n ≤ W.bits + 1 := by
  have hn := le_of_ascending_within (f := fun j => (Script.final act p (is.take (k + j))).val)
    (n := n) (a := -1) (b := W.bits - 1) (by omega) fun j hj => by
      obtain ⟨o, out, hi, hout⟩ := h j hj
      obtain ⟨hstep, hafter⟩ := step_of_ok hact hi hout
      obtain ⟨hrange, hlt, -⟩ := next_ok hstep
      rw [lt_def, ← hafter] at hlt
      exact ⟨by omega, hlt⟩
  omega

/-- Downwards the positions descend, and their negations ascend. -/
theorem downs_le (hact : Makes act) {is : List Step} {k n : Nat}
    (h : ScansInRow (Step.prev W) act p is k n) : n ≤ W.bits := by
  have hn := le_of_ascending_within (f := fun j => -(Script.final act p (is.take (k + j))).val)
    (n := n) (a := -W.bits) (b := -1) (by omega) fun j hj => by
      obtain ⟨o, out, hi, hout⟩ := h j hj
      obtain ⟨hstep, hafter⟩ := step_of_ok hact hi hout
      obtain ⟨hrange, hlt, -⟩ := prev_ok hstep
      rw [lt_def, ← hafter] at hlt
      exact ⟨by omega, Int.neg_lt_neg hlt⟩
  omega

/-! ## Whole runs -/

/-- Where a script comes to, and how long it can scan in one direction. -/
structure StaysInReach (act : Position → Step → Script.Result Position Reply) (p : Position)
    (is : List Step) : Prop where
  travels : Within 128 p → (∀ i ∈ is, i.Travels) → ∀ k, Within 128 (Script.final act p (is.take k))
  scans : ∀ W : Width, Within W.bits p → (∀ i ∈ is, i.ScansAt W) →
    ∀ k, Within W.bits (Script.final act p (is.take k))
  up : ∀ (W : Width) (o : Operand W) (k : Nat) (out : Script.Outcome Position Reply),
    is[k]? = some (.next W o) → (Script.run act p is)[k]? = some (.ok out) →
      Script.final act p (is.take k) < out.state ∧ StopsUp o out.state
  down : ∀ (W : Width) (o : Operand W) (k : Nat) (out : Script.Outcome Position Reply),
    is[k]? = some (.prev W o) → (Script.run act p is)[k]? = some (.ok out) →
      out.state < Script.final act p (is.take k) ∧ StopsDown o out.state
  ups : ∀ (W : Width) (k n : Nat), ScansInRow (Step.next W) act p is k n → n ≤ W.bits + 1
  downs : ∀ (W : Width) (k n : Nat), ScansInRow (Step.prev W) act p is k n → n ≤ W.bits

theorem Makes.staysInReach (hact : Makes act) (p : Position) (is : List Step) :
    StaysInReach act p is := by
  constructor
  case travels => exact fun hp his k => within_final hact hp (fun i hi => (his i hi).staysBelow) k
  case scans => exact fun W hp his k => within_final hact hp (fun i hi => (his i hi).staysBelow) k
  case up =>
    intro W o k out hi hout
    exact (next_ok (step_of_ok hact hi hout).1).2
  case down =>
    intro W o k out hi hout
    exact (prev_ok (step_of_ok hact hi hout).1).2
  case ups => exact fun W k n h => ups_le hact h
  case downs => exact fun W k n h => downs_le hact h

/-- In every build, every script on a position stays in reach, whether its steps are tried on a copy or
made in place. -/
theorem stays_in_reach (portable : Bool) (p : Position) (is : List Step) :
    StaysInReach (Script.onCopy (step (.select portable))) p is ∧
      StaysInReach (step (.select portable)) p is := by
  rw [Engine.select_eq_direct]
  exact ⟨makes_onCopy.staysInReach p is, makes_step.staysInReach p is⟩

end Wordwise.Position
