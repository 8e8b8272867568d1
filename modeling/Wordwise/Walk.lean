/-
Walks: scans repeated until the sentinel of the direction is reached. Every scan that succeeds
moves strictly in its direction, so each walk ends; a refused scan ends it at once.
-/
import Wordwise.Scan

namespace Wordwise.Position

variable {W : Width}

/-! ## Scans move -/

theorem le_of_seekUp {e : Engine} {p q : Position} {a : Word W} (hp : p ≤ past W)
    (h : p.seekUp e a = .ok q) : p ≤ q := by
  unfold seekUp at h
  split at h
  · cases h; exact hp
  · obtain ⟨z, -, h⟩ := Checked.bind_eq_ok.1 h
    have hv := val_of_hold h
    rw [le_def]; omega

theorem lt_of_seekDown {e : Engine} {p q : Position} {a : Word W} (hp : 0 < p.val)
    (h : p.seekDown e a = .ok q) : q < p := by
  unfold seekDown at h
  obtain ⟨g, -, h⟩ := Checked.bind_eq_ok.1 h
  split at h
  · cases h
    rw [lt_def, before_val]; omega
  · obtain ⟨z, -, h⟩ := Checked.bind_eq_ok.1 h
    obtain ⟨s, hs, h⟩ := Checked.bind_eq_ok.1 h
    have hsv := val_of_hold hs
    have hv := val_of_hold h
    rw [lt_def]; omega

/-- An upward scan that succeeds started below the end and went up. -/
theorem lt_of_next {e : Engine} {p q : Position} {o : Operand W} (h : p.next e o = .ok q) :
    p < past W ∧ p < q := by
  unfold next at h
  split at h
  case isFalse => cases h
  rename_i hp
  refine ⟨hp.2, ?_⟩
  obtain ⟨r, hr, h⟩ := Checked.bind_eq_ok.1 h
  have hrv := val_of_hold (leaving_eq_ok_iff.1 hr)
  split at h
  · cases h
    rw [lt_def]; omega
  · obtain ⟨a, -, h⟩ := Checked.bind_eq_ok.1 (leaving_eq_ok_iff.1 h)
    have hpast := hp.2
    have := le_of_seekUp (by rw [le_def]; rw [lt_def] at hpast; omega) h
    rw [le_def] at this
    rw [lt_def]; omega

/-- A downward scan that succeeds started above the first bit and went down. -/
theorem lt_of_prev {e : Engine} {p q : Position} {o : Operand W} (h : p.prev e o = .ok q) :
    0 < p.val ∧ q < p := by
  unfold prev at h
  split at h
  case isFalse => cases h
  rename_i hp
  have hpos : 0 < p.val := of_decide_eq_true hp.1
  obtain ⟨a, -, h⟩ := Checked.bind_eq_ok.1 (leaving_eq_ok_iff.1 h)
  exact ⟨hpos, lt_of_seekDown hpos h⟩

/-! ## Walks -/

/-- What a walk leaves: the position after each scan, and the fault if one was refused. -/
structure Trail where
  positions : List Position
  fault : Option Fault
deriving DecidableEq

/-- The trail with one more position in front. -/
def Trail.cons (p : Position) (t : Trail) : Trail := ⟨p :: t.positions, t.fault⟩

/-- Scan upwards until the position past the last bit is reached. -/
def walkUp (e : Engine) (o : Operand W) (p : Position) : Trail :=
  if p.isPast W then ⟨[], none⟩
  else
    match _h : p.next e o with
    | .error r => ⟨[], some r.fault⟩
    | .ok q => (walkUp e o q).cons q
termination_by ((past W).val - p.val).toNat
decreasing_by
  have := lt_of_next ‹p.next e o = .ok q›
  simp only [lt_def] at this
  omega

/-- Scan downwards until no bit is below the position. -/
def walkDown (e : Engine) (o : Operand W) (p : Position) : Trail :=
  if p.canDescend then
    match _h : p.prev e o with
    | .error r => ⟨[], some r.fault⟩
    | .ok q => (walkDown e o q).cons q
  else ⟨[], none⟩
termination_by p.val.toNat
decreasing_by
  have := lt_of_prev ‹p.prev e o = .ok q›
  simp only [lt_def] at this
  omega

end Wordwise.Position
