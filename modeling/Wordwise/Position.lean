/-
Positions: signed sixteen-bit coordinates into a word. Besides the bits `0` to `N - 1` of a word
of `N` bits there is one position before the first bit, `-1`, and one past the last, `N`. A
position has no width of its own, and any sixteen-bit number may stand in it; the operations say
what they accept.
-/
import Wordwise.Word

namespace Wordwise

structure Position where
  val : Int
  lo : -32768 ≤ val := by omega
  hi : val ≤ 32767 := by omega
deriving DecidableEq

namespace Position

@[ext] theorem ext {p q : Position} (h : p.val = q.val) : p = q := by
  cases p; cases q; cases h; rfl

/-! ## Making positions -/

/-- The position of an integer that fits in sixteen bits. -/
def ofInt? (i : Int) : Option Position :=
  if h : -32768 ≤ i ∧ i ≤ 32767 then some ⟨i, h.1, h.2⟩ else none

/-- The position of an integer, or the given fault when it does not fit in sixteen bits. -/
def hold (cause : Fault) (i : Int) : Except Fault Position :=
  if h : -32768 ≤ i ∧ i ≤ 32767 then .ok ⟨i, h.1, h.2⟩ else .error cause

theorem val_of_hold {c : Fault} {i : Int} {p : Position} (h : hold c i = .ok p) : p.val = i := by
  unfold hold at h
  split at h
  · cases h; rfl
  · cases h

/-- The position with the low sixteen bits of an integer, read as a signed number. -/
def wrap (i : Int) : Position where
  val := i.bmod 65536
  lo := Int.le_bmod (by decide)
  hi := Int.lt_add_one_iff.1 (Int.bmod_lt (by decide))

theorem wrap_val {i : Int} (h : -32768 ≤ i ∧ i ≤ 32767) : (wrap i).val = i := by
  show i.bmod 65536 = i
  rw [Int.bmod_def]
  split <;> omega

/-- One before the first bit. -/
def before : Position := ⟨-1, by decide, by decide⟩

/-- The first bit, which is the lowest. -/
def first : Position := ⟨0, by decide, by decide⟩

/-- One past the last bit of a word of width `W`. -/
def past (W : Width) : Position where
  val := W.bits
  lo := by have := W.bits_le; omega
  hi := by have := W.bits_le; omega

@[simp] theorem before_val : before.val = -1 := rfl

@[simp] theorem first_val : first.val = 0 := rfl

@[simp] theorem past_val (W : Width) : (past W).val = W.bits := rfl

/-! ## Order -/

instance : LT Position := ⟨fun p q => p.val < q.val⟩
instance : LE Position := ⟨fun p q => p.val ≤ q.val⟩
instance : DecidableLT Position := fun p q => inferInstanceAs (Decidable (p.val < q.val))
instance : DecidableLE Position := fun p q => inferInstanceAs (Decidable (p.val ≤ q.val))
instance : Ord Position := ⟨fun p q => compare p.val q.val⟩
instance : Min Position := minOfLe
instance : Max Position := maxOfLe

theorem lt_def {p q : Position} : p < q ↔ p.val < q.val := Iff.rfl

theorem le_def {p q : Position} : p ≤ q ↔ p.val ≤ q.val := Iff.rfl

/-! ## Questions -/

def isBefore (p : Position) : Bool := p.val == before.val

def isPast (W : Width) (p : Position) : Bool := p.val == (past W).val

/-- The position is that of a bit of a word of width `W`. -/
def isBit (W : Width) (p : Position) : Bool := decide (first ≤ p) && decide (p < past W)

/-- There is a bit below the position, so that a downward scan may start from it. -/
def canDescend (p : Position) : Bool := decide (first < p)

/-! ## Steps -/

/-- The next position. The widest word ends at position 128, and no step leads past that. -/
def succ (p : Position) : Except Fault Position :=
  if p < past .w128 then hold .addOverflow (p.val + 1) else .error (.noSuccessor p.val)

/-- The previous position. None precedes the one before the first bit. -/
def pred (p : Position) : Except Fault Position :=
  if before < p then hold .subtractOverflow (p.val - 1) else .error (.noPredecessor p.val)

theorem val_of_pred {p q : Position} (h : p.pred = .ok q) : before < p ∧ q.val = p.val - 1 := by
  unfold pred at h
  split at h
  case isTrue hp => exact ⟨hp, val_of_hold h⟩
  case isFalse => cases h

def add (p : Position) (n : Int) : Except Fault Position :=
  hold .addOverflow (p.val + n)

def sub (p : Position) (n : Int) : Except Fault Position :=
  hold .subtractOverflow (p.val - n)

/-! ## Text -/

def text (p : Position) : List Char := decimal p.val

end Position

/-! ## Positions and single-bit words -/

/-- The word with only the bit at this position set. -/
def Position.toWord (W : Width) (p : Position) : Except Fault (Word W) :=
  if p.isBit W then .ok (shiftUp 1 (shiftAmount p.val)) else .error (.outOfBounds p.val)

end Wordwise
