/-
Numbers laid out in a field. Whatever a layout puts around the digits of a number, no number can be
taken for another: the digits are read back past a sign, a mark, zeros and the fill of the field, and
only a negative number has a minus. In hexadecimal the two's complement is read back, which tells
numbers apart that are closer to each other than the bits reach. All of this needs a fill that is
neither a digit nor a minus.
-/
import Mathlib.Algebra.Ring.Int.Defs
import Mathlib.Algebra.Ring.Nat
import Wordwise.Text.Format

namespace Wordwise

/-! ## Digits -/

namespace Radix

def base : Radix → ℕ
  | decimal => 10
  | _ => 16

theorem one_lt_base (r : Radix) : 1 < r.base := by cases r <;> decide

/-- The character that a digit is written with. -/
def letter (r : Radix) (d : ℕ) : Char :=
  match r with
  | upperHex => d.digitChar.toUpper
  | _ => d.digitChar

/-- The digit that is written with a character, if there is one. -/
def digit? (r : Radix) (c : Char) : Option ℕ := (List.range r.base).find? fun d => r.letter d == c

variable {r : Radix}

theorem digit?_letter {d : ℕ} (hd : d < r.base) : r.digit? (r.letter d) = some d := by
  revert d
  cases r <;> decide

theorem digit?_zero : r.digit? '0' = some 0 := by cases r <;> rfl

theorem digits_eq_map (r : Radix) (n : ℕ) :
    r.digits n = (Nat.toDigits r.base n).map fun c => if r = upperHex then c.toUpper else c := by
  cases r <;> simp [digits, base]

theorem digits_of_lt {d : ℕ} (hd : d < r.base) : r.digits d = [r.letter d] := by
  rw [digits_eq_map, Nat.toDigits_of_lt_base hd]
  cases r <;> rfl

/-- One more digit behind those of a number. -/
theorem digits_mul_add {n d : ℕ} (hn : 0 < n) (hd : d < r.base) :
    r.digits (r.base * n + d) = r.digits n ++ [r.letter d] := by
  rw [← digits_of_lt hd]
  simp only [digits_eq_map]
  rw [← Nat.toDigits_append_toDigits r.one_lt_base hn hd, List.map_append]

theorem mem_digits {n : ℕ} {c : Char} (hc : c ∈ r.digits n) : ∃ d < r.base, c = r.letter d := by
  induction n using Nat.base_induction r.base r.one_lt_base with
  | single d hd =>
    rw [digits_of_lt hd, List.mem_singleton] at hc
    exact ⟨d, hd, hc⟩
  | digit n d hd hn ih =>
    rw [digits_mul_add hn hd, List.mem_append, List.mem_singleton] at hc
    rcases hc with hc | hc
    · exact ih hc
    · exact ⟨d, hd, hc⟩

theorem minus_notMem_digits (r : Radix) (n : ℕ) : '-' ∉ r.digits n := by
  have hletter : ∀ d < r.base, '-' ≠ r.letter d := by cases r <;> decide
  intro hmem
  obtain ⟨d, hd, heq⟩ := mem_digits hmem
  exact hletter d hd heq

/-! ## Reading -/

/-- Go on reading the digits of a text from a number. What is not a digit is passed over. -/
def readFrom (r : Radix) (n : ℕ) : List Char → ℕ
  | [] => n
  | c :: cs =>
    match r.digit? c with
    | some d => r.readFrom (r.base * n + d) cs
    | none => r.readFrom n cs

theorem readFrom_append (n : ℕ) (cs ds : List Char) :
    r.readFrom n (cs ++ ds) = r.readFrom (r.readFrom n cs) ds := by
  induction cs generalizing n with
  | nil => rfl
  | cons c cs ih =>
    rw [List.cons_append, readFrom, readFrom]
    cases r.digit? c with
    | none => exact ih n
    | some d => exact ih (r.base * n + d)

/-- A text without digits does not count, and in front of a number zeros do not count either. -/
theorem readFrom_eq_self {n : ℕ} {cs : List Char}
    (h : ∀ c ∈ cs, r.digit? c = none ∨ (r.digit? c = some 0 ∧ n = 0)) : r.readFrom n cs = n := by
  induction cs with
  | nil => rfl
  | cons c cs ih =>
    have hcs : r.readFrom n cs = n := ih fun d hd => h d (List.mem_cons_of_mem c hd)
    rw [readFrom]
    rcases h c List.mem_cons_self with hc | ⟨hc, rfl⟩ <;> rw [hc]
    · exact hcs
    · simpa using hcs

/-- The digits of a number are read as the number. -/
theorem readFrom_digits (r : Radix) (n : ℕ) : r.readFrom 0 (r.digits n) = n := by
  induction n using Nat.base_induction r.base r.one_lt_base with
  | single d hd =>
    rw [digits_of_lt hd, readFrom, digit?_letter hd]
    simp [readFrom]
  | digit n d hd hn ih =>
    rw [digits_mul_add hn hd, readFrom_append, ih, readFrom, digit?_letter hd]
    rfl

end Radix

/-! ## Two's complements -/

/-- Two's complements tell apart numbers that are closer than the bits reach. -/
theorem toNat_ofInt_inj {bits : ℕ} {i j : ℤ} (hclose : (i - j).natAbs < 2 ^ bits)
    (h : (BitVec.ofInt bits i).toNat = (BitVec.ofInt bits j).toNat) : i = j := by
  have hpos : ((2 ^ bits : ℕ) : ℤ) ≠ 0 :=
    Int.natCast_ne_zero.2 (Nat.ne_of_gt (Nat.two_pow_pos bits))
  rw [BitVec.toNat_ofInt, BitVec.toNat_ofInt] at h
  have hmod : i % (2 ^ bits : ℕ) = j % (2 ^ bits : ℕ) := by
    rw [← Int.toNat_of_nonneg (Int.emod_nonneg i hpos), h, Int.toNat_of_nonneg (Int.emod_nonneg j hpos)]
  have hdvd : ((2 ^ bits : ℕ) : ℤ) ∣ i - j :=
    Int.dvd_of_emod_eq_zero (Int.emod_eq_emod_iff_emod_sub_eq_zero.1 hmod)
  exact Int.sub_eq_zero.1 (Int.eq_zero_of_dvd_of_natAbs_lt_natAbs hdvd hclose)

/-! ## Layouts -/

namespace Format

variable {f : Format} {r : Radix} {negative : Bool} {mark front back : List Char}

/-- The texts in front of the digits of a laid-out number and behind them. -/
structure Frames (f : Format) (negative : Bool) (mark front back : List Char) : Prop where
  leading : ∀ c ∈ front, c = f.fill ∨ c = '0' ∨ c = '+' ∨ c ∈ mark ∨ (c = '-' ∧ negative = true)
  minus : negative = true → '-' ∈ front
  trailing : ∀ c ∈ back, c = f.fill

/-- The sign and the mark of the radix. -/
theorem frames_head (f : Format) (negative : Bool) (mark : List Char) :
    f.Frames negative mark
      ((if negative then ['-'] else if f.plus then ['+'] else []) ++ if f.alternate then mark else [])
      [] := by
  constructor
  case leading =>
    intro c hc
    rcases List.mem_append.1 hc with hc | hc
    · split at hc
      · exact .inr (.inr (.inr (.inr ⟨List.mem_singleton.1 hc, ‹_›⟩)))
      · split at hc
        · exact .inr (.inr (.inl (List.mem_singleton.1 hc)))
        · cases hc
    · split at hc
      · exact .inr (.inr (.inr (.inl hc)))
      · cases hc
  case minus =>
    rintro rfl
    exact List.mem_append_left _ List.mem_cons_self
  case trailing => exact fun _ hc => nomatch hc

/-- Padding may stand at either end. -/
theorem Frames.pad (h : f.Frames negative mark front back) (m n : ℕ) :
    f.Frames negative mark (f.padding m ++ front) (back ++ f.padding n) where
  leading c hc := by
    rcases List.mem_append.1 hc with hc | hc
    · exact .inl (List.eq_of_mem_replicate hc)
    · exact h.leading c hc
  minus hneg := List.mem_append_right _ (h.minus hneg)
  trailing c hc := by
    rcases List.mem_append.1 hc with hc | hc
    · exact h.trailing c hc
    · exact List.eq_of_mem_replicate hc

/-- Zeros may stand right in front of the digits. -/
theorem Frames.zeros (h : f.Frames negative mark front back) (n : ℕ) :
    f.Frames negative mark (front ++ List.replicate n '0') back where
  leading c hc := by
    rcases List.mem_append.1 hc with hc | hc
    · exact h.leading c hc
    · exact .inr (.inl (List.eq_of_mem_replicate hc))
  minus hneg := List.mem_append_left _ (h.minus hneg)
  trailing := h.trailing

theorem exists_frames (f : Format) (negative : Bool) (mark digits : List Char) :
    ∃ front back, f.layout negative mark digits = front ++ digits ++ back ∧
      f.Frames negative mark front back := by
  have hhead := frames_head f negative mark
  unfold layout
  extract_lets sign head gap
  -- zeros go behind the sign and the mark, other padding around all of them
  split
  · exact ⟨_, [], (List.append_nil _).symm, hhead.zeros gap⟩
  · split
    · exact ⟨_, _, rfl, hhead.pad 0 gap⟩
    · refine ⟨_, _, ?_, hhead.pad (gap / 2) (gap - gap / 2)⟩
      simp [head, sign]
    · refine ⟨_, _, ?_, hhead.pad gap 0⟩
      simp [head, sign, padding]

/-- A layout whose fill cannot be taken for a part of a number. -/
structure Spares (f : Format) (r : Radix) : Prop where
  digit : r.digit? f.fill = none
  minus : f.fill ≠ '-'

/-- The digits of a laid-out number are read as the number. -/
theorem readFrom_layout (hf : f.Spares r) (hmark : ∀ c ∈ mark, r.digit? c = none ∨ r.digit? c = some 0)
    (negative : Bool) (n : ℕ) : r.readFrom 0 (f.layout negative mark (r.digits n)) = n := by
  have hplus : r.digit? '+' = none := by cases r <;> decide
  have hminus : r.digit? '-' = none := by cases r <;> decide
  obtain ⟨front, back, heq, hframes⟩ := exists_frames f negative mark (r.digits n)
  have hfront : r.readFrom 0 front = 0 := by
    refine Radix.readFrom_eq_self fun c hc => ?_
    rcases hframes.leading c hc with rfl | rfl | rfl | hc | ⟨rfl, -⟩
    · exact .inl hf.digit
    · exact .inr ⟨Radix.digit?_zero, rfl⟩
    · exact .inl hplus
    · exact (hmark c hc).imp_right fun h => ⟨h, rfl⟩
    · exact .inl hminus
  have hback : r.readFrom n back = n := by
    refine Radix.readFrom_eq_self fun c hc => .inl ?_
    rw [hframes.trailing c hc]
    exact hf.digit
  rw [heq, Radix.readFrom_append, Radix.readFrom_append, hfront, Radix.readFrom_digits, hback]

/-- A laid-out number has a minus exactly when it is negative. -/
theorem minus_mem_layout_iff (hf : f.Spares r) (hmark : '-' ∉ mark) (n : ℕ) :
    '-' ∈ f.layout negative mark (r.digits n) ↔ negative = true := by
  obtain ⟨front, back, heq, hframes⟩ := exists_frames f negative mark (r.digits n)
  rw [heq, List.mem_append, List.mem_append]
  constructor
  · rintro ((h | h) | h)
    · rcases hframes.leading _ h with h | h | h | h | ⟨-, h⟩
      · exact absurd h.symm hf.minus
      · cases h
      · cases h
      · exact absurd h hmark
      · exact h
    · exact absurd h (r.minus_notMem_digits n)
    · exact absurd (hframes.trailing _ h).symm hf.minus
  · exact fun h => .inl (.inl (hframes.minus h))

/-! ## Numbers -/

theorem number_decimal_inj (hf : f.Spares .decimal) {bits : ℕ} {i j : ℤ}
    (h : f.number .decimal bits i = f.number .decimal bits j) : i = j := by
  have hmark : ∀ c ∈ ([] : List Char),
      Radix.decimal.digit? c = none ∨ Radix.decimal.digit? c = some 0 := by simp
  have habs : i.natAbs = j.natAbs := by
    have hread := congrArg (Radix.decimal.readFrom 0) h
    unfold number at hread
    rwa [readFrom_layout hf hmark, readFrom_layout hf hmark] at hread
  have hsign : i < 0 ↔ j < 0 := by
    have hmem : '-' ∈ f.number .decimal bits i ↔ '-' ∈ f.number .decimal bits j := by rw [h]
    unfold number at hmem
    rw [minus_mem_layout_iff hf List.not_mem_nil, minus_mem_layout_iff hf List.not_mem_nil] at hmem
    simpa using hmem
  omega

theorem number_hex_inj (hr : r ≠ .decimal) (hf : f.Spares r) {bits : ℕ} {i j : ℤ}
    (hclose : (i - j).natAbs < 2 ^ bits) (h : f.number r bits i = f.number r bits j) : i = j := by
  have hx : r.digit? 'x' = none := by cases r <;> decide
  have hmark : ∀ c ∈ ['0', 'x'], r.digit? c = none ∨ r.digit? c = some 0 := by
    simp [hx, Radix.digit?_zero]
  have hnumber (k : ℤ) : r.readFrom 0 (f.number r bits k) = (BitVec.ofInt bits k).toNat := by
    cases r with
    | decimal => exact absurd rfl hr
    | lowerHex | upperHex => exact readFrom_layout hf hmark false _
  refine toNat_ofInt_inj hclose ?_
  rw [← hnumber, ← hnumber, h]

/-- Numbers that are laid out alike are equal. -/
theorem number_inj (hf : f.Spares r) {bits : ℕ} {i j : ℤ} (hclose : (i - j).natAbs < 2 ^ bits)
    (h : f.number r bits i = f.number r bits j) : i = j := by
  by_cases hr : r = .decimal
  · subst hr
    exact number_decimal_inj hf h
  · exact number_hex_inj hr hf hclose h

/-- A fill of blanks. -/
theorem Spares.of_blank (hfill : f.fill = ' ') : f.Spares r where
  digit := by
    rw [hfill]
    cases r <;> decide
  minus := by
    rw [hfill]
    decide

/-- With a digit as the fill, one number can be taken for another. -/
example :
    let f : Format := { plain with fill := '1', width := some 2 }
    f.number .decimal 16 1 = f.number .decimal 16 11 := by
  decide

end Format

/-- A plain decimal is a number in a field without width. -/
theorem number_plain (bits : ℕ) (i : ℤ) : Format.plain.number .decimal bits i = decimal i := by
  by_cases hi : i < 0 <;> simp [Format.number, Format.layout, Format.plain, Format.padding, decimal, hi]

theorem decimal_injective : Function.Injective decimal := by
  intro i j hij
  rw [← number_plain 0, ← number_plain 0] at hij
  exact Format.number_decimal_inj (.of_blank rfl) hij

end Wordwise
