/-
Sets as counters. Steps that count up or down change the number of a set, modulo the number of words,
by an amount that does not depend on the set. So a run of such steps adds the sum of the amounts, in
whatever order, and a step that is undone leaves no trace. A loop that counts up from the empty set
until the set is empty again visits every set once, in the order of the numbers, and from any set it
takes one step for every word to come back to it.
-/
import Wordwise.Proofs.Order
import Wordwise.Script.Sets

namespace Wordwise.WordSet

variable {W : Width}

/-! ## Steps that count -/

/-- A step that counts: by one, or by the number of a word. -/
inductive Tick (W : Width) where
  | increment
  | decrement
  | add (a : Word W)
  | sub (a : Word W)
deriving DecidableEq

namespace Tick

def step : Tick W → Step W
  | increment => .increment
  | decrement => .decrement
  | add a => .add a
  | sub a => .sub a

def opposite : Tick W → Tick W
  | increment => decrement
  | decrement => increment
  | add a => sub a
  | sub a => add a

/-- What a step adds as the number of a word. -/
def added : Tick W → ℕ
  | add a => a.toNat
  | _ => 0

/-- What a step takes away as the number of a word. -/
def subtracted : Tick W → ℕ
  | sub a => a.toNat
  | _ => 0

/-- By how much a step changes the number, if it does not wrap. -/
def amount : Tick W → ℤ
  | increment => 1
  | decrement => -1
  | add a => a.toNat
  | sub a => -a.toNat

theorem amount_opposite (i : Tick W) : i.opposite.amount = -i.amount := by
  cases i <;> simp [opposite, amount]

/-- The amounts of all steps are the sum of what is added and of the steps up, less the sum of what is
subtracted and the steps down. -/
theorem sum_amount : ∀ is : List (Tick W), (is.map amount).sum =
    (is.map added).sum + is.count increment - (is.map subtracted).sum - is.count decrement
  | [] => rfl
  | i :: is => by
    rw [List.map_cons, List.sum_cons, sum_amount is]
    cases i <;> simp [amount, added, subtracted] <;> omega

end Tick

/-- The set after a run of steps that count. -/
def counted (e : Engine) (s : WordSet W) (is : List (Tick W)) : WordSet W :=
  Script.final (step e) s (is.map Tick.step)

/-- One step adds its amount. -/
theorem step_tick (e : Engine) (s : WordSet W) (i : Tick W) :
    ∃ t : WordSet W, step e s i.step = .ok ⟨t, .none⟩ ∧
      t.word = s.word + BitVec.ofInt W.bits i.amount := by
  cases i with
  | increment => exact ⟨s.increment, rfl, by rw [word_increment]; rfl⟩
  | decrement =>
    refine ⟨s.decrement, rfl, ?_⟩
    rw [word_decrement, BitVec.sub_eq_add_neg, Tick.amount, BitVec.ofInt_neg]
    rfl
  | add a =>
    refine ⟨s.add a, rfl, ?_⟩
    rw [word_add, Tick.amount, BitVec.ofInt_natCast, BitVec.ofNat_toNat, BitVec.setWidth_eq]
  | sub a =>
    refine ⟨s.sub a, rfl, ?_⟩
    rw [word_sub, BitVec.sub_eq_add_neg, Tick.amount, BitVec.ofInt_neg, BitVec.ofInt_natCast,
      BitVec.ofNat_toNat, BitVec.setWidth_eq]

/-- A run adds the sum of the amounts of its steps. -/
theorem word_counted (e : Engine) : ∀ (is : List (Tick W)) (s : WordSet W),
    (counted e s is).word = s.word + BitVec.ofInt W.bits (is.map Tick.amount).sum
  | [], s => by simp [counted, Script.final]
  | i :: is, s => by
    obtain ⟨t, hstep, ht⟩ := step_tick e s i
    have hrest : counted e s (i :: is) = counted e t is := Script.final_cons_ok hstep _
    rw [hrest, word_counted e is t, ht, List.map_cons, List.sum_cons, BitVec.ofInt_add,
      BitVec.add_assoc]

theorem counted_eq_of_sum_eq {e : Engine} {s : WordSet W} {is js : List (Tick W)}
    (h : (is.map Tick.amount).sum = (js.map Tick.amount).sum) : counted e s is = counted e s js :=
  eq_of_word_eq (by rw [word_counted, word_counted, h])

/-- No step of a run is refused, and none answers with more than the new set. -/
theorem run_counted (e : Engine) : ∀ (is : List (Tick W)) (s : WordSet W),
    ∀ out ∈ Script.run (step e) s (is.map Tick.step), ∃ t, out = .ok ⟨t, .none⟩
  | [], _, _, hout => nomatch hout
  | i :: is, s, out, hout => by
    obtain ⟨t, hstep, -⟩ := step_tick e s i
    rw [List.map_cons, Script.run_cons_ok hstep, List.mem_cons] at hout
    rcases hout with rfl | hout
    · exact ⟨t, rfl⟩
    · exact run_counted e is t out hout

/-- The number after a run. -/
theorem toNat_counted (e : Engine) (s : WordSet W) (is : List (Tick W)) :
    ((counted e s is).word.toNat : ℤ) =
      (s.word.toNat + (is.map Tick.amount).sum) % 2 ^ W.bits := by
  have hne : (2 ^ W.bits : ℤ) ≠ 0 := pow_ne_zero _ (by decide)
  rw [word_counted, BitVec.toNat_add, BitVec.toNat_ofInt]
  push_cast
  rw [Int.toNat_of_nonneg (Int.emod_nonneg _ hne), Int.add_emod_emod]

/-! ## Coming round -/

/-- A run leads back to where it started exactly when its amounts make a multiple of the number of
words. -/
theorem counted_eq_self_iff {e : Engine} {s : WordSet W} {is : List (Tick W)} :
    counted e s is = s ↔ (2 ^ W.bits : ℤ) ∣ (is.map Tick.amount).sum := by
  have hlt : (s.word.toNat : ℤ) < 2 ^ W.bits := by exact_mod_cast s.word.isLt
  have hmod : (s.word.toNat : ℤ) % 2 ^ W.bits = s.word.toNat := Int.emod_eq_of_lt (by omega) hlt
  rw [← toNat_injective.eq_iff, ← Nat.cast_inj (R := ℤ), toNat_counted]
  nth_rewrite 2 [← hmod]
  rw [Int.emod_eq_emod_iff_emod_sub_eq_zero, add_sub_cancel_left, Int.dvd_iff_emod_eq_zero]

/-- Steps by one in one direction lead back after a multiple of the number of words. -/
theorem counted_replicate_eq_self_iff {e : Engine} {s : WordSet W} {i : Tick W} {k : ℕ}
    (hi : i.amount = 1 ∨ i.amount = -1) :
    counted e s (List.replicate k i) = s ↔ 2 ^ W.bits ∣ k := by
  rw [counted_eq_self_iff, List.map_replicate, List.sum_replicate, nsmul_eq_mul]
  rcases hi with hi | hi
  · rw [hi, mul_one]
    exact_mod_cast Iff.rfl
  · rw [hi, mul_neg_one, dvd_neg]
    exact_mod_cast Iff.rfl

theorem isLeast_return {e : Engine} {s : WordSet W} {i : Tick W}
    (hi : i.amount = 1 ∨ i.amount = -1) :
    IsLeast {k | 0 < k ∧ counted e s (List.replicate k i) = s} (2 ^ W.bits) := by
  constructor
  · exact ⟨Nat.two_pow_pos _, (counted_replicate_eq_self_iff hi).2 (Nat.dvd_refl _)⟩
  · rintro k ⟨hpos, hk⟩
    exact Nat.le_of_dvd hpos ((counted_replicate_eq_self_iff hi).1 hk)

/-! ## Visiting every set -/

theorem isEmpty_iff {s : WordSet W} : s.isEmpty = true ↔ s.word.toNat = 0 := by
  rw [isEmpty, beq_iff_eq, ← BitVec.toNat_inj]
  rfl

theorem isEmpty_iff_eq_empty {s : WordSet W} : s.isEmpty = true ↔ s = empty := by
  rw [isEmpty_iff, ← toNat_injective.eq_iff]
  rfl

/-- The next set has the next number, or the number zero after the last one. -/
theorem toNat_increment (s : WordSet W) :
    s.increment.word.toNat = (s.word.toNat + 1) % 2 ^ W.bits := by
  have hone : (1 : Word W).toNat = 1 := BitVec.toNat_one W.bits_pos
  rw [word_increment, BitVec.toNat_add, hone]

theorem isEmpty_increment_iff {s : WordSet W} :
    s.increment.isEmpty = true ↔ s.word.toNat + 1 = 2 ^ W.bits := by
  rw [isEmpty_iff, toNat_increment]
  constructor
  · intro h
    have hle := Nat.le_of_dvd (by omega) (Nat.dvd_of_mod_eq_zero h)
    have hlt := s.word.isLt
    omega
  · intro h
    rw [h, Nat.mod_self]

/-- A set whose successor is not empty has a successor with the next number. -/
theorem toNat_increment_of_not_isEmpty {s : WordSet W} (h : ¬ s.increment.isEmpty = true) :
    s.word.toNat + 1 < 2 ^ W.bits ∧ s.increment.word.toNat = s.word.toNat + 1 := by
  have hne := mt isEmpty_increment_iff.2 h
  have hlt : s.word.toNat + 1 < 2 ^ W.bits := by
    have := s.word.isLt
    omega
  exact ⟨hlt, by rw [toNat_increment, Nat.mod_eq_of_lt hlt]⟩

/-- The sets that a loop visits which starts from a set and counts up until the set is empty. -/
def countUp (s : WordSet W) : List (WordSet W) :=
  if s.increment.isEmpty then [s] else s :: countUp s.increment
termination_by 2 ^ W.bits - s.word.toNat
decreasing_by
  have := toNat_increment_of_not_isEmpty ‹_›
  omega

/-- The set with a number. -/
def ofNumber (W : Width) (n : ℕ) : WordSet W := ofWord (BitVec.ofNat W.bits n)

theorem ofNumber_toNat (s : WordSet W) : ofNumber W s.word.toNat = s := by
  rw [ofNumber, BitVec.ofNat_toNat, BitVec.setWidth_eq, ofWord_word]

theorem toNat_ofNumber {n : ℕ} (h : n < 2 ^ W.bits) : (ofNumber W n).word.toNat = n := by
  rw [ofNumber, word_ofWord, BitVec.toNat_ofNat, Nat.mod_eq_of_lt h]

/-- The loop visits the sets from its start on, up to the one with the last number. -/
theorem countUp_eq (s : WordSet W) : countUp s =
    (List.range' s.word.toNat (2 ^ W.bits - s.word.toNat)).map (ofNumber W) := by
  fun_induction countUp s with
  | case1 s h =>
    have hlast := isEmpty_increment_iff.1 h
    rw [show 2 ^ W.bits - s.word.toNat = 1 by omega, List.range'_one, List.map_singleton,
      ofNumber_toNat]
  | case2 s h ih =>
    obtain ⟨hlt, hnext⟩ := toNat_increment_of_not_isEmpty h
    have hrest : 2 ^ W.bits - s.word.toNat = 2 ^ W.bits - s.increment.word.toNat + 1 := by omega
    rw [ih, hrest, List.range'_succ, List.map_cons, ofNumber_toNat, hnext]

/-- From the empty set on, the loop visits the sets in the order of their numbers. -/
theorem countUp_empty :
    countUp (empty : WordSet W) = (List.range (2 ^ W.bits)).map (ofNumber W) := by
  have hzero : (empty : WordSet W).word.toNat = 0 := rfl
  rw [countUp_eq, hzero, Nat.sub_zero, List.range_eq_range']

theorem countUp_empty_ascending : (countUp (empty : WordSet W)).Pairwise (· < ·) := by
  rw [countUp_empty, List.pairwise_map]
  refine List.pairwise_lt_range.imp_of_mem fun {m n} hm hn hmn => ?_
  show (ofNumber W m).word.toNat < (ofNumber W n).word.toNat
  rwa [toNat_ofNumber (List.mem_range.1 hm), toNat_ofNumber (List.mem_range.1 hn)]

/-- After as many steps up from the empty set, the set is the one with that number. -/
theorem counted_empty (e : Engine) (k : ℕ) :
    counted e (empty : WordSet W) (List.replicate k .increment) = ofNumber W k := by
  refine eq_of_word_eq ?_
  rw [word_counted, List.map_replicate, List.sum_replicate, nsmul_eq_mul, Tick.amount, mul_one,
    BitVec.ofInt_natCast]
  exact BitVec.zero_add _

theorem mem_countUp_empty (s : WordSet W) : s ∈ countUp (empty : WordSet W) := by
  rw [countUp_empty]
  exact List.mem_map.2 ⟨s.word.toNat, List.mem_range.2 s.word.isLt, ofNumber_toNat s⟩

theorem count_countUp_empty (s : WordSet W) : (countUp (empty : WordSet W)).count s = 1 :=
  List.count_eq_one_of_mem (countUp_empty_ascending.imp fun h => h.ne) (mem_countUp_empty s)

/-! ## Counters -/

/-- What a run of steps that count does to a set. -/
structure RunsAsCounter (e : Engine) (s : WordSet W) (is : List (Tick W)) : Prop where
  answers : ∀ out ∈ Script.run (step e) s (is.map Tick.step), ∃ t, out = .ok ⟨t, .none⟩
  number : ((counted e s is).word.toNat : ℤ) =
    (s.word.toNat + (is.map Tick.added).sum + is.count .increment
      - (is.map Tick.subtracted).sum - is.count .decrement) % 2 ^ W.bits
  anyOrder : ∀ js : List (Tick W), js.Perm is → counted e s js = counted e s is
  undone : ∀ (i : Tick W) (before after : List (Tick W)), is = before ++ after →
    counted e s (before ++ i :: i.opposite :: after) = counted e s is

/-- How often a set has to be counted up or down to be the same again. -/
structure ComesRound (e : Engine) (s : WordSet W) : Prop where
  up : IsLeast {k | 0 < k ∧ counted e s (List.replicate k .increment) = s} (2 ^ W.bits)
  down : IsLeast {k | 0 < k ∧ counted e s (List.replicate k .decrement) = s} (2 ^ W.bits)

/-- What a loop visits that counts up from the empty set until the set is empty again. -/
structure VisitsAll (e : Engine) (W : Width) : Prop where
  ends : IsLeast {k | 0 < k ∧
    (counted e (empty : WordSet W) (List.replicate k .increment)).isEmpty = true} (2 ^ W.bits)
  visited : countUp (empty : WordSet W) = (List.range (2 ^ W.bits)).map fun k =>
    counted e empty (List.replicate k .increment)
  length : (countUp (empty : WordSet W)).length = 2 ^ W.bits
  ascending : (countUp (empty : WordSet W)).Pairwise (· < ·)
  once : ∀ s : WordSet W, (countUp (empty : WordSet W)).count s = 1

/-- A run adds what its steps add and takes away what they take away, in whatever order. -/
theorem runs_as_counter (e : Engine) (s : WordSet W) (is : List (Tick W)) : RunsAsCounter e s is := by
  constructor
  case answers => exact run_counted e is s
  case number =>
    rw [toNat_counted, Tick.sum_amount]
    congr 1
    ring
  case anyOrder =>
    intro js h
    exact counted_eq_of_sum_eq (h.map Tick.amount).sum_eq
  case undone =>
    rintro i before after rfl
    refine counted_eq_of_sum_eq ?_
    simp only [List.map_append, List.map_cons, List.sum_append, List.sum_cons, Tick.amount_opposite]
    ring

theorem comes_round (e : Engine) (s : WordSet W) : ComesRound e s where
  up := isLeast_return (.inl rfl)
  down := isLeast_return (.inr rfl)

theorem visits_all (e : Engine) (W : Width) : VisitsAll e W := by
  constructor
  case ends =>
    have hreturn := isLeast_return (e := e) (s := (empty : WordSet W)) (i := .increment) (.inl rfl)
    simpa only [isEmpty_iff_eq_empty] using hreturn
  case visited =>
    rw [countUp_empty]
    exact List.map_congr_left fun k _ => (counted_empty e k).symm
  case length => rw [countUp_empty, List.length_map, List.length_range]
  case ascending => exact countUp_empty_ascending
  case once => exact count_countUp_empty

/-- Steps up and down make a counter of a set, modulo the number of words, that comes to every set. -/
theorem counts_modulo (e : Engine) (s : WordSet W) (is : List (Tick W)) :
    RunsAsCounter e s is ∧ ComesRound e s ∧ VisitsAll e W :=
  ⟨runs_as_counter e s is, comes_round e s, visits_all e W⟩

end Wordwise.WordSet
