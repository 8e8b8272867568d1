/-
The digits of a set as a text. Every position has a place in the text, the highest the first one, and
no character tells more than whether its position is a member. When the two characters differ, the
text can be read back: the places of the ones give the number of the set, as many ones as the set has
members, and every text of the right length in these characters is the text of exactly one set. The
layouts of a placeholder do not reach into the text of a set.
-/
import Wordwise.Proofs.Sink
import Wordwise.Proofs.Support
import Wordwise.Text.Shown

namespace Wordwise

variable {W : Width}

namespace WordSet

variable {zero one : Char}

/-! ## Places -/

/-- A text with one character for every position, the highest first, which a sink takes as it is. -/
structure IsText (s : WordSet W) (zero one : Char) (cs : List Char) : Prop where
  digits : s.digits zero one = .ok cs
  length : cs.length = W.bits
  place : ∀ j < W.bits, cs[j]? = some (if s.word.getLsbD (W.bits - 1 - j) then one else zero)
  writeTo : ∀ before, s.writeTo ⟨none, before⟩ zero one = .ok (⟨none, before ++ cs⟩, true)

theorem length_spelling (s : WordSet W) (zero one : Char) : (s.spelling zero one).length = W.bits := by
  simp [spelling]

theorem getElem?_spelling (s : WordSet W) (zero one : Char) {j : ℕ} (hj : j < W.bits) :
    (s.spelling zero one)[j]? = some (if s.word.getLsbD (W.bits - 1 - j) then one else zero) := by
  have hplace : W.bits - 1 - j < W.bits := by omega
  unfold spelling
  rw [List.getElem?_map, List.getElem?_reverse (by simpa using hj), List.length_range,
    List.getElem?_range hplace]
  rfl

theorem isText_spelling (s : WordSet W) (zero one : Char) : IsText s zero one (s.spelling zero one) where
  digits := digits_eq_spelling s zero one
  length := length_spelling s zero one
  place _ hj := getElem?_spelling s zero one hj
  writeTo before := by rw [writeTo_eq, Sink.write_unbounded]

/-! ## Reading -/

/-- The number of a text in which `one` marks the places that count. In a text of `n` characters
place `j` counts for `2 ^ (n - 1 - j)`. -/
def placeValue (one : Char) (cs : List Char) : ℕ :=
  ∑ j ∈ Finset.range cs.length, if cs[j]? = some one then 2 ^ (cs.length - 1 - j) else 0

/-- The places of the ones give the number of the set. -/
theorem placeValue_spelling (h : zero ≠ one) (s : WordSet W) :
    placeValue one (s.spelling zero one) = s.word.toNat := by
  -- the value of a position, which stands at the place that mirrors it
  let value : ℕ → ℕ := fun i => if s.word.getLsbD i = true then 2 ^ i else 0
  have hplace : ∀ j ∈ Finset.range W.bits,
      (if (s.spelling zero one)[j]? = some one then 2 ^ (W.bits - 1 - j) else 0) =
        value (W.bits - 1 - j) := by
    intro j hj
    rw [getElem?_spelling s zero one (Finset.mem_range.1 hj)]
    cases hbit : s.word.getLsbD (W.bits - 1 - j) <;> simp [value, hbit, h]
  calc placeValue one (s.spelling zero one)
      = ∑ j ∈ Finset.range W.bits, value (W.bits - 1 - j) := by
        rw [placeValue, length_spelling, Finset.sum_congr rfl hplace]
    _ = ∑ i ∈ Finset.range W.bits, value i := Finset.sum_range_reflect value W.bits
    _ = number (support s.word) := by rw [support_eq_filter, number, Finset.sum_filter]
    _ = s.word.toNat := number_support s.word

/-- Read on from a number, the digits of the positions below `k` put `k` more bits behind it. -/
theorem readDigits?_below (h : zero ≠ one) (s : WordSet W) : ∀ k n : ℕ,
    readDigits? zero one ((List.range k).reverse.map fun i => if s.word.getLsbD i then one else zero) n =
      some (n * 2 ^ k + s.word.toNat % 2 ^ k)
  | 0, n => by simp [readDigits?, Nat.mod_one]
  | k + 1, n => by
    have hbit : s.word.getLsbD k = decide (s.word.toNat / 2 ^ k % 2 = 1) :=
      Nat.testBit_eq_decide_div_mod_eq
    rw [List.range_succ, List.reverse_append, List.reverse_singleton, List.singleton_append,
      List.map_cons, readDigits?, Nat.mod_pow_succ, Nat.pow_succ]
    rcases Nat.mod_two_eq_zero_or_one (s.word.toNat / 2 ^ k) with hmod | hmod
    · simp only [hbit, hmod, Nat.zero_ne_one, decide_false, Bool.false_eq_true, ↓reduceIte, h]
      rw [readDigits?_below h s k]
      congr 1
      ring
    · simp only [hbit, hmod, decide_true, ↓reduceIte]
      rw [readDigits?_below h s k]
      congr 1
      ring

/-- The text of a set is read as the set. -/
theorem ofDigits?_spelling (h : zero ≠ one) (s : WordSet W) :
    ofDigits? zero one (s.spelling zero one) = some s := by
  have hmod : s.word.toNat % 2 ^ W.bits = s.word.toNat := Nat.mod_eq_of_lt s.word.isLt
  have hread := readDigits?_below h s W.bits 0
  rw [hmod, Nat.zero_mul, Nat.zero_add] at hread
  unfold ofDigits?
  rw [if_pos (length_spelling s zero one)]
  show (readDigits? zero one (s.spelling zero one) 0).map _ = _
  rw [spelling, hread, Option.map_some, BitVec.ofNat_toNat, BitVec.setWidth_eq, ofWord_word]

theorem spelling_injective (h : zero ≠ one) :
    Function.Injective fun s : WordSet W => s.spelling zero one := by
  intro s t hst
  have hread := congrArg (ofDigits? (W := W) zero one) hst
  beta_reduce at hread
  rw [ofDigits?_spelling h, ofDigits?_spelling h] at hread
  exact Option.some.inj hread

/-- Only texts in the two characters can be read. -/
theorem mem_of_readDigits? : ∀ (cs : List Char) (n m : ℕ), readDigits? zero one cs n = some m →
    ∀ c ∈ cs, c = zero ∨ c = one
  | [], _, _, _, _, hc => nomatch hc
  | d :: ds, n, m, hread, c, hc => by
    rw [readDigits?] at hread
    split at hread
    · rcases List.mem_cons.1 hc with rfl | hc
      · exact .inr ‹_›
      · exact mem_of_readDigits? ds _ m hread c hc
    · split at hread
      · rcases List.mem_cons.1 hc with rfl | hc
        · exact .inl ‹_›
        · exact mem_of_readDigits? ds _ m hread c hc
      · cases hread

/-- The set that has the positions of the ones as its members has the given text. -/
theorem exists_spelling_eq {ds : List Char} (hlength : ds.length = W.bits)
    (hds : ∀ c ∈ ds, c = zero ∨ c = one) : ∃ s : WordSet W, s.spelling zero one = ds := by
  let S : Finset ℕ := (Finset.range W.bits).filter fun i => ds[W.bits - 1 - i]? = some one
  have hS : support (BitVec.ofNat W.bits (number S)) = S :=
    support_ofNat_number (Finset.filter_subset _ _)
  refine ⟨ofWord (BitVec.ofNat W.bits (number S)), List.ext_getElem? fun j => ?_⟩
  by_cases hj : j < W.bits
  · have hmirror : W.bits - 1 - (W.bits - 1 - j) = j := by omega
    have hlt : W.bits - 1 - j < W.bits := by omega
    have hget : ds[j]? = some ds[j] := List.getElem?_eq_getElem (by omega)
    have hbit : (BitVec.ofNat W.bits (number S)).getLsbD (W.bits - 1 - j) = true ↔ ds[j] = one := by
      rw [← mem_support, hS, Finset.mem_filter, Finset.mem_range, hmirror, hget, Option.some_inj]
      exact and_iff_right hlt
    rw [getElem?_spelling _ _ _ hj, word_ofWord, hget]
    by_cases hone : ds[j] = one
    · rw [if_pos (hbit.2 hone), hone]
    · rw [if_neg (mt hbit.1 hone)]
      exact congrArg some ((hds _ (List.getElem_mem _)).resolve_right hone).symm
  · rw [List.getElem?_eq_none (by rw [length_spelling]; omega), List.getElem?_eq_none (by omega)]

theorem count_spelling (h : zero ≠ one) (s : WordSet W) :
    (s.spelling zero one).count one = s.word.cpop.toNat := by
  have hone : ((· == one) ∘ fun i => if s.word.getLsbD i then one else zero) = s.word.getLsbD := by
    funext i
    cases hbit : s.word.getLsbD i <;> simp [hbit, h]
  rw [spelling, List.count_eq_countP, List.countP_map, hone, List.countP_reverse, countP_range_eq_cpop]

/-- What a text tells when its two characters differ. -/
structure Legible (e : Engine) (s : WordSet W) (zero one : Char) (cs : List Char) : Prop where
  value : placeValue one cs = s.word.toNat
  count : s.count e = .ok (cs.count one)
  read : ∀ ds, ofDigits? zero one ds = some s ↔ s.digits zero one = .ok ds
  unique : ∀ ds : List Char, ds.length = W.bits → (∀ c ∈ ds, c = zero ∨ c = one) →
    ∃! t : WordSet W, t.digits zero one = .ok ds

theorem legible_spelling (h : zero ≠ one) (s : WordSet W) :
    Legible .direct s zero one (s.spelling zero one) := by
  constructor
  case value => exact placeValue_spelling h s
  case count =>
    rw [count_spelling h]
    rfl
  case read =>
    intro ds
    rw [digits_eq_spelling]
    constructor
    · intro hread
      -- what can be read is the text of a set, which is read as this set
      unfold ofDigits? at hread
      split at hread
      case isFalse => cases hread
      rename_i hlength
      obtain ⟨n, hn, -⟩ := Option.map_eq_some_iff.1 hread
      obtain ⟨t, rfl⟩ := exists_spelling_eq hlength (mem_of_readDigits? ds 0 n hn)
      have hback := ofDigits?_spelling h t
      unfold ofDigits? at hback
      rw [if_pos hlength, hread] at hback
      rw [Option.some.inj hback]
    · intro hds
      cases hds
      exact ofDigits?_spelling h s
  case unique =>
    intro ds hlength hds
    obtain ⟨t, rfl⟩ := exists_spelling_eq hlength hds
    refine ⟨t, digits_eq_spelling t zero one, fun u hu => ?_⟩
    have hdigits : u.digits zero one = .ok (t.spelling zero one) := hu
    rw [digits_eq_spelling] at hdigits
    exact spelling_injective h (Except.ok.inj hdigits)

end WordSet

/-! ## Layouts -/

namespace Format

/-- A layout that asks for the text of a value, and not for its structure. -/
def AsksText (f : Format) : Prop := f.style = .display ∨ f.style = .binary

/-- A layout that asks for the structure of a value. -/
def AsksStructure (f : Format) : Prop := ∃ radix, f.style = .debug radix

instance (f : Format) : Decidable f.AsksText :=
  inferInstanceAs (Decidable (f.style = .display ∨ f.style = .binary))

/-- Placeholders that ask for a text, bare and with each kind of flag. -/
def textPlaceholders : List String :=
  ["\x7b\x7d", "\x7b:140\x7d", "\x7b:>140\x7d", "\x7b:^140\x7d", "\x7b:0140\x7d", "\x7b:+\x7d",
    "\x7b:.3\x7d", "\x7b:#\x7d", "\x7b:b\x7d", "\x7b:#b\x7d", "\x7b:0140b\x7d"]

/-- Placeholders that ask for the structure of a value. -/
def structurePlaceholders : List String :=
  ["\x7b:?\x7d", "\x7b:#?\x7d", "\x7b:x?\x7d", "\x7b:140?\x7d"]

theorem asksStructure_iff (f : Format) : f.AsksStructure ↔ ¬ f.AsksText := by
  unfold AsksStructure AsksText
  cases f.style <;> simp

theorem asksText_placeholder {spec : String} (h : spec ∈ textPlaceholders) :
    ∃ f, parse? spec.toList = some f ∧ f.AsksText := by
  have hall : ∀ spec ∈ textPlaceholders,
      ((parse? spec.toList).any fun f => decide f.AsksText) = true := by decide
  simpa using (Option.any_eq_true _ _).1 (hall spec h)

theorem asksStructure_placeholder {spec : String} (h : spec ∈ structurePlaceholders) :
    ∃ f, parse? spec.toList = some f ∧ f.AsksStructure := by
  have hall : ∀ spec ∈ structurePlaceholders,
      ((parse? spec.toList).any fun f => decide ¬ f.AsksText) = true := by decide
  simpa [asksStructure_iff] using (Option.any_eq_true _ _).1 (hall spec h)

end Format

namespace WordSet

theorem text_eq_spelling (s : WordSet W) : s.text = .ok (s.spelling '0' '1') :=
  digits_eq_spelling s '0' '1'

theorem text?_of_asksText {f : Format} (hf : f.AsksText) (s : WordSet W) :
    Shown.text? f (.set s) = .ok (some (s.spelling '0' '1')) := by
  unfold Shown.text?
  rcases hf with hf | hf <;>
    · rw [hf]
      simp only [text_eq_spelling]
      rfl

theorem text?_of_asksStructure {f : Format} (hf : f.AsksStructure) (s : WordSet W) :
    Shown.text? f (.set s) = .ok (some ("BitSet(".toList ++ s.spelling '0' '1' ++ ")".toList)) := by
  obtain ⟨radix, hf⟩ := hf
  unfold Shown.text?
  rw [hf]
  simp only [bracketed, text_eq_spelling]
  rfl

/-- What a set is shown as. Nothing of a layout counts but whether it asks for the structure. -/
structure ShownAs (s : WordSet W) (cs : List Char) : Prop where
  text : ∀ f : Format, f.AsksText → Shown.text? f (.set s) = .ok (some cs)
  bracketed : ∀ f : Format, f.AsksStructure →
    Shown.text? f (.set s) = .ok (some ("BitSet(".toList ++ cs ++ ")".toList))
  text_placeholder : ∀ spec ∈ Format.textPlaceholders, ∃ f, Format.parse? spec.toList = some f ∧
    Shown.text? f (.set s) = .ok (some cs)
  bracketed_placeholder : ∀ spec ∈ Format.structurePlaceholders, ∃ f,
    Format.parse? spec.toList = some f ∧
      Shown.text? f (.set s) = .ok (some ("BitSet(".toList ++ cs ++ ")".toList))

theorem shownAs_spelling (s : WordSet W) : ShownAs s (s.spelling '0' '1') := by
  constructor
  case text => exact fun _ hf => text?_of_asksText hf s
  case bracketed => exact fun _ hf => text?_of_asksStructure hf s
  case text_placeholder =>
    intro spec hspec
    obtain ⟨f, hparse, hf⟩ := Format.asksText_placeholder hspec
    exact ⟨f, hparse, text?_of_asksText hf s⟩
  case bracketed_placeholder =>
    intro spec hspec
    obtain ⟨f, hparse, hf⟩ := Format.asksStructure_placeholder hspec
    exact ⟨f, hparse, text?_of_asksStructure hf s⟩

/-! ## Sets and texts -/

/-- The text of a set in two characters, and what the set is shown as. -/
structure HasText (e : Engine) (s : WordSet W) (zero one : Char) : Prop where
  text : ∃ cs, IsText s zero one cs ∧ (zero ≠ one → Legible e s zero one cs) ∧
    (zero = one → ∀ t : WordSet W, t.digits zero one = .ok cs)
  shown : ∃ cs, s.digits '0' '1' = .ok cs ∧ ShownAs s cs

/-- In every build, sets and texts in two characters correspond one to one. -/
theorem text_one_to_one (portable : Bool) (s : WordSet W) (zero one : Char) :
    HasText (.select portable) s zero one := by
  rw [Engine.select_eq_direct]
  constructor
  case text =>
    refine ⟨s.spelling zero one, isText_spelling s zero one, fun h => legible_spelling h s, ?_⟩
    rintro rfl t
    rw [digits_eq_spelling]
    simp [spelling]
  case shown => exact ⟨s.spelling '0' '1', digits_eq_spelling s '0' '1', shownAs_spelling s⟩

end WordSet

end Wordwise
