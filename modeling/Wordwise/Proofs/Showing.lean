/-
Shown values are never confused: a layout gives every value of a kind a text, and different values of
the kind different texts. Sets are told apart by their digits whatever the layout, and positions by
their plain decimals. All else is shown as a record, and two records of a kind differ in their numbers
only, so that their texts are as different as the numbers that are laid out in them.
-/
import Wordwise.Proofs.Numbers
import Wordwise.Proofs.Refusals
import Wordwise.Proofs.Spelling

namespace Wordwise

/-! ## Records -/

namespace Record

/-- Two records of the same names, with numbers that are closer to each other than their bits reach. -/
inductive SameShape : Record → Record → Prop where
  | number {bits : ℕ} {i j : ℤ} (hclose : (i - j).natAbs < 2 ^ bits) :
    SameShape (.number bits i) (.number bits j)
  | field {name label : String} {r s : Record} (h : SameShape r s) :
    SameShape (.field name label r) (.field name label s)

variable {f : Format} {radix : Radix} {r s : Record}

theorem SameShape.eq_of_line_eq (hf : f.Spares radix) (h : SameShape r s)
    (hline : r.line f radix = s.line f radix) : r = s := by
  induction h with
  | number hclose => rw [Format.number_inj hf hclose hline]
  | field _ ih =>
    have hclosed := List.append_cancel_right hline
    rw [ih (List.append_cancel_left hclosed)]

theorem SameShape.eq_of_lines_eq (hf : f.Spares radix) (h : SameShape r s) {depth : ℕ}
    (hlines : r.lines f radix depth = s.lines f radix depth) : r = s := by
  induction h generalizing depth with
  | number hclose => rw [Format.number_inj hf hclose hlines]
  | field _ ih =>
    -- behind the inner record stand a comma, an indent and a brace
    have hcomma := List.append_cancel_right (List.append_cancel_right hlines)
    have hclosed := List.append_cancel_right hcomma
    rw [ih (List.append_cancel_left hclosed)]

theorem SameShape.eq_of_text_eq (hf : f.Spares radix) (h : SameShape r s)
    (htext : r.text f radix = s.text f radix) : r = s := by
  unfold text at htext
  split at htext
  · exact h.eq_of_lines_eq hf htext
  · exact h.eq_of_line_eq hf htext

end Record

theorem Position.natAbs_sub_lt (p q : Position) : (p.val - q.val).natAbs < 2 ^ 16 := by
  have := p.lo; have := p.hi; have := q.lo; have := q.hi
  omega

theorem Position.sameShape_constantRecord (p q : Position) :
    Record.SameShape p.constantRecord q.constantRecord :=
  .field (.number (p.natAbs_sub_lt q))

theorem Position.constantRecord_injective : Function.Injective Position.constantRecord := by
  intro p q h
  simp only [constantRecord, Record.field.injEq, Record.number.injEq, true_and] at h
  exact Position.ext h

theorem Position.sameShape_record (p q : Position) : Record.SameShape p.record q.record :=
  .field (p.sameShape_constantRecord q)

theorem Position.record_injective : Function.Injective Position.record := by
  intro p q h
  simp only [record, Record.field.injEq, true_and] at h
  exact constantRecord_injective h

variable {W : Width}

theorem sameShape_wordRecord (name label : String) (a b : Word W) :
    Record.SameShape (wordRecord name label a) (wordRecord name label b) := by
  have ha := a.isLt
  have hb := b.isLt
  exact .field (.number (by omega))

theorem wordRecord_injective (name label : String) :
    Function.Injective (wordRecord name label : Word W → Record) := by
  intro a b h
  simp only [wordRecord, Record.field.injEq, Record.number.injEq, true_and, Nat.cast_inj] at h
  exact BitVec.eq_of_toNat_eq h

/-! ## Values -/

/-- The structure that a value is shown by. A set has none. -/
def Shown.record? : Shown W → Option Record
  | set _ => none
  | coordinate p => some p.record
  | constant p => some p.constantRecord
  | mask m => some m.record
  | singles c => some c.record
  | members q => some q.record

theorem Shown.text?_of_record {f : Format} {radix : Radix} (hstyle : f.style = .debug radix)
    {v : Shown W} {r : Record} (h : v.record? = some r) : v.text? f = .ok (some (r.text f radix)) := by
  unfold text?
  rw [hstyle]
  cases v <;> cases h <;> rfl

/-- Under this layout every value of a kind has a text, and no two have the same. -/
structure Format.Distinguishes {α : Type} (f : Format) (kind : α → Shown W) : Prop where
  shows : ∀ a, ∃ cs, Shown.text? f (kind a) = .ok (some cs)
  injective : Function.Injective fun a => Shown.text? f (kind a)

namespace Format

variable {f : Format} {radix : Radix} {α : Type} {kind : α → Shown W}

theorem distinguishes_of_text {text : α → List Char}
    (htext : ∀ a, Shown.text? f (kind a) = .ok (some (text a))) (hinj : Function.Injective text) :
    f.Distinguishes kind where
  shows a := ⟨text a, htext a⟩
  injective a b hab := by
    beta_reduce at hab
    rw [htext, htext] at hab
    exact hinj (Option.some.inj (Except.ok.inj hab))

/-- A kind whose structures differ in their numbers only. -/
theorem distinguishes_of_record (hstyle : f.style = .debug radix) (hf : f.Spares radix)
    {record : α → Record} (hrecord : ∀ a, (kind a).record? = some (record a))
    (hshape : ∀ a b, Record.SameShape (record a) (record b)) (hinj : Function.Injective record) :
    f.Distinguishes kind :=
  distinguishes_of_text (fun a => Shown.text?_of_record hstyle (hrecord a)) fun a b hab =>
    hinj ((hshape a b).eq_of_text_eq hf hab)

theorem distinguishes_of_word (hstyle : f.style = .debug radix) (hf : f.Spares radix)
    {name label : String} {word : α → Word W} (hinj : Function.Injective word)
    (hrecord : ∀ a, (kind a).record? = some (wordRecord name label (word a))) : f.Distinguishes kind :=
  distinguishes_of_record hstyle hf hrecord
    (fun a b => sameShape_wordRecord name label (word a) (word b))
    ((wordRecord_injective name label).comp hinj)

/-- Sets are told apart in every layout. -/
theorem distinguishes_set (f : Format) : f.Distinguishes (.set : WordSet W → Shown W) := by
  have hspelling := WordSet.spelling_injective (W := W) (show '0' ≠ '1' by decide)
  by_cases hf : f.AsksText
  · exact distinguishes_of_text (WordSet.text?_of_asksText hf) hspelling
  · refine distinguishes_of_text (WordSet.text?_of_asksStructure ((asksStructure_iff f).2 hf)) ?_
    intro s t hst
    exact hspelling (List.append_cancel_left (List.append_cancel_right hst))

theorem decimal_eq_toList (i : ℤ) : decimal i = (toString i).toList := by
  rw [← ofList_decimal, String.toList_ofList]

theorem text?_coordinate (hf : f.style = .display) (p : Position) :
    Shown.text? f (.coordinate p : Shown W) = .ok (some (toString p.val).toList) := by
  unfold Shown.text?
  rw [hf, ← decimal_eq_toList]
  rfl

theorem distinguishes_coordinate (hf : f.style = .display) :
    f.Distinguishes (.coordinate : Position → Shown W) := by
  refine distinguishes_of_text (text?_coordinate hf) fun p q hpq => ?_
  rw [← decimal_eq_toList, ← decimal_eq_toList] at hpq
  exact Position.ext (decimal_injective hpq)

/-- Under this layout values are told apart by their structures, for each kind that has one. -/
structure TellsStructures (f : Format) (W : Width) : Prop where
  coordinate : f.Distinguishes (.coordinate : Position → Shown W)
  constant : f.Distinguishes (.constant : Position → Shown W)
  mask : f.Distinguishes (.mask : Mask W → Shown W)
  singles : f.Distinguishes (.singles : Singles W → Shown W)
  members : f.Distinguishes (.members : Members W → Shown W)

theorem tellsStructures (hstyle : f.style = .debug radix) (hf : f.Spares radix) (W : Width) :
    f.TellsStructures W where
  coordinate :=
    distinguishes_of_record hstyle hf (fun _ => rfl) Position.sameShape_record Position.record_injective
  constant :=
    distinguishes_of_record hstyle hf (fun _ => rfl) Position.sameShape_constantRecord
      Position.constantRecord_injective
  mask := distinguishes_of_word hstyle hf (fun _ _ => Mask.ext) fun _ => rfl
  singles := distinguishes_of_word hstyle hf (fun _ _ => Singles.ext) fun _ => rfl
  members := distinguishes_of_word hstyle hf (fun _ _ => Members.ext) fun _ => rfl

/-! ## Placeholders -/

/-- Placeholders that ask for the text of a position. -/
def coordinatePlaceholders : List String :=
  ["\x7b\x7d", "\x7b:6\x7d", "\x7b:<6\x7d", "\x7b:+\x7d", "\x7b:06\x7d", "\x7b:#\x7d"]

/-- Placeholders that ask for a structure and lay out the number in it. -/
def numberPlaceholders : List String :=
  ["\x7b:?\x7d", "\x7b:#?\x7d", "\x7b:x?\x7d", "\x7b:#X?\x7d", "\x7b:6?\x7d", "\x7b:<6?\x7d",
    "\x7b:+?\x7d", "\x7b:06?\x7d"]

theorem display_placeholder {spec : String} (h : spec ∈ coordinatePlaceholders) :
    ∃ f, parse? spec.toList = some f ∧ f.style = .display := by
  have hall : ∀ spec ∈ coordinatePlaceholders,
      ((parse? spec.toList).any fun f => decide (f.style = .display)) = true := by decide
  simpa using (Option.any_eq_true _ _).1 (hall spec h)

theorem blank_placeholder {spec : String} (h : spec ∈ numberPlaceholders) :
    ∃ f, parse? spec.toList = some f ∧ f.AsksStructure ∧ f.fill = ' ' := by
  have hall : ∀ spec ∈ numberPlaceholders,
      ((parse? spec.toList).any fun f => decide (¬ f.AsksText ∧ f.fill = ' ')) = true := by decide
  simpa [asksStructure_iff] using (Option.any_eq_true _ _).1 (hall spec h)

end Format

/-- No value is confused with another of its kind: no set under any layout, no position under any that
asks for its text, and no structure under any whose fill is not taken for a part of a number. The
placeholders all fill with blanks. -/
structure NeverConfused (W : Width) : Prop where
  set : ∀ f : Format, f.Distinguishes (.set : WordSet W → Shown W)
  coordinate : ∀ f : Format, f.style = .display → f.Distinguishes (.coordinate : Position → Shown W)
  decimal : ∀ f : Format, f.style = .display → ∀ p : Position,
    Shown.text? f (.coordinate p : Shown W) = .ok (some (toString p.val).toList)
  structures : ∀ (f : Format) (radix : Radix), f.style = .debug radix → f.Spares radix →
    f.TellsStructures W
  set_placeholder : ∀ spec ∈ Format.textPlaceholders ++ Format.structurePlaceholders,
    ∃ f, Format.parse? spec.toList = some f ∧ f.Distinguishes (.set : WordSet W → Shown W)
  coordinate_placeholder : ∀ spec ∈ Format.coordinatePlaceholders,
    ∃ f, Format.parse? spec.toList = some f ∧ f.Distinguishes (.coordinate : Position → Shown W)
  structure_placeholder : ∀ spec ∈ Format.numberPlaceholders,
    ∃ f, Format.parse? spec.toList = some f ∧ f.TellsStructures W

/-- In every width, the text of a value tells which one of its kind it is. -/
theorem texts_tell_values_apart (W : Width) : NeverConfused W := by
  constructor
  case set => exact Format.distinguishes_set
  case coordinate => exact fun f hf => Format.distinguishes_coordinate hf
  case decimal => exact fun f hf => Format.text?_coordinate hf
  case structures => exact fun f radix hstyle hf => Format.tellsStructures hstyle hf W
  case set_placeholder =>
    intro spec hspec
    rcases List.mem_append.1 hspec with hspec | hspec
    · obtain ⟨f, hparse, -⟩ := Format.asksText_placeholder hspec
      exact ⟨f, hparse, f.distinguishes_set⟩
    · obtain ⟨f, hparse, -⟩ := Format.asksStructure_placeholder hspec
      exact ⟨f, hparse, f.distinguishes_set⟩
  case coordinate_placeholder =>
    intro spec hspec
    obtain ⟨f, hparse, hf⟩ := Format.display_placeholder hspec
    exact ⟨f, hparse, Format.distinguishes_coordinate hf⟩
  case structure_placeholder =>
    intro spec hspec
    obtain ⟨f, hparse, ⟨radix, hstyle⟩, hfill⟩ := Format.blank_placeholder hspec
    exact ⟨f, hparse, Format.tellsStructures hstyle (.of_blank hfill) W⟩

end Wordwise
