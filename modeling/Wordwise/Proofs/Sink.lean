/-
Writing into a sink that may refuse. A sink without a capacity takes every text. One with a capacity
takes the longest prefix of the text that fits in it, counted in bytes of UTF-8: the first character
that does not fit ends the writing, also when a shorter one after it would fit. So it takes all of a
text exactly when the text is not too long, and a larger sink takes at least as much.
-/
import Wordwise.Proofs.Digits
import Wordwise.Proofs.Engine.Agreement
import Wordwise.Text.Sink

namespace Wordwise

namespace Sink

/-! ## Bytes -/

theorem byteLength_eq : ∀ cs : List Char, byteLength cs = (String.ofList cs).utf8ByteSize
  | [] => rfl
  | c :: cs => by
    have hsplit : String.ofList (c :: cs) = String.singleton c ++ String.ofList cs := by
      rw [String.singleton_eq_ofList, ← String.ofList_append]
      rfl
    rw [byteLength_cons, byteLength_eq cs, hsplit, String.utf8ByteSize_append, String.utf8ByteSize_singleton]

/-- Where each character is one of two, their bytes are counted by counting one of them. -/
theorem byteLength_map_ite (p : Nat → Bool) (zero one : Char) : ∀ l : List Nat,
    byteLength (l.map fun i => if p i then one else zero) =
      (l.length - l.countP p) * zero.utf8Size + l.countP p * one.utf8Size
  | [] => by simp
  | i :: l => by
    have hle : l.countP p ≤ l.length := List.countP_le_length
    have ih := byteLength_map_ite p zero one l
    rw [List.map_cons, byteLength_cons, ih, List.length_cons]
    cases hi : p i with
    | true =>
      rw [if_pos rfl, List.countP_cons_of_pos hi, Nat.add_sub_add_right, Nat.succ_mul]
      omega
    | false =>
      rw [if_neg Bool.false_ne_true, List.countP_cons_of_neg (by simp [hi]), Nat.succ_sub hle, Nat.succ_mul]
      omega

/-! ## The longest prefix that fits -/

/-- The longest prefix of a text that takes at most `room` bytes. -/
structure LongestFit (room : Nat) (text taken : List Char) : Prop where
  isPrefix : taken <+: text
  fits : (String.ofList taken).utf8ByteSize ≤ room
  longest : ∀ v, v <+: text → (String.ofList v).utf8ByteSize ≤ room → v <+: taken

namespace LongestFit

variable {room : Nat} {c : Char} {text taken : List Char}

theorem nil (room : Nat) : LongestFit room [] [] where
  isPrefix := List.prefix_refl []
  fits := Nat.zero_le room
  longest _ hv _ := hv

/-- A character that fits is taken, and the rest has what it leaves of the room. -/
theorem cons (hc : c.utf8Size ≤ room) (h : LongestFit (room - c.utf8Size) text taken) :
    LongestFit room (c :: text) (c :: taken) where
  isPrefix := List.cons_prefix_cons.2 ⟨rfl, h.isPrefix⟩
  fits := by
    have hfits := h.fits
    rw [← byteLength_eq] at hfits ⊢
    rw [byteLength_cons]
    omega
  longest v hv hfits := by
    rcases List.prefix_cons_iff.1 hv with rfl | ⟨u, rfl, hu⟩
    · exact List.nil_prefix
    · rw [← byteLength_eq, byteLength_cons] at hfits
      refine List.cons_prefix_cons.2 ⟨rfl, h.longest u hu ?_⟩
      rw [← byteLength_eq]
      omega

/-- Nothing is taken when the first character does not fit, whatever follows it. -/
theorem refused (hc : room < c.utf8Size) : LongestFit room (c :: text) [] where
  isPrefix := List.nil_prefix
  fits := Nat.zero_le room
  longest v hv hfits := by
    rcases List.prefix_cons_iff.1 hv with rfl | ⟨u, rfl, -⟩
    · exact List.nil_prefix
    · rw [← byteLength_eq, byteLength_cons] at hfits
      omega

theorem eq_text_iff (h : LongestFit room text taken) :
    taken = text ↔ (String.ofList text).utf8ByteSize ≤ room := by
  constructor
  · rintro rfl
    exact h.fits
  · intro hfits
    have hback := h.longest text (List.prefix_refl text) hfits
    exact h.isPrefix.eq_of_length_le hback.length_le

/-- What is taken ends where the next character does not fit any more. -/
theorem eq_iff_next_refused (h : LongestFit room text taken) {before rest : List Char}
    (htext : text = before ++ c :: rest) :
    taken = before ↔ (String.ofList before).utf8ByteSize ≤ room ∧
      room < (String.ofList (before ++ [c])).utf8ByteSize := by
  have hnext : before ++ [c] <+: text := ⟨rest, by simp [htext]⟩
  constructor
  · rintro rfl
    refine ⟨h.fits, Nat.lt_of_not_le fun hle => ?_⟩
    have hlength := (h.longest _ hnext hle).length_le
    rw [List.length_append, List.length_singleton] at hlength
    omega
  · rintro ⟨hfits, hrefused⟩
    have hbefore := h.longest before (List.IsPrefix.trans ⟨[c], rfl⟩ hnext) hfits
    refine (hbefore.eq_of_length_le (Nat.le_of_not_lt fun hlt => ?_)).symm
    -- more than `before` would have the refused character in it
    have hmore : before ++ [c] <+: taken :=
      List.prefix_of_prefix_length_le hnext h.isPrefix (by simp; omega)
    obtain ⟨more, hmore⟩ := hmore
    have hlarge := h.fits
    rw [← hmore, ← byteLength_eq, byteLength_append] at hlarge
    rw [← byteLength_eq] at hrefused
    omega

theorem prefix_of_le {room' : Nat} {taken' : List Char} (h : LongestFit room text taken)
    (h' : LongestFit room' text taken') (hle : room ≤ room') : taken <+: taken' :=
  h'.longest taken h.isPrefix (Nat.le_trans h.fits hle)

end LongestFit

/-! ## Writing -/

theorem push?_fits {cap : Nat} {before : List Char} {c : Char}
    (h : byteLength before + c.utf8Size ≤ cap) :
    (⟨some cap, before⟩ : Sink).push? c = some ⟨some cap, before ++ [c]⟩ := if_pos h

theorem push?_refused {cap : Nat} {before : List Char} {c : Char}
    (h : ¬ byteLength before + c.utf8Size ≤ cap) : (⟨some cap, before⟩ : Sink).push? c = none := if_neg h

/-- A sink with a capacity takes what fits in the room that it has left. -/
theorem write_bounded (cap : Nat) : ∀ cs before : List Char, byteLength before ≤ cap →
    ∃ taken ok, (⟨some cap, before⟩ : Sink).write cs = (⟨some cap, before ++ taken⟩, ok) ∧
      (ok = true ↔ taken = cs) ∧ LongestFit (cap - byteLength before) cs taken
  | [], before, _ => ⟨[], true, by simp [write], by simp, .nil _⟩
  | c :: cs, before, hbefore => by
    by_cases hc : byteLength before + c.utf8Size ≤ cap
    · have hlength : byteLength (before ++ [c]) = byteLength before + c.utf8Size := by simp
      obtain ⟨taken, ok, hwrite, hok, hfit⟩ := write_bounded cap cs (before ++ [c]) (by omega)
      rw [hlength, Nat.sub_add_eq] at hfit
      refine ⟨c :: taken, ok, ?_, by simp [hok], hfit.cons (by omega)⟩
      rw [write, push?_fits hc]
      simp [hwrite]
    · refine ⟨[], false, ?_, by simp, .refused (by omega)⟩
      rw [write, push?_refused hc]
      simp

end Sink

namespace WordSet

variable {W : Width}

/-! ## Sets -/

theorem byteLength_spelling (s : WordSet W) (zero one : Char) :
    Sink.byteLength (s.spelling zero one) =
      (W.bits - s.word.cpop.toNat) * zero.utf8Size + s.word.cpop.toNat * one.utf8Size := by
  unfold spelling
  rw [Sink.byteLength_map_ite, List.countP_reverse, countP_range_eq_cpop, List.length_reverse,
    List.length_range]

/-- What a sink that takes `cap` bytes has of the digits of a set in the end. -/
structure FillsSink (e : Engine) (s : WordSet W) (zero one : Char) (cap : Nat) (text taken : List Char)
    (ok : Bool) : Prop where
  digits : s.digits zero one = .ok text
  writeTo : s.writeTo (.bounded cap) zero one = .ok (⟨some cap, taken⟩, ok)
  longest : Sink.LongestFit cap text taken
  whole : ok = true ↔ taken = text
  whole_bytes : ∃ n, s.count e = .ok n ∧
    (ok = true ↔ (W.bits - n) * zero.utf8Size + n * one.utf8Size ≤ cap)
  stops : ∀ before c rest, text = before ++ c :: rest →
    (taken = before ↔ (String.ofList before).utf8ByteSize ≤ cap ∧
      cap < (String.ofList (before ++ [c])).utf8ByteSize)
  grows : ∀ cap', cap ≤ cap' → ∃ taken' ok',
    s.writeTo (.bounded cap') zero one = .ok (⟨some cap', taken'⟩, ok') ∧ taken <+: taken'

/-- In every build, a sink takes the longest prefix of the digits of a set that fits in it. -/
theorem fills_sink (portable : Bool) (s : WordSet W) (zero one : Char) (cap : Nat) :
    ∃ text taken ok, FillsSink (.select portable) s zero one cap text taken ok := by
  rw [Engine.select_eq_direct]
  have hwrite := fun room => Sink.write_bounded room (s.spelling zero one) [] (Nat.zero_le room)
  obtain ⟨taken, ok, htaken, hok, hfit⟩ := hwrite cap
  refine ⟨s.spelling zero one, taken, ok, ?_⟩
  constructor
  case digits => exact digits_eq_spelling s zero one
  case writeTo =>
    rw [writeTo_eq]
    exact congrArg Except.ok htaken
  case longest => exact hfit
  case whole => exact hok
  case whole_bytes =>
    refine ⟨_, rfl, ?_⟩
    rw [hok, hfit.eq_text_iff, ← Sink.byteLength_eq, byteLength_spelling]
    rfl
  case stops => exact fun _ _ _ htext => hfit.eq_iff_next_refused htext
  case grows =>
    intro cap' hle
    obtain ⟨taken', ok', htaken', -, hfit'⟩ := hwrite cap'
    refine ⟨taken', ok', ?_, hfit.prefix_of_le hfit' hle⟩
    rw [writeTo_eq]
    exact congrArg Except.ok htaken'

/-- Two bytes are too much for the first digit, and the last one, which would fit, is not written. -/
example : (ofWord 1 : WordSet .w8).writeTo (.bounded 1) 'é' '1' = .ok (⟨some 1, []⟩, false) := by
  cbv

end WordSet

end Wordwise
