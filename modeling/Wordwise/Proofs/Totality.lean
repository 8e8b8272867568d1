/-
What is never refused. The counts, the questions about a set, the texts, both iterators, the shifts
and the wrapping arithmetic answer for every word, in every build and in every run; a step of a set
is refused only for an operand outside the word. The checks on the way never fail: a lowest bit is
only looked for where there is one, digits are read at bits only, shifts stay below the width, the
portable counts neither overflow nor see a word that is too wide, and a scan that may start and can
read its operand stays within sixteen bits.
-/
import Wordwise.Proofs.Cursor
import Wordwise.Proofs.Queue
import Wordwise.Proofs.Scan
import Wordwise.Proofs.SetRun

namespace Wordwise

variable {W : Width}

/-- The operation is not refused. -/
def Answers {ε α : Type} (x : Except ε α) : Prop := ∃ r, x = .ok r

namespace Script

variable {σ τ ι ρ : Type} {step : σ → ι → Result σ ρ}

/-- A machine that refuses no step refuses none in a run. -/
theorem run_answers (h : ∀ s i, Answers (step s i)) : ∀ (is : List ι) (s : σ),
    ∀ out ∈ run step s is, Answers out
  | [], _, _, hout => nomatch hout
  | i :: is, s, out, hout => by
    rw [run_cons, List.mem_cons] at hout
    rcases hout with rfl | hout
    · exact h s i
    · exact run_answers h is _ out hout

theorem Shows.answers {view : σ → τ} {next : τ → ι → Outcome τ ρ} (h : Shows view step next)
    (is : List ι) (s : σ) : ∀ out ∈ run step s is, Answers out := by
  refine run_answers (fun s i => ?_) is s
  obtain ⟨s', hstep, -⟩ := h s i
  exact ⟨_, hstep⟩

theorem answers_map_iff (view : σ → τ) {x : Result σ ρ} : Answers (Result.map view x) ↔ Answers x := by
  cases x with
  | error r => exact ⟨nofun, nofun⟩
  | ok out => exact ⟨fun _ => ⟨out, rfl⟩, fun _ => ⟨out.map view, rfl⟩⟩

end Script

theorem answers_leaving_iff {σ α : Type} (s : σ) {x : Except Fault α} :
    Answers (leaving s x) ↔ Answers x := by
  simp only [Answers, leaving_eq_ok_iff]

/-! ## Counts -/

/-- The four counts of a word answer within its width. -/
structure CountsFit (e : Engine) (a : Word W) : Prop where
  trailing : ∃ n : Nat, e.trailing a = .ok n ∧ n ≤ W.bits
  leading : ∃ n : Nat, e.leading a = .ok n ∧ n ≤ W.bits
  log2 : ∃ l : Int, e.log2 a = .ok l ∧ -1 ≤ l ∧ l < W.bits
  ones : ∃ n : Nat, e.ones a = .ok n ∧ n ≤ W.bits

theorem counts_fit (a : Word W) : CountsFit .direct a := by
  have hpos := W.bits_pos
  constructor
  case trailing =>
    refine ⟨_, rfl, ?_⟩
    by_cases ha : a = 0
    · rw [ha, ctz_zero]
    · exact Nat.le_of_lt (ctz_lt ha)
  case leading =>
    refine ⟨_, rfl, ?_⟩
    by_cases ha : a = 0
    · rw [ha, clz_zero]
    · rw [clz_eq ha]
      omega
  case log2 =>
    refine ⟨_, rfl, ?_⟩
    by_cases ha : a = 0
    · rw [if_pos ha]
      omega
    · have := log2_lt ha
      rw [if_neg ha]
      omega
  case ones =>
    refine ⟨_, rfl, ?_⟩
    rw [← length_setBits]
    exact length_setBits_le a

/-- The places that only a word with a set bit comes to: one is subtracted from it, and the positions
of its extremes are bits. -/
structure NonzeroFits (e : Engine) (a : Word W) : Prop where
  below : Answers (Checked.sub a 1)
  lowest : ∃ p, Position.ofWord e a = .ok p ∧ p.isBit W
  highest : ∃ l : Nat, e.log2 a = .ok l ∧ l < W.bits ∧ shiftAmount l = l

theorem nonzero_fits {a : Word W} (ha : a ≠ 0) : NonzeroFits .direct a := by
  have hbits := W.bits_le
  constructor
  case below =>
    obtain ⟨b, hb⟩ : Answers (isPowerOfTwo a) := ⟨_, isPowerOfTwo_eq a⟩
    unfold isPowerOfTwo at hb
    rw [if_neg ha] at hb
    obtain ⟨d, hd, -⟩ := Checked.bind_eq_ok.1 hb
    exact ⟨d, hd⟩
  case lowest =>
    have hlt := ctz_lt ha
    refine ⟨.wrap a.ctz.toNat, if_neg ha, ?_⟩
    rw [Position.isBit_iff, Position.wrap_val_of_lt hlt]
    omega
  case highest =>
    have hlt := log2_lt ha
    refine ⟨a.toNat.log2, ?_, hlt, ?_⟩
    · rw [Engine.direct_log2, if_neg ha]
    · rw [shiftAmount_eq (by omega), Int.toNat_natCast]

namespace Engine.Halving

/-- The searches and the lane sums answer for every word of the widest width. -/
structure SearchesAnswer (x : BitVec 128) : Prop where
  trailing : ∀ width, Answers (trailing x width)
  log2 : Answers (log2 x)
  lanes : ∃ pairs nibbles, pairCounts x = .ok pairs ∧ nibbleCounts pairs = .ok nibbles ∧
    Answers (byteCounts nibbles)

theorem searches_answer (x : BitVec 128) : SearchesAnswer x := by
  constructor
  case trailing =>
    intro width
    by_cases hx : x = 0
    · exact ⟨width, if_pos hx⟩
    · exact ⟨_, trailing_of_ne_zero hx width⟩
  case log2 => exact ⟨_, log2_eq x⟩
  case lanes =>
    -- the count answers, so each of its stages does
    obtain ⟨pairs, hpairs, h⟩ := Checked.bind_eq_ok.1 (ones_eq x)
    obtain ⟨nibbles, hnibbles, h⟩ := Checked.bind_eq_ok.1 h
    obtain ⟨bytes, hbytes, -⟩ := Checked.bind_eq_ok.1 h
    exact ⟨pairs, nibbles, hpairs, hnibbles, bytes, hbytes⟩

/-- The leading zeros of a widened word: it fits in the width that it claims, and neither difference
leaves the range of its numbers. -/
structure LeadingFits (a : Word W) : Prop where
  width : checkWidth (wide a) W.bits = .ok ()
  top : Checked.subSigned W.bits 1 = .ok (W.bits - 1)
  count : ∃ l n, log2 (wide a) = .ok l ∧ Checked.subSigned (W.bits - 1) l = .ok n ∧
    0 ≤ n ∧ n ≤ W.bits

theorem leading_fits (a : Word W) : LeadingFits a := by
  have hpos := W.bits_pos
  have hbits := W.bits_le
  obtain ⟨l, hl, hlo, hhi⟩ := log2_fits (toNat_wide_lt a)
  constructor
  case width => exact checkWidth_eq (toNat_wide_lt a) W.bits_le
  case top => exact subSigned_eq (by omega)
  case count => exact ⟨l, W.bits - 1 - l, hl, subSigned_eq (by omega), by omega, by omega⟩

end Engine.Halving

/-! ## Sets and their texts -/

theorem answers_map_iff {ε α β : Type} {x : Except ε α} (f : α → β) :
    Answers (x.map f) ↔ Answers x := by
  cases x with
  | error c => exact ⟨nofun, nofun⟩
  | ok a => exact ⟨fun _ => ⟨a, rfl⟩, fun _ => ⟨f a, rfl⟩⟩

theorem answers_bind_iff {ε α β : Type} {x : Except ε α} {f : α → Except ε β} (hf : ∀ a, Answers (f a)) :
    Answers (x >>= f) ↔ Answers x := by
  cases x with
  | error c => exact ⟨nofun, nofun⟩
  | ok a => exact ⟨fun _ => ⟨a, rfl⟩, fun _ => hf a⟩

theorem answers_members_iff (o : Operand W) :
    Answers o.members ↔ ∀ o' ∈ some o, ∃ a, o'.Denotes a := by
  rw [← o.map_read, answers_map_iff]
  simp only [Option.mem_some_iff, forall_eq', ← Operand.read_eq_ok_iff]
  rfl

namespace WordSet

/-- The operand of a step, if it has one. -/
def Step.operand? : Step W → Option (Operand W)
  | .insert o => some o
  | .erase o => some o
  | .toggle o => some o
  | .meets o => some o
  | _ => none

/-- A step can be made when its operand, if it has one, stands for a word. -/
def Step.Readable (i : Step W) : Prop := ∀ o ∈ i.operand?, ∃ a, o.Denotes a

/-- A step of a set answers exactly when it can be made. -/
theorem step_answers_iff (s : WordSet W) (i : Step W) : Answers (step .direct s i) ↔ i.Readable := by
  have hread : ∀ o : Operand W, Answers (leaving s.view o.members) ↔ ∀ o' ∈ some o, ∃ a, o'.Denotes a :=
    fun o => (answers_leaving_iff s.view).trans (answers_members_iff o)
  rw [← Script.answers_map_iff view, step_members]
  cases i with
  | insert o => exact (answers_bind_iff fun _ => ⟨_, rfl⟩).trans (hread o)
  | erase o => exact (answers_bind_iff fun _ => ⟨_, rfl⟩).trans (hread o)
  | toggle o => exact (answers_bind_iff fun _ => ⟨_, rfl⟩).trans (hread o)
  | meets o => exact (answers_bind_iff fun _ => ⟨_, rfl⟩).trans (hread o)
  | _ =>
    refine ⟨fun _ o ho => ?_, fun _ => ⟨_, rfl⟩⟩
    cases ho

/-- In a run of a set, a step answers exactly when it can be made. -/
theorem run_answers_iff {s : WordSet W} {is : List (Step W)} {k : Nat} {i : Step W} (hi : is[k]? = some i) :
    ∃ out, (Script.run (step .direct) s is)[k]? = some out ∧ (Answers out ↔ i.Readable) :=
  ⟨_, Script.getElem?_run_eq_some_iff.2 ⟨i, hi, rfl⟩, step_answers_iff _ i⟩

/-- The questions about a set that have to look for a set bit, or to count. -/
structure QueriesAnswer (e : Engine) (s : WordSet W) : Prop where
  count : Answers (s.count e)
  isSingleton : Answers s.isSingleton
  highest : Answers (s.highest e)
  lowestPosition : Answers (s.lowestPosition e)
  highestPosition : Answers (s.highestPosition e)
  members : Answers (s.members.toList e)

theorem queries_answer (s : WordSet W) : QueriesAnswer .direct s where
  count := ⟨_, rfl⟩
  isSingleton := ⟨_, isPowerOfTwo_eq s.word⟩
  highest := by
    obtain ⟨t, ht, -⟩ := highest_eq s
    exact ⟨t, ht⟩
  lowestPosition := ⟨_, lowestPosition_eq s⟩
  highestPosition := ⟨_, highestPosition_eq s⟩
  members := ⟨_, Members.toList_eq s.members⟩

/-- The texts of a set, with any two digits, into any sink. -/
structure TextsAnswer (s : WordSet W) : Prop where
  digits : ∀ zero one, Answers (s.digits zero one)
  writeTo : ∀ out zero one, Answers (s.writeTo out zero one)

theorem texts_answer (s : WordSet W) : TextsAnswer s where
  digits zero one := ⟨_, digits_eq_spelling s zero one⟩
  writeTo out zero one := ⟨_, writeTo_eq s out zero one⟩

/-- The position one below a place above the first bit is that of a bit. -/
theorem digit_position {k : Nat} (hk : k < W.bits) :
    ∃ p, (Position.wrap (k + 1)).pred = .ok p ∧ p.isBit W := by
  have hbits := W.bits_le
  have hval : (Position.wrap (k + 1)).val = k + 1 := Position.wrap_val (by omega)
  obtain ⟨p, hpred, hp⟩ := Position.pred_spec (p := .wrap (k + 1)) (by omega)
  exact ⟨p, hpred, Position.isBit_iff.2 (by omega)⟩

/-- From the position past the last bit down to the first bit, every digit stands for a bit, from
which the next digit is looked for. -/
theorem digit_turns (s : WordSet W) (zero one : Char) {p : Position} (h0 : 0 < p.val)
    (hN : p.val ≤ W.bits) : ∃ c q, s.nextDigit zero one p = .ok (some (c, q)) ∧ q.isBit W := by
  obtain ⟨q, hq, hdigit⟩ := nextDigit_succ s zero one (k := (p.val - 1).toNat) (by omega) (p := p) (by omega)
  exact ⟨_, q, hdigit, Position.isBit_iff.2 (by omega)⟩

end WordSet

theorem Shown.answers (f : Format) (v : Shown W) : Answers (v.text? f) := by
  unfold Shown.text?
  split
  -- only the texts of a set have to be written first
  case h_1 s =>
    rw [WordSet.text_members]
    exact ⟨_, rfl⟩
  case h_2 s =>
    rw [WordSet.text_members]
    exact ⟨_, rfl⟩
  case h_3 s =>
    rw [WordSet.bracketed, WordSet.text_members]
    exact ⟨_, rfl⟩
  all_goals exact ⟨_, rfl⟩

/-! ## Scans -/

namespace Position

/-- An upward scan: the position that its shift is by, and the one that it stops at. -/
structure UpwardFits (e : Engine) (p : Position) (o : Operand W) : Prop where
  shift : ∃ q, p.add 1 = .ok q ∧ 0 ≤ q.val ∧ q.val ≤ W.bits ∧ shiftAmount q.val = q.val.toNat
  stop : ∃ q, p.next e o = .ok q ∧ 0 ≤ q.val ∧ q.val ≤ W.bits

theorem upward_fits {p : Position} {o : Operand W} {a : Word W} (ho : o.Denotes a) (h0 : -1 ≤ p.val)
    (hN : p.val < W.bits) : UpwardFits .direct p o := by
  have hbits := W.bits_le
  constructor
  case shift =>
    obtain ⟨q, hq, hval⟩ := hold_spec (c := .addOverflow) (i := p.val + 1) (by omega)
    exact ⟨q, hq, by omega, by omega, shiftAmount_eq (by omega)⟩
  case stop =>
    obtain ⟨q, hq, hleast⟩ := next_spec ho h0 hN
    have hlt : p.val < q.val := hleast.1.1
    exact ⟨q, hq, by omega, le_of_mem_stopsAbove hleast.1⟩

/-- A downward scan: the distance from the end that its shift is by, and the position that it stops
at. -/
structure DownwardFits (e : Engine) (p : Position) (o : Operand W) : Prop where
  shift : ∃ gap, (past W).sub p.val = .ok gap ∧ 0 ≤ gap.val ∧ gap.val < W.bits ∧
    shiftAmount gap.val = gap.val.toNat
  stop : ∃ q, p.prev e o = .ok q ∧ -1 ≤ q.val ∧ q.val < W.bits

theorem downward_fits {p : Position} {o : Operand W} {a : Word W} (ho : o.Denotes a) (h0 : 0 < p.val)
    (hN : p.val ≤ W.bits) : DownwardFits .direct p o := by
  have hbits := W.bits_le
  constructor
  case shift =>
    obtain ⟨gap, hgap, hval⟩ := hold_spec (c := .subtractOverflow) (i := W.bits - p.val) (by omega)
    exact ⟨gap, hgap, by omega, by omega, shiftAmount_eq (by omega)⟩
  case stop =>
    obtain ⟨q, hq, hgreatest⟩ := prev_spec ho h0 hN
    have hlt : q.val < p.val := hgreatest.1.1
    exact ⟨q, hq, le_of_mem_stopsBelow hgreatest.1, by omega⟩

end Position

/-! ## The whole library at a width -/

/-- Nothing that needs no operand is refused at this width, and no check on the way fails. -/
structure Total (e : Engine) (W : Width) : Prop where
  counts : ∀ a : Word W, CountsFit e a
  powers : ∀ a : Word W, Answers (isPowerOfTwo a)
  queries : ∀ s : WordSet W, s.QueriesAnswer e
  texts : ∀ s : WordSet W, s.TextsAnswer
  shown : ∀ (f : Format) (v : Shown W), Answers (v.text? f)
  cursors : ∀ (c : Singles W) (is : List (Singles.Step W)),
    ∀ out ∈ Script.run (Singles.step e) c is, Answers out
  queues : ∀ (q : Members W) (is : List Members.Step),
    ∀ out ∈ Script.run (Members.step e) q is, Answers out
  sets : ∀ (s : WordSet W) (is : List (WordSet.Step W)) (k : Nat) (i : WordSet.Step W),
    is[k]? = some i → ∃ out, (Script.run (WordSet.step e) s is)[k]? = some out ∧
      (Answers out ↔ i.Readable)
  nonzero : ∀ a : Word W, a ≠ 0 → NonzeroFits e a
  digits : ∀ k < W.bits, ∃ p, (Position.wrap (k + 1)).pred = .ok p ∧ p.isBit W
  turns : ∀ (s : WordSet W) (zero one : Char) (p : Position), 0 < p.val → p.val ≤ W.bits →
    ∃ c q, s.nextDigit zero one p = .ok (some (c, q)) ∧ q.isBit W
  searches : ∀ x : BitVec 128, Engine.Halving.SearchesAnswer x
  leading : ∀ a : Word W, Engine.Halving.LeadingFits a
  upward : ∀ (p : Position) (o : Operand W) (a : Word W), o.Denotes a →
    -1 ≤ p.val → p.val < W.bits → p.UpwardFits e o
  downward : ∀ (p : Position) (o : Operand W) (a : Word W), o.Denotes a →
    0 < p.val → p.val ≤ W.bits → p.DownwardFits e o

/-- Every build is total at every width. -/
theorem builds_total (portable : Bool) (W : Width) : Total (.select portable) W := by
  rw [Engine.select_eq_direct]
  constructor
  case counts => exact counts_fit
  case powers => exact fun a => ⟨_, isPowerOfTwo_eq a⟩
  case queries => exact WordSet.queries_answer
  case texts => exact WordSet.texts_answer
  case shown => exact Shown.answers
  case cursors => exact fun c is => Singles.step_shows.answers is c
  case queues => exact fun q is => Members.step_shows.answers is q
  case sets => exact fun _ _ _ _ hi => WordSet.run_answers_iff hi
  case nonzero => exact fun _ ha => nonzero_fits ha
  case digits => exact fun _ hk => WordSet.digit_position hk
  case turns => exact fun s zero one _ h0 hN => s.digit_turns zero one h0 hN
  case searches => exact Engine.Halving.searches_answer
  case leading => exact Engine.Halving.leading_fits
  case upward => exact fun _ _ _ ho h0 hN => Position.upward_fits ho h0 hN
  case downward => exact fun _ _ _ ho h0 hN => Position.downward_fits ho h0 hN

end Wordwise
