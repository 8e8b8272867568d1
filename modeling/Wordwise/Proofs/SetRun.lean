/-
Runs of sets. Every step of a set is an operation on the finite set of its members: the operators
and updates are union, intersection, difference and symmetric difference, the shifts move every
member, and the arithmetic is that of the numbers modulo the size of the word. A whole run is
therefore one of finite sets, and after each step the word is the sum of the powers of two over the
set. A position outside the word is refused by both and leaves both as they were.
-/
import Wordwise.Proofs.Digits
import Wordwise.Proofs.Members
import Wordwise.Proofs.Script
import Wordwise.Proofs.Support
import Wordwise.Script.Sets

namespace Wordwise

open scoped symmDiff

variable {W : Width}

/-! ## Operands and operators -/

/-- The members that an operand stands for. A position outside the word is refused. -/
def Operand.members : Operand W → Except Fault (Finset ℕ)
  | .position p => if 0 ≤ p.val ∧ p.val < W.bits then .ok {p.val.toNat} else .error (.outOfBounds p.val)
  | .form f => .ok (support f.toWord)

theorem Operand.map_read (o : Operand W) : o.read.map support = o.members := by
  cases o with
  | form f => rfl
  | position p =>
    rw [Operand.read_position, Operand.members]
    by_cases hp : 0 ≤ p.val ∧ p.val < W.bits
    · have hlt : p.val.toNat < W.bits := by omega
      rw [if_pos hp, Position.toWord_eq (Int.toNat_of_nonneg hp.1).symm hlt, Except.map, support_twoPow hlt]
    · rw [if_neg hp, Position.toWord_error hp, Except.map]

def Connective.onSets : Connective → Finset ℕ → Finset ℕ → Finset ℕ
  | .or, S, T => S ∪ T
  | .and, S, T => S ∩ T
  | .xor, S, T => S ∆ T

theorem support_apply (op : Connective) (a b : Word W) :
    support (op.apply a b : Word W) = op.onSets (support a) (support b) := by
  cases op with
  | or => exact support_or a b
  | and => exact support_and a b
  | xor => exact support_xor a b

/-- A plain word has no operators of its own, and a mask none with a plain word; all else combines. -/
theorem Form.combine?_eq_none_iff {op : Connective} {f g : Form W} :
    f.combine? op g = none ↔ (∃ a, f = .word a) ∨ ∃ m a, f = .mask m ∧ g = .word a := by
  cases f <;> cases g <;> simp [Form.combine?]

theorem support_combine (op : Connective) {f g h : Form W} (hc : f.combine? op g = some h) :
    support h.toWord = op.onSets (support f.toWord) (support g.toWord) := by
  rw [← support_apply]
  cases f with
  | word a => cases hc
  | mask m =>
    cases g with
    | word a => cases hc
    | mask n => cases hc; cases op <;> rfl
    | set t => cases hc; cases op <;> rfl
  | set s =>
    cases hc
    exact congrArg support (WordSet.word_combine op s g)

namespace WordSet

/-! ## Extremes -/

/-- The least element of a finite set alone, or no element. -/
def leastOnly (S : Finset ℕ) : Finset ℕ := if h : S.Nonempty then {S.min' h} else ∅

/-- The greatest element of a finite set alone, or no element. -/
def greatestOnly (S : Finset ℕ) : Finset ℕ := if h : S.Nonempty then {S.max' h} else ∅

theorem support_nonempty {a : Word W} (ha : a ≠ 0) : (support a).Nonempty :=
  Finset.nonempty_iff_ne_empty.2 (mt support_eq_empty_iff.1 ha)

theorem min_support {a : Word W} (ha : a ≠ 0) : (support a).min' (support_nonempty ha) = a.ctz.toNat :=
  (Finset.isLeast_min' _ _).unique (isLeast_support ha)

theorem max_support {a : Word W} (ha : a ≠ 0) : (support a).max' (support_nonempty ha) = a.toNat.log2 :=
  (Finset.isGreatest_max' _ _).unique (isGreatest_support ha)

theorem support_lowest (s : WordSet W) : support s.lowest.word = leastOnly (support s.word) := by
  unfold lowest leastOnly
  rw [word_ofWord]
  by_cases hs : s.word = 0
  · rw [hs, lowestBit_zero, support_zero, dif_neg Finset.not_nonempty_empty]
  · rw [dif_pos (support_nonempty hs), min_support hs, lowestBit_eq hs, support_twoPow (ctz_lt hs)]

theorem highest_eq (s : WordSet W) :
    ∃ t : WordSet W, s.highest .direct = .ok t ∧ support t.word = greatestOnly (support s.word) := by
  unfold highest greatestOnly
  rw [Engine.direct_log2, Checked.ok_bind]
  by_cases hs : s.word = 0
  · refine ⟨empty, ?_, ?_⟩
    · rw [if_pos hs, if_pos rfl]
      rfl
    · rw [hs, support_zero, dif_neg Finset.not_nonempty_empty]
      exact support_zero
  · refine ⟨ofWord (BitVec.twoPow W.bits s.word.toNat.log2), ?_, ?_⟩
    · rw [if_neg hs, if_neg (by omega), shiftUp_one (log2_lt hs)]
      rfl
    · rw [dif_pos (support_nonempty hs), max_support hs, word_ofWord, support_twoPow (log2_lt hs)]

theorem lowestPosition_eq (s : WordSet W) :
    s.lowestPosition .direct =
      .ok (if h : (support s.word).Nonempty then .wrap ((support s.word).min' h) else .past W) := by
  unfold lowestPosition isInhabited
  by_cases hs : s.word = 0
  · rw [if_neg (by simp [hs]), dif_neg]
    rw [hs]
    exact not_nonempty_support_zero
  · rw [if_pos (bne_iff_ne.2 hs), dif_pos (support_nonempty hs), min_support hs, Position.ofWord, if_neg hs]
    rfl

theorem highestPosition_eq (s : WordSet W) :
    s.highestPosition .direct =
      .ok (if h : (support s.word).Nonempty then .wrap ((support s.word).max' h) else .before) := by
  unfold highestPosition
  rw [Engine.direct_log2, Checked.ok_bind]
  by_cases hs : s.word = 0
  · rw [if_pos hs, dif_neg]
    · exact congrArg Except.ok (Position.ext (Position.wrap_val (by decide)))
    · rw [hs]
      exact not_nonempty_support_zero
  · rw [if_neg hs, dif_pos (support_nonempty hs), max_support hs]
    rfl

/-! ## The finite set that a set is -/

/-- A step on a finite set of positions below the width. -/
def memberStep (W : Width) (S : Finset ℕ) :
    Step W → Except (Refusal (Finset ℕ)) (Script.Outcome (Finset ℕ) Reply)
  | .insert o => do return ⟨S ∪ (← leaving S o.members), .none⟩
  | .erase o => do return ⟨S \ (← leaving S o.members), .none⟩
  | .toggle o => do return ⟨S ∆ (← leaving S o.members), .none⟩
  | .meets o => do return ⟨S, .flag (decide (S ∩ (← leaving S o.members)).Nonempty)⟩
  | .fill => return ⟨Finset.range W.bits, .none⟩
  | .clear => return ⟨∅, .none⟩
  | .increment => return ⟨numbered W.bits (number S + 1), .none⟩
  | .decrement => return ⟨numbered W.bits (number S - 1), .none⟩
  | .complement => return ⟨Finset.range W.bits \ S, .none⟩
  | .lowest => return ⟨leastOnly S, .none⟩
  | .highest => return ⟨greatestOnly S, .none⟩
  | .shiftUp n => return ⟨(S.image (· + n)).filter (· < W.bits), .none⟩
  | .shiftDown n => return ⟨(S.filter (n ≤ ·)).image (· - n), .none⟩
  | .add a => return ⟨numbered W.bits (number S + a.toNat), .none⟩
  | .sub a => return ⟨numbered W.bits (number S - a.toNat), .none⟩
  | .combine op f => return ⟨op.onSets S (support f.toWord), .none⟩
  | .count => return ⟨S, .count S.card⟩
  | .isFull => return ⟨S, .flag (decide (S = Finset.range W.bits))⟩
  | .isInhabited => return ⟨S, .flag (decide S.Nonempty)⟩
  | .isEmpty => return ⟨S, .flag (decide (S = ∅))⟩
  | .isSingleton => return ⟨S, .flag (decide (S.card = 1))⟩
  | .lowestPosition =>
    return ⟨S, .position (if h : S.Nonempty then .wrap (S.min' h) else .past W)⟩
  | .highestPosition =>
    return ⟨S, .position (if h : S.Nonempty then .wrap (S.max' h) else .before)⟩
  | .members => return ⟨S, .positions ((S.sort (· ≤ ·)).map fun i : ℕ => .wrap i)⟩
  | .text => return ⟨S, .text ((List.range W.bits).reverse.map fun i => if i ∈ S then '1' else '0')⟩

def view (s : WordSet W) : Finset ℕ := support s.word

/-- The set with these members, whose word is their number. -/
def ofMembers (W : Width) (S : Finset ℕ) : WordSet W := ofWord (BitVec.ofNat W.bits (number S))

theorem ofMembers_view (s : WordSet W) : ofMembers W s.view = s := by
  unfold ofMembers view
  rw [ofNat_number_support, ofWord_word]

/-- A step that reads an operand moves to what the operation on sets makes of its members. -/
theorem map_bind_read (s : WordSet W) (o : Operand W) (f : Word W → Word W) (g : Finset ℕ → Finset ℕ)
    (h : ∀ a, support (f a) = g (support a)) :
    Script.Result.map view
        (do return ⟨← leaving s (do return ofWord (f (← o.read))), .none⟩ :
          Except (Refusal (WordSet W)) (Script.Outcome (WordSet W) Reply)) =
      (do return ⟨g (← leaving s.view o.members), .none⟩ :
        Except (Refusal (Finset ℕ)) (Script.Outcome (Finset ℕ) Reply)) := by
  rw [← o.map_read]
  cases o.read with
  | error c => rfl
  | ok a =>
    show Except.ok (Script.Outcome.mk (support (f a)) _) = _
    rw [h]
    rfl

theorem map_ok {s : WordSet W} {S : Finset ℕ} {r r' : Reply} (hs : support s.word = S) (hr : r = r') :
    Script.Result.map view (.ok ⟨s, r⟩) = .ok ⟨S, r'⟩ := by
  subst hs hr
  rfl

theorem meets_members (s : WordSet W) (o : Operand W) :
    s.meets o = (do return decide (s.view ∩ (← o.members)).Nonempty) := by
  unfold meets
  rw [← o.map_read]
  cases o.read with
  | error c => rfl
  | ok a =>
    show Except.ok (s.word &&& a != 0) = Except.ok (decide (support s.word ∩ support a).Nonempty)
    refine congrArg Except.ok ?_
    rw [Bool.eq_iff_iff, bne_iff_ne, decide_eq_true_iff, ← support_and, Finset.nonempty_iff_ne_empty,
      Ne, Ne, support_eq_empty_iff]

theorem text_members (s : WordSet W) :
    s.text = .ok ((List.range W.bits).reverse.map fun i => if i ∈ s.view then '1' else '0') := by
  unfold text view
  rw [digits_eq_spelling]
  simp only [spelling, mem_support]

/-- A step of a set is the step of the finite set of its members. -/
theorem step_members (s : WordSet W) (i : Step W) :
    Script.Result.map view (step .direct s i) = memberStep W s.view i := by
  have hone : (1 : Word W).toNat = 1 := BitVec.toNat_one W.bits_pos
  cases i with
  | insert o => exact map_bind_read s o (s.word ||| ·) (s.view ∪ ·) (support_or s.word)
  | erase o => exact map_bind_read s o (s.word &&& ~~~·) (s.view \ ·) (support_and_not s.word)
  | toggle o => exact map_bind_read s o (s.word ^^^ ·) (s.view ∆ ·) (support_xor s.word)
  | meets o =>
    rw [step, memberStep, meets_members]
    cases o.members <;> rfl
  | fill => exact map_ok support_allOnes rfl
  | clear => exact map_ok support_zero rfl
  | increment =>
    refine map_ok ?_ rfl
    rw [word_increment, support_add, hone]
    rfl
  | decrement =>
    refine map_ok ?_ rfl
    rw [word_decrement, support_sub, hone]
    rfl
  | complement => exact map_ok (support_not s.word) rfl
  | lowest => exact map_ok (support_lowest s) rfl
  | highest =>
    obtain ⟨t, ht, hmembers⟩ := highest_eq s
    rw [step, ht]
    exact map_ok hmembers rfl
  | shiftUp n =>
    refine map_ok ?_ rfl
    rw [word_shiftUp]
    exact support_shiftLeft s.word n
  | shiftDown n =>
    refine map_ok ?_ rfl
    rw [word_shiftDown]
    exact support_ushiftRight s.word n
  | add a => exact map_ok (support_add s.word a) rfl
  | sub a => exact map_ok (support_sub s.word a) rfl
  | combine op f =>
    refine map_ok ?_ rfl
    rw [word_combine]
    exact support_apply op s.word f.toWord
  | count =>
    rw [step, count, Engine.direct_ones]
    refine map_ok rfl ?_
    rw [view, card_support, length_setBits]
  | isFull =>
    refine map_ok rfl (congrArg Reply.flag ?_)
    rw [isFull, Bool.eq_iff_iff, beq_iff_eq, decide_eq_true_iff, view, ← support_allOnes,
      support_injective.eq_iff]
  | isInhabited =>
    refine map_ok rfl (congrArg Reply.flag ?_)
    rw [isInhabited, Bool.eq_iff_iff, bne_iff_ne, decide_eq_true_iff, view,
      Finset.nonempty_iff_ne_empty, Ne, Ne, support_eq_empty_iff]
  | isEmpty =>
    refine map_ok rfl (congrArg Reply.flag ?_)
    rw [isEmpty, Bool.eq_iff_iff, beq_iff_eq, decide_eq_true_iff, view, support_eq_empty_iff]
  | isSingleton =>
    rw [step, isSingleton, isPowerOfTwo_eq]
    refine map_ok rfl (congrArg Reply.flag ?_)
    rw [view, card_support]
  | lowestPosition =>
    rw [step, lowestPosition_eq]
    exact map_ok rfl rfl
  | highestPosition =>
    rw [step, highestPosition_eq]
    exact map_ok rfl rfl
  | members =>
    rw [step, Members.toList_eq]
    refine map_ok rfl (congrArg Reply.positions ?_)
    rw [view, sort_support]
    rfl
  | text =>
    rw [step, text_members]
    exact map_ok rfl rfl

/-! ## Whole runs -/

/-- A run of a set is one of finite sets of positions. After each step the word of the set is the sum
of the powers of two over the finite set, which has no position outside the word. -/
structure RunsAsSet (e : Engine) (s : WordSet W) (is : List (Step W)) : Prop where
  outcomes : Script.run (step e) s is =
    (Script.run (memberStep W) (support s.word) is).map (Script.Result.map (ofMembers W))
  final : Script.final (step e) s is =
    ofMembers W (Script.final (memberStep W) (support s.word) is)
  sums : ∀ out ∈ Script.run (memberStep W) (support s.word) is,
    Script.left out ⊆ Finset.range W.bits ∧
      (ofMembers W (Script.left out)).word.toNat = ∑ i ∈ Script.left out, 2 ^ i
  start : support s.word ⊆ Finset.range W.bits ∧ s.word.toNat = ∑ i ∈ support s.word, 2 ^ i
  modulo : ∀ z : ℤ, numbered W.bits z ⊆ Finset.range W.bits ∧
    (number (numbered W.bits z) : ℤ) = z % 2 ^ W.bits

/-- The bitwise operators and functions on sets and masks in any combination are those on the finite
sets of their members. -/
structure CombinesAsSets (W : Width) : Prop where
  undefined : ∀ (op : Connective) (f g : Form W), f.combine? op g = none ↔
    (∃ a, f = .word a) ∨ ∃ m a, f = .mask m ∧ g = .word a
  forms : ∀ (op : Connective) (f g h : Form W), f.combine? op g = some h →
    support h.toWord = op.onSets (support f.toWord) (support g.toWord)
  complement_set : ∀ s : WordSet W, support (~~~s).word = Finset.range W.bits \ support s.word
  complement_mask : ∀ m : Mask W, support (~~~m).bits = Finset.range W.bits \ support m.bits
  union : ∀ m n : Mask W, support (m.union n).bits = support m.bits ∪ support n.bits
  intersection : ∀ m n : Mask W, support (m.intersection n).bits = support m.bits ∩ support n.bits
  symmetricDifference : ∀ m n : Mask W,
    support (m.symmetricDifference n).bits = support m.bits ∆ support n.bits
  complement : ∀ m : Mask W, support m.complement.bits = Finset.range W.bits \ support m.bits

theorem combines_as_sets (W : Width) : CombinesAsSets W where
  undefined _ _ _ := Form.combine?_eq_none_iff
  forms op _ _ _ hc := support_combine op hc
  complement_set s := support_not s.word
  complement_mask m := support_not m.bits
  union m n := support_or m.bits n.bits
  intersection m n := support_and m.bits n.bits
  symmetricDifference m n := support_xor m.bits n.bits
  complement m := support_not m.bits

/-- With either engine, every run of a set is one of finite sets of positions. -/
theorem runs_as_set (portable : Bool) (s : WordSet W) (is : List (Step W)) :
    RunsAsSet (.select portable) s is ∧ CombinesAsSets W := by
  rw [Engine.select_eq_direct]
  have hrun := Script.run_map step_members is s
  -- every state of the run is read off the finite set that it shows
  refine ⟨?_, combines_as_sets W⟩
  constructor
  case outcomes =>
    have hback : ∀ out : Script.Result (WordSet W) Reply,
        Script.Result.map (ofMembers W) (Script.Result.map view out) = out := by
      rintro (⟨c, t⟩ | ⟨t, r⟩)
      · show Except.error (Refusal.mk c (ofMembers W t.view)) = _
        rw [ofMembers_view]
      · show Except.ok (Script.Outcome.mk (ofMembers W t.view) r) = _
        rw [ofMembers_view]
    show _ = (Script.run (memberStep W) s.view is).map _
    rw [← hrun, List.map_map]
    exact ((List.map_congr_left fun out _ => hback out).trans (List.map_id _)).symm
  case final =>
    have hfinal := Script.final_map step_members is s
    show _ = ofMembers W (Script.final (memberStep W) s.view is)
    rw [← hfinal, ofMembers_view]
  case sums =>
    intro out hout
    have hmem : out ∈ Script.run (memberStep W) s.view is := hout
    rw [← hrun, List.mem_map] at hmem
    obtain ⟨x, -, rfl⟩ := hmem
    rw [Script.left_map]
    refine ⟨support_subset (Script.left x).word, ?_⟩
    show (ofMembers W (Script.left x).view).word.toNat = number (support (Script.left x).word)
    rw [ofMembers_view, number_support]
  case start => exact ⟨support_subset s.word, (number_support s.word).symm⟩
  case modulo => exact fun z => ⟨numbered_subset W.bits z, number_numbered W.bits z⟩

end WordSet

end Wordwise
