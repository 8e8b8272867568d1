/-
The same number at another width. A word that is widened keeps its set bits, so whatever is read off
the set bits stays as it is: the iterators, the counts, the extremes, the order, the operators and
the scans that stop at a member. What depends on the end of the word moves with it: an upward scan
that finds nothing and the lowest position of the empty set lie at the new end, every added bit is
one more leading zero and one more digit in front, and a shift up loses later what it loses.
-/
import Wordwise.Proofs.Scan
import Wordwise.Proofs.SetRun
import Wordwise.Proofs.Singles
import Wordwise.Relations

namespace Wordwise

variable {W V : Width}

/-! ## Widened values -/

/-- The word of another width with the same number, if the number fits. -/
def widen (V : Width) (a : Word W) : Word V := a.setWidth V.bits

def Mask.widen (V : Width) (m : Mask W) : Mask V := ⟨Wordwise.widen V m.bits⟩

def WordSet.widen (V : Width) (s : WordSet W) : WordSet V := .ofWord (Wordwise.widen V s.word)

def Form.widen (V : Width) : Form W → Form V
  | .word a => .word (Wordwise.widen V a)
  | .mask m => .mask (m.widen V)
  | .set s => .set (s.widen V)

@[simp] theorem WordSet.word_widen (s : WordSet W) : (s.widen V).word = Wordwise.widen V s.word := rfl

@[simp] theorem WordSet.toMask_widen (s : WordSet W) : (s.widen V).toMask = s.toMask.widen V := rfl

/-- Both computations give the same result. -/
def AnswerAlike {ε α : Type} (x y : Except ε α) : Prop := ∃ r, x = .ok r ∧ y = .ok r

/-! ## What widening keeps -/

/-- The counts and shifts of a widened word. -/
structure WidenedWord (e : Engine) (V : Width) (a : Word W) : Prop where
  trailing : a ≠ 0 → AnswerAlike (e.trailing a) (e.trailing (widen V a))
  trailing_zero : a = 0 → e.trailing a = .ok W.bits ∧ e.trailing (widen V a) = .ok V.bits
  leading : ∃ n, e.leading a = .ok n ∧ e.leading (widen V a) = .ok (n + (V.bits - W.bits))
  log2 : AnswerAlike (e.log2 a) (e.log2 (widen V a))
  ones : AnswerAlike (e.ones a) (e.ones (widen V a))
  isPowerOfTwo : AnswerAlike (isPowerOfTwo a) (isPowerOfTwo (widen V a))
  shiftDown : ∀ n, shiftDown (widen V a) n = widen V (shiftDown a n)
  shiftUp : ∀ n, (shiftUp (widen V a) n).setWidth W.bits = shiftUp a n

/-- The iterators, questions, texts and shifts of a widened set. -/
structure WidenedSet (e : Engine) (V : Width) (s : WordSet W) : Prop where
  members : AnswerAlike (s.members.toList e) ((s.widen V).members.toList e)
  singles : (s.widen V).singles.toList = s.singles.toList.map (WordSet.widen V)
  count : AnswerAlike (s.count e) ((s.widen V).count e)
  isInhabited : (s.widen V).isInhabited = s.isInhabited
  isEmpty : (s.widen V).isEmpty = s.isEmpty
  isSingleton : AnswerAlike s.isSingleton (s.widen V).isSingleton
  lowest : (s.widen V).lowest = s.lowest.widen V
  highest : ∃ t, s.highest e = .ok t ∧ (s.widen V).highest e = .ok (t.widen V)
  lowestPosition : s ≠ .empty → AnswerAlike (s.lowestPosition e) ((s.widen V).lowestPosition e)
  lowestPosition_empty : s = .empty →
    s.lowestPosition e = .ok (.past W) ∧ (s.widen V).lowestPosition e = .ok (.past V)
  highestPosition : AnswerAlike (s.highestPosition e) ((s.widen V).highestPosition e)
  digits : ∀ zero one, ∃ cs, s.digits zero one = .ok cs ∧
    (s.widen V).digits zero one = .ok (List.replicate (V.bits - W.bits) zero ++ cs)
  text : ∃ cs, s.text = .ok cs ∧ (s.widen V).text = .ok (List.replicate (V.bits - W.bits) '0' ++ cs)
  shiftDown : ∀ n, (s.widen V).shiftDown n = (s.shiftDown n).widen V
  shiftUp : ∀ n, ((s.widen V).shiftUp n).word.setWidth W.bits = (s.shiftUp n).word

/-- The comparisons of two widened sets, in either form. -/
structure WidenedPair (V : Width) (s t : WordSet W) : Prop where
  sets : Relations.between (s.widen V) (t.widen V) = .between s t
  masks : Relations.between (s.toMask.widen V) (t.toMask.widen V) = .between s.toMask t.toMask
  setMask : (s.widen V).relateMask (t.toMask.widen V) = s.relateMask t.toMask
  maskSet : (s.toMask.widen V).relateSet (t.widen V) = s.toMask.relateSet t
  min : min (s.widen V) (t.widen V) = (min s t).widen V
  max : max (s.widen V) (t.widen V) = (max s t).widen V

/-- The scans of an operand and of one that stands for the widened word. -/
structure WidenedScans (e : Engine) (o : Operand W) (o' : Operand V) : Prop where
  prev : ∀ p : Position, 0 < p.val → p.val ≤ W.bits → AnswerAlike (p.prev e o) (p.prev e o')
  next : ∀ p : Position, -1 ≤ p.val → p.val < W.bits → ∃ q, p.next e o = .ok q ∧
    p.next e o' = .ok (if q = .past W then .past V else q)

/-- A set and the same number at another width, each with an operand that stands for it. -/
structure WidensAlike (e : Engine) (V : Width) (s : WordSet W) (o : Operand W) (o' : Operand V) : Prop where
  number : ∀ a : Word W, (widen V a).toNat = a.toNat
  word : WidenedWord e V s.word
  set : WidenedSet e V s
  pair : ∀ t, WidenedPair V s t
  combine : ∀ (op : Connective) (f g : Form W),
    (f.widen V).combine? op (g.widen V) = (f.combine? op g).map (Form.widen V)
  scans : WidenedScans e o o'

/-! ## Operators -/

theorem widen_apply (op : Connective) (a b : Word W) :
    (op.apply (widen V a) (widen V b) : Word V) = widen V (op.apply a b) := by
  cases op with
  | or => exact BitVec.setWidth_or.symm
  | and => exact BitVec.setWidth_and.symm
  | xor => exact BitVec.setWidth_xor.symm

theorem Mask.widen_apply (op : Connective) (m n : Mask W) :
    (op.apply (m.widen V) (n.widen V) : Mask V) = (op.apply m n : Mask W).widen V := by
  apply Mask.ext
  have hbits := Wordwise.widen_apply (V := V) op m.bits n.bits
  cases op <;> exact hbits

theorem Form.toWord_widen (f : Form W) : (f.widen V).toWord = Wordwise.widen V f.toWord := by
  cases f <;> rfl

theorem WordSet.combine_widen (op : Connective) (s : WordSet W) (f : Form W) :
    (s.widen V).combine op (f.widen V) = (s.combine op f).widen V := by
  apply WordSet.eq_of_word_eq
  rw [WordSet.word_combine, WordSet.word_widen, WordSet.word_widen, WordSet.word_combine,
    Form.toWord_widen, Wordwise.widen_apply]

/-- Widened forms combine to the widened result, if they combine at all. -/
theorem Form.combine?_widen (op : Connective) (f g : Form W) :
    (f.widen V).combine? op (g.widen V) = (f.combine? op g).map (Form.widen V) := by
  cases f with
  | word a => cases g <;> rfl
  | mask m =>
    cases g with
    | word b => rfl
    | mask n => exact congrArg (some ∘ Form.mask) (Mask.widen_apply op m n)
    | set t =>
      -- a mask on the left of a set counts as a set
      have hset := WordSet.combine_widen (V := V) op (.ofMask m) (.set t)
      cases op <;> exact congrArg (some ∘ Form.set) hset
  | set s => exact congrArg (some ∘ Form.set) (WordSet.combine_widen op s g)

/-! ## Comparisons -/

/-- Sets relate as their masks. -/
theorem WordSet.between_eq (s t : WordSet W) : Relations.between s t = .between s.toMask t.toMask := by
  have heq : (s == t) = (s.toMask == t.toMask) := by
    rw [Bool.eq_iff_iff, beq_iff_eq, beq_iff_eq]
    exact WordSet.ext_iff
  unfold Relations.between
  rw [bne, bne, heq]
  rfl

section
variable (h : W.bits ≤ V.bits)
include h

/-! ## Words -/

theorem toNat_widen (a : Word W) : (widen V a).toNat = a.toNat := BitVec.toNat_setWidth_of_le h

theorem widen_injective : Function.Injective (widen V : Word W → Word V) := by
  intro a b hab
  apply BitVec.eq_of_toNat_eq
  rw [← toNat_widen h a, hab, toNat_widen h]

theorem widen_eq_zero_iff {a : Word W} : widen V a = 0 ↔ a = 0 := setWidth_eq_zero_iff h

theorem memberList_widen (a : Word W) : memberList (widen V a) = memberList a :=
  congrArg _ (setBits_setWidth h a)

theorem support_widen (a : Word W) : support (widen V a) = support a :=
  congrArg _ (setBits_setWidth h a)

theorem widen_twoPow {i : Nat} (hi : i < W.bits) :
    widen V (BitVec.twoPow W.bits i) = BitVec.twoPow V.bits i := by
  apply setBits_injective
  rw [widen, setBits_setWidth h, setBits_twoPow hi, setBits_twoPow (by omega)]

theorem widenedWord (a : Word W) : WidenedWord .direct V a := by
  constructor
  case trailing =>
    intro ha
    refine ⟨a.ctz.toNat, rfl, ?_⟩
    rw [Engine.direct_trailing, widen, ctz_setWidth h ha]
  case trailing_zero =>
    rintro rfl
    rw [Engine.direct_trailing, Engine.direct_trailing, (widen_eq_zero_iff h).2 rfl, ctz_zero, ctz_zero]
    exact ⟨rfl, rfl⟩
  case leading =>
    refine ⟨a.clz.toNat, rfl, ?_⟩
    rw [Engine.direct_leading, widen, clz_setWidth h]
  case log2 =>
    refine ⟨_, rfl, ?_⟩
    simp only [Engine.direct_log2, widen_eq_zero_iff h, toNat_widen h]
  case ones =>
    refine ⟨a.cpop.toNat, rfl, ?_⟩
    rw [Engine.direct_ones, ← length_setBits, widen, setBits_setWidth h, length_setBits]
  case isPowerOfTwo =>
    refine ⟨_, isPowerOfTwo_eq a, ?_⟩
    rw [isPowerOfTwo_eq, widen, setBits_setWidth h]
  case shiftDown =>
    intro n
    rw [shiftDown_eq, shiftDown_eq, widen, widen, BitVec.setWidth_ushiftRight h]
  case shiftUp =>
    intro n
    rw [shiftUp_eq, shiftUp_eq, BitVec.setWidth_shiftLeft_of_le h, widen, BitVec.setWidth_setWidth_of_le _ h,
      BitVec.setWidth_eq]

/-! ## Sets -/

namespace WordSet

theorem lowest_widen (s : WordSet W) : (s.widen V).lowest = s.lowest.widen V := by
  apply eq_of_word_eq
  apply support_injective
  rw [support_lowest, word_widen, support_widen h, word_widen, support_widen h, support_lowest]

theorem highest_widen (s : WordSet W) :
    ∃ t, s.highest .direct = .ok t ∧ (s.widen V).highest .direct = .ok (t.widen V) := by
  obtain ⟨t, ht, hmembers⟩ := highest_eq s
  obtain ⟨t', ht', hmembers'⟩ := highest_eq (s.widen V)
  have hsame : t' = t.widen V := by
    apply eq_of_word_eq
    apply support_injective
    rw [hmembers', word_widen, support_widen h, word_widen, support_widen h, hmembers]
  exact ⟨t, ht, hsame ▸ ht'⟩

theorem singles_widen (s : WordSet W) :
    (s.widen V).singles.toList = s.singles.toList.map (WordSet.widen V) := by
  rw [Singles.toList_eq, Singles.toList_eq]
  show Singles.singleList (Wordwise.widen V s.word) = (Singles.singleList s.word).map _
  rw [Singles.singleList, Singles.singleList, List.map_map, Wordwise.widen, setBits_setWidth h]
  refine List.map_congr_left fun i hi => ?_
  exact congrArg ofWord (widen_twoPow h (lt_of_mem_setBits hi)).symm

/-- The added positions are not members, and their digits stand in front. -/
theorem digits_widen (s : WordSet W) (zero one : Char) :
    ∃ cs, s.digits zero one = .ok cs ∧
      (s.widen V).digits zero one = .ok (List.replicate (V.bits - W.bits) zero ++ cs) := by
  refine ⟨_, digits_eq_spelling s zero one, ?_⟩
  obtain ⟨k, hk⟩ := Nat.exists_eq_add_of_le h
  rw [digits_eq_spelling]
  simp only [spelling, word_widen, Wordwise.widen, getLsbD_setWidth_of_le h]
  rw [hk, map_reverse_range_add, Nat.add_sub_cancel_left]
  -- the first `k` digits are those of the added positions
  have hadded : ((List.range k).reverse.map fun i =>
      if s.word.getLsbD (W.bits + i) then one else zero) = List.replicate k zero := by simp
  rw [hadded]

theorem widenedSet (s : WordSet W) : WidenedSet .direct V s := by
  have hword := widenedWord h s.word
  have hempty : s.word = 0 ↔ s = .empty := ⟨fun hs => eq_of_word_eq hs, congrArg word⟩
  have hsupport : support (s.widen V).word = support s.word := support_widen h s.word
  constructor
  case members =>
    refine ⟨_, Members.toList_eq _, ?_⟩
    rw [Members.toList_eq]
    exact congrArg Except.ok (memberList_widen h s.word)
  case singles => exact singles_widen h s
  case count => exact hword.ones
  case isInhabited =>
    rw [isInhabited, isInhabited, Bool.eq_iff_iff, bne_iff_ne, bne_iff_ne]
    exact not_congr (widen_eq_zero_iff h)
  case isEmpty =>
    rw [isEmpty, isEmpty, Bool.eq_iff_iff, beq_iff_eq, beq_iff_eq]
    exact widen_eq_zero_iff h
  case isSingleton => exact hword.isPowerOfTwo
  case lowest => exact lowest_widen h s
  case highest => exact highest_widen h s
  case lowestPosition =>
    intro hs
    have hnonempty := support_nonempty (mt hempty.1 hs)
    refine ⟨_, lowestPosition_eq s, ?_⟩
    simp only [lowestPosition_eq, hsupport, hnonempty, ↓reduceDIte]
  case lowestPosition_empty =>
    rintro rfl
    have hnone : ¬ (support (empty : WordSet W).word).Nonempty := not_nonempty_support_zero
    have hnone' : ¬ (support ((empty : WordSet W).widen V).word).Nonempty := by rwa [hsupport]
    rw [lowestPosition_eq, lowestPosition_eq, dif_neg hnone, dif_neg hnone']
    exact ⟨rfl, rfl⟩
  case highestPosition =>
    refine ⟨_, highestPosition_eq s, ?_⟩
    simp only [highestPosition_eq, hsupport]
  case digits => exact digits_widen h s
  case text => exact digits_widen h s '0' '1'
  case shiftDown => exact fun n => congrArg ofWord (hword.shiftDown n)
  case shiftUp => exact hword.shiftUp

end WordSet

/-! ## Pairs of sets -/

theorem Mask.widen_injective : Function.Injective (Mask.widen V : Mask W → Mask V) :=
  fun _ _ hab => Mask.ext (Wordwise.widen_injective h (congrArg Mask.bits hab))

theorem Mask.widen_le_iff {a b : Mask W} : a.widen V ≤ b.widen V ↔ a ≤ b := by
  show (Wordwise.widen V a.bits).toNat ≤ (Wordwise.widen V b.bits).toNat ↔ a.bits.toNat ≤ b.bits.toNat
  rw [toNat_widen h, toNat_widen h]

theorem Mask.widen_lt_iff {a b : Mask W} : a.widen V < b.widen V ↔ a < b := by
  show (Wordwise.widen V a.bits).toNat < (Wordwise.widen V b.bits).toNat ↔ a.bits.toNat < b.bits.toNat
  rw [toNat_widen h, toNat_widen h]

theorem Mask.compare_widen (a b : Mask W) : compare (a.widen V) (b.widen V) = compare a b := by
  show compare (Wordwise.widen V a.bits).toNat (Wordwise.widen V b.bits).toNat = compare a.bits.toNat b.bits.toNat
  rw [toNat_widen h, toNat_widen h]

theorem Mask.between_widen (a b : Mask W) :
    Relations.between (a.widen V) (b.widen V) = .between a b := by
  have heq : (a.widen V == b.widen V) = (a == b) := by
    rw [Bool.eq_iff_iff, beq_iff_eq, beq_iff_eq, (Mask.widen_injective h).eq_iff]
  simp only [Relations.between, bne, heq, gt_iff_lt, ge_iff_le, Mask.widen_lt_iff h, Mask.widen_le_iff h,
    Mask.compare_widen h]

theorem WordSet.min_widen (s t : WordSet W) : min (s.widen V) (t.widen V) = (min s t).widen V := by
  show (if s.widen V ≤ t.widen V then s.widen V else t.widen V) = WordSet.widen V (if s ≤ t then s else t)
  rw [apply_ite (WordSet.widen V)]
  exact if_congr (Mask.widen_le_iff h) rfl rfl

theorem WordSet.max_widen (s t : WordSet W) : max (s.widen V) (t.widen V) = (max s t).widen V := by
  show (if s.widen V ≤ t.widen V then t.widen V else s.widen V) = WordSet.widen V (if s ≤ t then t else s)
  rw [apply_ite (WordSet.widen V)]
  exact if_congr (Mask.widen_le_iff h) rfl rfl

theorem widenedPair (s t : WordSet W) : WidenedPair V s t := by
  have hmasks := Mask.between_widen h s.toMask t.toMask
  constructor
  case sets => rw [WordSet.between_eq, WordSet.between_eq, WordSet.toMask_widen, WordSet.toMask_widen, hmasks]
  case masks => exact hmasks
  case setMask => exact hmasks
  case maskSet => exact hmasks
  case min => exact WordSet.min_widen h s t
  case max => exact WordSet.max_widen h s t

/-! ## Scans -/

namespace Position

theorem stopsBelow_widen (a : Word W) (p : Int) : stopsBelow (widen V a) p = stopsBelow a p := by
  simp only [stopsBelow, widen, getLsbD_setWidth_of_le h]

/-- A least stop that is a bit stays the least one; the end moves. -/
theorem isLeast_stopsAbove_widen {a : Word W} {p : Int} {q : Position} (hq : IsLeast (stopsAbove a p) q.val) :
    IsLeast (stopsAbove (widen V a) p) (if q = past W then past V else q).val := by
  obtain ⟨⟨hpq, hstop⟩, hleast⟩ := hq
  have hbit : ∀ i, (widen V a).getLsbD i = true → a.getLsbD i = true := fun i hi => by
    rwa [widen, getLsbD_setWidth_of_le h] at hi
  split
  case isTrue heq =>
    subst heq
    rw [past_val] at hpq hleast ⊢
    refine ⟨⟨by omega, .inl rfl⟩, ?_⟩
    rintro x ⟨hx, rfl | ⟨i, hi, rfl⟩⟩
    · exact le_refl _
    · -- such a bit would have been a lower stop of the narrow word
      have hle : (W.bits : Int) ≤ i := hleast ⟨hx, .inr ⟨i, hbit i hi, rfl⟩⟩
      have := BitVec.lt_of_getLsbD (hbit i hi)
      omega
  case isFalse hne =>
    rcases hstop with hpast | ⟨k, hk, hval⟩
    · exact absurd (Position.ext hpast) hne
    · have hlt := BitVec.lt_of_getLsbD hk
      refine ⟨⟨hpq, .inr ⟨k, ?_, hval⟩⟩, ?_⟩
      · rwa [widen, getLsbD_setWidth_of_le h]
      · rintro x ⟨hx, rfl | ⟨i, hi, rfl⟩⟩
        · omega
        · exact hleast ⟨hx, .inr ⟨i, hbit i hi, rfl⟩⟩

theorem widenedScans {m : Word W} {o : Operand W} {o' : Operand V} (ho : o.Denotes m)
    (ho' : o'.Denotes (widen V m)) : WidenedScans .direct o o' := by
  constructor
  case prev =>
    intro p h0 hN
    obtain ⟨q, hq, hgreatest⟩ := prev_spec ho h0 hN
    refine ⟨q, hq, ?_⟩
    rw [prev_eq_ok_iff ho', stopsBelow_widen h]
    exact ⟨by omega, hgreatest⟩
  case next =>
    intro p h0 hN
    obtain ⟨q, hq, hleast⟩ := next_spec ho h0 hN
    refine ⟨q, hq, ?_⟩
    rw [next_eq_ok_iff ho']
    exact ⟨by omega, isLeast_stopsAbove_widen h hleast⟩

end Position

/-! ## Agreement -/

/-- In every build, a set and the same number at a width that is not narrower differ in nothing but
what depends on the end of the word. -/
theorem widens_alike (portable : Bool) {s : WordSet W} {o : Operand W} {o' : Operand V}
    (ho : o.Denotes s.word) (ho' : o'.Denotes (widen V s.word)) :
    WidensAlike (.select portable) V s o o' := by
  rw [Engine.select_eq_direct]
  constructor
  case number => exact toNat_widen h
  case word => exact widenedWord h s.word
  case set => exact s.widenedSet h
  case pair => exact widenedPair h s
  case combine => exact Form.combine?_widen
  case scans => exact Position.widenedScans h ho ho'

end

/-- The full set of eight positions among sixteen. -/
theorem widens_alike_full :
    Width.w8.bits ≤ Width.w16.bits ∧
      (Operand.form (.set .full) : Operand .w8).Denotes (WordSet.full : WordSet .w8).word ∧
      (Operand.form (.word 0xff#16) : Operand .w16).Denotes (widen .w16 (WordSet.full : WordSet .w8).word) ∧
      WidensAlike (.select true) .w16 (WordSet.full : WordSet .w8) (.form (.set .full)) (.form (.word 0xff#16)) :=
  ⟨by decide, .set _, .word _, widens_alike (by decide) true (.set _) (.word _)⟩

end Wordwise
