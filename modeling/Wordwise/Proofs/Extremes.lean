/-
All ways to the lowest and to the highest member. The lowest member of a set is found by counting
zeros, by negating the word, by an upward scan from before the first bit, and at the front of both
iterators; the highest by the logarithm, by counting zeros from the other end, by a downward scan
from past the last bit, and at the back of both iterators. All of them lead to the same two
positions, which are equal exactly for a set with a single member. On the empty set every one of
them answers with its sentinel, with the empty set or with nothing.
-/
import Wordwise.Proofs.Scan
import Wordwise.Proofs.SetRun
import Wordwise.Proofs.Singles

namespace Wordwise

variable {W : Width}

/-! ## The ends of the list of members -/

theorem isLeast_memberList {a : Word W} (ha : a ≠ 0) :
    IsLeast {p | p ∈ memberList a} (.wrap a.ctz.toNat) := by
  have hsorted := memberList_pairwise a
  rw [memberList_eq_cons ha] at hsorted ⊢
  constructor
  · exact List.mem_cons_self ..
  · intro p hp
    rcases List.mem_cons.1 hp with rfl | hp
    · exact le_refl _
    · exact le_of_lt (List.rel_of_pairwise_cons hsorted hp)

theorem isGreatest_memberList {a : Word W} (ha : a ≠ 0) :
    IsGreatest {p | p ∈ memberList a} (.wrap a.toNat.log2) := by
  have hsorted := memberList_pairwise a
  rw [memberList_eq_concat ha] at hsorted ⊢
  constructor
  · simp
  · intro p hp
    rcases List.mem_append.1 hp with hp | hp
    · exact le_of_lt ((List.pairwise_append.1 hsorted).2.2 p hp _ (List.mem_singleton_self _))
    · exact le_of_eq (List.mem_singleton.1 hp)

/-- The lowest and the highest set bit are the same one exactly when there is no other. -/
theorem ctz_eq_log2_iff {a : Word W} (ha : a ≠ 0) :
    a.ctz.toNat = a.toNat.log2 ↔ (setBits a).length = 1 := by
  constructor
  · intro heq
    have honly : setBits a = [a.ctz.toNat] := by
      apply setBits_eq_of_mem_iff (List.sortedLT_iff_pairwise.2 (List.pairwise_singleton _ _))
      intro i
      rw [List.mem_singleton]
      constructor
      · rintro rfl
        exact BitVec.getLsbD_true_ctz_of_ne_zero ha
      · intro hi
        have hle := le_log2_of_getLsbD hi
        have hge := ctz_le_of_getLsbD hi
        omega
    rw [honly, List.length_singleton]
  · intro hlength
    obtain ⟨i, hi⟩ := List.length_eq_one_iff.1 hlength
    have hfirst := setBits_eq_cons ha
    have hlast := setBits_eq_concat ha
    rw [hi] at hfirst hlast
    have hfirst' : i = a.ctz.toNat := (List.cons.inj hfirst).1
    have hlast' := congrArg List.getLast? hlast
    simp at hlast'
    omega

namespace Position

theorem isLeast_stopsAbove {a : Word W} {p : Position} (h : IsLeast {q | q ∈ memberList a} p) :
    IsLeast (stopsAbove a (-1)) p.val := by
  obtain ⟨i, hi, hval⟩ := mem_memberList.1 h.1
  have hlt := BitVec.lt_of_getLsbD hi
  refine ⟨⟨by omega, .inr ⟨i, hi, hval⟩⟩, ?_⟩
  rintro x ⟨-, rfl | ⟨k, hk, rfl⟩⟩
  · omega
  · have hk' := wrap_val_of_lt (BitVec.lt_of_getLsbD hk)
    have hle := le_def.1 (h.2 (mem_memberList.2 ⟨k, hk, hk'⟩))
    omega

theorem isGreatest_stopsBelow {a : Word W} {p : Position} (h : IsGreatest {q | q ∈ memberList a} p) :
    IsGreatest (stopsBelow a W.bits) p.val := by
  obtain ⟨i, hi, hval⟩ := mem_memberList.1 h.1
  have hlt := BitVec.lt_of_getLsbD hi
  refine ⟨⟨by omega, .inr ⟨i, hi, hval⟩⟩, ?_⟩
  rintro x ⟨-, rfl | ⟨k, hk, rfl⟩⟩
  · omega
  · have hk' := wrap_val_of_lt (BitVec.lt_of_getLsbD hk)
    have hle := le_def.1 (h.2 (mem_memberList.2 ⟨k, hk, hk'⟩))
    omega

/-- In the empty word an upward scan finds the end alone. -/
theorem isLeast_stopsAbove_zero : IsLeast (stopsAbove (0 : Word W) (-1)) W.bits := by
  refine ⟨⟨by omega, .inl rfl⟩, ?_⟩
  rintro x ⟨-, rfl | ⟨i, hi, -⟩⟩
  · exact le_refl _
  · simp at hi

theorem isGreatest_stopsBelow_zero : IsGreatest (stopsBelow (0 : Word W) W.bits) (-1) := by
  refine ⟨⟨by omega, .inl rfl⟩, ?_⟩
  rintro x ⟨-, rfl | ⟨i, hi, -⟩⟩
  · exact le_refl _
  · simp at hi

end Position

namespace WordSet

open Position

/-! ## Ways to the extremes -/

/-- The position is the only member of the set, and is found again as that of its word. -/
structure IsOnly (e : Engine) (t : WordSet W) (p : Position) : Prop where
  members : memberList t.word = [p]
  found : Position.ofWord e t.word = .ok p

/-- The ways to the lowest member. -/
structure LowestAt (e : Engine) (o : Operand W) (s : WordSet W) (p : Position) : Prop where
  least : IsLeast {q | q ∈ memberList s.word} p
  ofWord : Position.ofWord e s.word = .ok p
  lowestPosition : s.lowestPosition e = .ok p
  scan : before.next e o = .ok p
  popFront : ∃ q, s.members.popFront e = .ok (some p, q)
  first : ∃ ps, s.members.toList e = .ok (p :: ps)
  trailing : ∃ n : Nat, e.trailing s.word = .ok n ∧ p.val = n
  lowest : IsOnly e s.lowest p
  current : IsOnly e s.singles.current p
  next : ∃ t c, s.singles.next = (some t, c) ∧ IsOnly e t p
  single : ∃ t ts, s.singles.toList = t :: ts ∧ IsOnly e t p

/-- The ways to the highest member. -/
structure HighestAt (e : Engine) (o : Operand W) (s : WordSet W) (p : Position) : Prop where
  greatest : IsGreatest {q | q ∈ memberList s.word} p
  highestPosition : s.highestPosition e = .ok p
  log2 : e.log2 s.word = .ok p.val
  leading : ∃ n : Nat, e.leading s.word = .ok n ∧ p.val = W.bits - 1 - n
  scan : (past W).prev e o = .ok p
  popBack : ∃ q, s.members.popBack e = .ok (some p, q)
  last : s.members.last e = .ok (some p)
  highest : ∃ t, s.highest e = .ok t ∧ IsOnly e t p
  single : ∃ t, s.singles.last = some t ∧ IsOnly e t p

/-- The extremes of a set with members, which enclose all of them. -/
structure ExtremesAt (e : Engine) (o : Operand W) (s : WordSet W) (i j : Position) : Prop where
  lowest : LowestAt e o s i
  highest : HighestAt e o s j
  le : i ≤ j
  isSingleton : s.isSingleton = .ok (decide (i = j))
  between : ∀ p ∈ memberList s.word, i ≤ p ∧ p ≤ j

/-- What the same ways give for a set without members. -/
structure NoExtremes (e : Engine) (o : Operand W) (s : WordSet W) : Prop where
  ofWord : Position.ofWord e s.word = .error .emptyWord
  lowestPosition : s.lowestPosition e = .ok (past W)
  scanUp : before.next e o = .ok (past W)
  trailing : e.trailing s.word = .ok W.bits
  highestPosition : s.highestPosition e = .ok before
  scanDown : (past W).prev e o = .ok before
  log2 : e.log2 s.word = .ok (-1)
  leading : ∃ n : Nat, e.leading s.word = .ok n ∧ (W.bits : Int) - 1 - n = -1
  lowest : s.lowest = .empty
  highest : s.highest e = .ok .empty
  current : s.singles.current = .empty
  members : s.members.popFront e = .ok (none, s.members) ∧ s.members.popBack e = .ok (none, s.members)
  singles : s.singles.next = (none, s.singles)

theorem isOnly_of_support {t : WordSet W} {i : ℕ} (h : support t.word = {i}) :
    IsOnly .direct t (.wrap i) := by
  have hbits : setBits t.word = [i] := by
    rw [← sort_support, h, Finset.sort_singleton]
  have hne : t.word ≠ 0 := by
    intro hzero
    rw [hzero, setBits_zero] at hbits
    cases hbits
  constructor
  case members => rw [memberList, hbits, List.map_singleton]
  case found =>
    have hctz := setBits_eq_cons hne
    rw [hbits] at hctz
    rw [Position.ofWord, if_neg hne, (List.cons.inj hctz).1]
    rfl

theorem lowestAt {o : Operand W} {s : WordSet W} (ho : o.Denotes s.word) (hs : s.word ≠ 0) :
    LowestAt .direct o s (.wrap s.word.ctz.toNat) := by
  have hlt := ctz_lt hs
  have hleast := isLeast_memberList hs
  have hlist := memberList_eq_cons hs
  have honly : IsOnly .direct s.lowest (.wrap s.word.ctz.toNat) := by
    apply isOnly_of_support
    rw [support_lowest, leastOnly, dif_pos (support_nonempty hs), min_support hs]
  constructor
  case least => exact hleast
  case ofWord => exact if_neg hs
  case lowestPosition => rw [lowestPosition_eq, dif_pos (support_nonempty hs), min_support hs]
  case scan =>
    rw [next_eq_ok_iff ho]
    exact ⟨⟨by decide, by rw [before_val]; omega⟩, isLeast_stopsAbove hleast⟩
  case popFront =>
    obtain ⟨q, hq, -⟩ := Members.popFront_takesFirst s.members
    refine ⟨q, ?_⟩
    rw [hq, Members.view, members, hlist, List.head?_cons]
  case first =>
    refine ⟨memberList (dropLowest s.word), ?_⟩
    rw [Members.toList_eq, Members.view, members, hlist]
  case trailing => exact ⟨_, rfl, wrap_val_of_lt hlt⟩
  case lowest => exact honly
  case current => exact honly
  case next =>
    refine ⟨s.lowest, s.singles.drop, ?_, honly⟩
    rw [Singles.next_eq, Singles.view, singles, Singles.singleList_eq_cons hs]
    rfl
  case single =>
    refine ⟨s.lowest, Singles.singleList (dropLowest s.word), ?_, honly⟩
    rw [Singles.toList_eq, Singles.view, singles, Singles.singleList_eq_cons hs]
    rfl

theorem highestAt {o : Operand W} {s : WordSet W} (ho : o.Denotes s.word) (hs : s.word ≠ 0) :
    HighestAt .direct o s (.wrap s.word.toNat.log2) := by
  have hlt := log2_lt hs
  have hgreatest := isGreatest_memberList hs
  have hlist := memberList_eq_concat hs
  have hval : (wrap s.word.toNat.log2).val = s.word.toNat.log2 := wrap_val_of_lt hlt
  constructor
  case greatest => exact hgreatest
  case highestPosition => rw [highestPosition_eq, dif_pos (support_nonempty hs), max_support hs]
  case log2 => rw [Engine.direct_log2, if_neg hs, hval]
  case leading =>
    refine ⟨_, rfl, ?_⟩
    rw [hval, clz_eq hs]
    omega
  case scan =>
    have := W.bits_pos
    rw [prev_eq_ok_iff ho]
    exact ⟨⟨by rw [past_val]; omega, le_refl _⟩, isGreatest_stopsBelow hgreatest⟩
  case popBack =>
    obtain ⟨q, hq, -⟩ := Members.popBack_takesFirst s.members
    refine ⟨q, ?_⟩
    rw [hq, List.head?_reverse, Members.view, members, hlist, List.getLast?_concat]
  case last => rw [Members.last_eq, Members.view, members, hlist, List.getLast?_concat]
  case highest =>
    obtain ⟨t, ht, hmembers⟩ := highest_eq s
    refine ⟨t, ht, isOnly_of_support ?_⟩
    rw [hmembers, greatestOnly, dif_pos (support_nonempty hs), max_support hs]
  case single =>
    refine ⟨.ofWord (BitVec.twoPow W.bits s.word.toNat.log2), ?_, isOnly_of_support (support_twoPow hlt)⟩
    rw [Singles.last, Singles.toList_eq, Singles.view, singles, Singles.singleList, setBits_eq_concat hs,
      List.map_append, List.map_singleton, List.getLast?_concat]

theorem noExtremes {o : Operand W} {s : WordSet W} (ho : o.Denotes s.word) (hs : s.word = 0) :
    NoExtremes .direct o s := by
  have hnone : ¬ (support s.word).Nonempty := by
    rw [hs]
    exact not_nonempty_support_zero
  have hpos := W.bits_pos
  constructor
  case ofWord => exact if_pos hs
  case lowestPosition => rw [lowestPosition_eq, dif_neg hnone]
  case scanUp =>
    rw [next_eq_ok_iff ho, hs]
    exact ⟨⟨by decide, by rw [before_val]; omega⟩, isLeast_stopsAbove_zero⟩
  case trailing => rw [Engine.direct_trailing, hs, ctz_zero]
  case highestPosition => rw [highestPosition_eq, dif_neg hnone]
  case scanDown =>
    rw [prev_eq_ok_iff ho, hs]
    exact ⟨⟨by rw [past_val]; omega, le_refl _⟩, isGreatest_stopsBelow_zero⟩
  case log2 => rw [Engine.direct_log2, if_pos hs]
  case leading =>
    refine ⟨W.bits, ?_, by omega⟩
    rw [Engine.direct_leading, hs, clz_zero]
  case lowest =>
    apply eq_of_word_eq
    rw [lowest, hs, lowestBit_zero]
    rfl
  case highest =>
    unfold highest
    rw [Engine.direct_log2, if_pos hs]
    rfl
  case current =>
    apply eq_of_word_eq
    rw [Singles.current, singles, hs, lowestBit_zero]
    rfl
  case members => exact ⟨if_pos hs, if_pos hs⟩
  case singles => exact if_pos (beq_iff_eq.2 hs)

/-! ## Agreement -/

/-- In every build, all ways to the extremes of a set lead to the same two positions, or to none. -/
theorem extremes_agree (portable : Bool) {o : Operand W} {s : WordSet W} (ho : o.Denotes s.word) :
    (s ≠ .empty → ∃ i j, ExtremesAt (.select portable) o s i j) ∧
      (s = .empty → NoExtremes (.select portable) o s) := by
  rw [Engine.select_eq_direct]
  constructor
  · intro hne
    have hs : s.word ≠ 0 := fun h => hne (eq_of_word_eq h)
    have hlow := lowestAt ho hs
    have hhigh := highestAt ho hs
    refine ⟨_, _, hlow, hhigh, hlow.least.2 hhigh.greatest.1, ?_, fun p hp => ⟨hlow.least.2 hp, hhigh.greatest.2 hp⟩⟩
    have hiff : (wrap s.word.ctz.toNat = wrap s.word.toNat.log2) ↔ (setBits s.word).length = 1 := by
      rw [← ctz_eq_log2_iff hs, Position.ext_iff, wrap_val_of_lt (ctz_lt hs), wrap_val_of_lt (log2_lt hs)]
      exact Nat.cast_inj
    rw [isSingleton, isPowerOfTwo_eq, decide_eq_decide.2 hiff]
  · rintro rfl
    exact noExtremes ho rfl

/-- A set with three members, the highest position among them: its extremes are apart. -/
theorem extremes_agree_three :
    (Operand.form (.set (.ofWord 0x92#8)) : Operand .w8).Denotes 0x92#8 ∧
      (.ofWord 0x92#8 : WordSet .w8) ≠ .empty ∧
      ∃ i j, ExtremesAt (.select true) (.form (.set (.ofWord 0x92#8)) : Operand .w8)
        (.ofWord 0x92#8) i j ∧ i < j := by
  have hdenotes := Operand.Denotes.set (W := .w8) 0x92#8
  have hne : (.ofWord 0x92#8 : WordSet .w8) ≠ .empty := by decide
  obtain ⟨i, j, h⟩ := (extremes_agree true hdenotes).1 hne
  have hlow : i ≤ .wrap 1 := (h.between (.wrap 1) (by decide)).1
  have hhigh : .wrap 7 ≤ j := (h.between (.wrap 7) (by decide)).2
  have hlt : Position.wrap 1 < .wrap 7 := by decide
  exact ⟨hdenotes, hne, i, j, h, lt_of_le_of_lt hlow (lt_of_lt_of_le hlt hhigh)⟩

end WordSet

end Wordwise
