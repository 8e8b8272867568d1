/-
What the cursor over single-member sets gives. It stands on the first of the sets that are left, in
the order of their members, and dropping, skipping and taking do on the cursor what they do on that
list. The sets of the list are single, ascend as numbers and have no member in common.
-/
import Wordwise.Proofs.Members
import Wordwise.Singles

namespace Wordwise.Singles

variable {W : Width}

/-! ## The sets that are left -/

/-- The single-member sets of a word, the lowest first. -/
def singleList (a : Word W) : List (WordSet W) :=
  (setBits a).map fun i => .ofWord (BitVec.twoPow W.bits i)

/-- The sets that are left. -/
def view (c : Singles W) : List (WordSet W) := singleList c.rest

theorem mem_singleList {a : Word W} {s : WordSet W} :
    s ∈ singleList a ↔ ∃ i, a.getLsbD i = true ∧ s = .ofWord (BitVec.twoPow W.bits i) := by
  unfold singleList
  rw [List.mem_map]
  constructor
  · rintro ⟨i, hi, rfl⟩
    exact ⟨i, mem_setBits.1 hi, rfl⟩
  · rintro ⟨i, hi, rfl⟩
    exact ⟨i, mem_setBits.2 hi, rfl⟩

@[simp] theorem singleList_zero : singleList (0 : Word W) = [] := by
  unfold singleList
  rw [setBits_zero, List.map_nil]

theorem singleList_eq_cons {a : Word W} (ha : a ≠ 0) :
    singleList a = .ofWord (lowestBit a) :: singleList (dropLowest a) := by
  unfold singleList
  rw [setBits_eq_cons ha, List.map_cons, lowestBit_eq ha]

theorem length_singleList (a : Word W) : (singleList a).length = (setBits a).length :=
  List.length_map _

/-- The single-member sets are the words of the positions of the set bits. -/
theorem map_toWord_memberList (a : Word W) :
    (memberList a).map (fun p => p.toWord W) = (singleList a).map fun s => .ok s.word := by
  unfold memberList singleList
  rw [List.map_map, List.map_map]
  refine List.map_congr_left fun i hi => ?_
  have hlt := lt_of_mem_setBits hi
  rw [Function.comp_apply, Function.comp_apply, Position.toWord_eq (Position.wrap_val_of_lt hlt) hlt,
    WordSet.word_ofWord]

theorem isSingleton_of_mem {a : Word W} {s : WordSet W} (h : s ∈ singleList a) :
    s.isSingleton = .ok true := by
  obtain ⟨i, hi, rfl⟩ := mem_singleList.1 h
  unfold WordSet.isSingleton
  rw [isPowerOfTwo_eq, WordSet.word_ofWord, setBits_twoPow (BitVec.lt_of_getLsbD hi)]
  rfl

theorem singleList_pairwise_lt (a : Word W) : (singleList a).Pairwise (· < ·) := by
  unfold singleList
  rw [List.pairwise_map]
  refine (setBits_sortedLT a).pairwise.imp_of_mem fun {i j} hi hj hij => ?_
  show BitVec.twoPow W.bits i < BitVec.twoPow W.bits j
  rw [BitVec.lt_def, BitVec.toNat_twoPow_of_lt (lt_of_mem_setBits hi),
    BitVec.toNat_twoPow_of_lt (lt_of_mem_setBits hj)]
  exact Nat.pow_lt_pow_right (by decide) hij

theorem singleList_pairwise_disjoint (a : Word W) :
    (singleList a).Pairwise fun s t => s &&& t = .empty := by
  unfold singleList
  rw [List.pairwise_map]
  refine (setBits_sortedLT a).pairwise.imp fun {i j} hij => ?_
  apply WordSet.eq_of_word_eq
  rw [WordSet.word_and, WordSet.word_ofWord, WordSet.word_ofWord, BitVec.and_twoPow, if_neg]
  · rfl
  · rw [BitVec.getLsbD_twoPow]
    simp [show i ≠ j by omega]

/-- A bit is set in one of the single-member sets of a word exactly when it is set in the word. -/
theorem exists_mem_singleList_iff {a : Word W} {j : Nat} :
    (∃ s ∈ singleList a, s.word.getLsbD j = true) ↔ a.getLsbD j = true := by
  constructor
  · rintro ⟨s, hs, hj⟩
    obtain ⟨i, hi, rfl⟩ := mem_singleList.1 hs
    rw [WordSet.word_ofWord, BitVec.getLsbD_twoPow, Bool.and_eq_true, decide_eq_true_eq,
      decide_eq_true_eq] at hj
    rwa [← hj.2]
  · intro hj
    refine ⟨_, mem_singleList.2 ⟨j, hj, rfl⟩, ?_⟩
    rw [WordSet.word_ofWord, BitVec.getLsbD_twoPow]
    simp [BitVec.lt_of_getLsbD hj]

theorem singleList_injective : Function.Injective (singleList : Word W → List (WordSet W)) := by
  intro a b h
  apply BitVec.eq_of_getLsbD_eq
  intro j _
  rw [Bool.eq_iff_iff, ← exists_mem_singleList_iff, h, exists_mem_singleList_iff]

/-! ## Single steps -/

theorem view_drop (c : Singles W) : c.drop.view = c.view.tail := by
  unfold view drop
  by_cases hc : c.rest = 0
  · rw [hc, dropLowest_zero, singleList_zero, List.tail_nil]
  · rw [singleList_eq_cons hc, List.tail_cons]

theorem isDone_eq (c : Singles W) : c.isDone = c.view.isEmpty := by
  unfold view isDone
  by_cases hc : c.rest = 0
  · rw [hc, singleList_zero]
    exact beq_self_eq_true _
  · rw [singleList_eq_cons hc, beq_eq_false_iff_ne.2 hc]
    rfl

theorem current_eq (c : Singles W) : c.current = c.view.head?.getD .empty := by
  unfold view current
  by_cases hc : c.rest = 0
  · rw [hc, singleList_zero, lowestBit_zero]
    rfl
  · rw [singleList_eq_cons hc]
    rfl

theorem next_eq (c : Singles W) : c.next = (c.view.head?, c.drop) := by
  unfold next
  rw [isDone_eq, current_eq]
  cases hv : c.view with
  | nil =>
    have hc : c.rest = 0 := by
      by_contra hc
      unfold view at hv
      rw [singleList_eq_cons hc] at hv
      cases hv
    rw [drop, hc, dropLowest_zero, ← hc]
    rfl
  | cons s ss => rfl

/-- Skipping `n` sets and taking one gives the set at index `n` of those that are left. -/
theorem nextAt_spec : ∀ (n : Nat) (c : Singles W),
    (c.nextAt n).1 = c.view[n]? ∧ (c.nextAt n).2.view = c.view.drop (n + 1)
  | 0, c => by
    rw [nextAt, next_eq, List.head?_eq_getElem?, view_drop, List.drop_one]
    exact ⟨rfl, rfl⟩
  | n + 1, c => by
    have hdrop := view_drop c
    rw [nextAt, next_eq]
    cases hv : c.view with
    | nil =>
      rw [hv] at hdrop
      exact ⟨rfl, hdrop⟩
    | cons s ss =>
      rw [hv, List.tail_cons] at hdrop
      obtain ⟨hitem, hrest⟩ := nextAt_spec n c.drop
      rw [hdrop] at hitem hrest
      exact ⟨hitem, hrest⟩

theorem take_eq : ∀ (n : Nat) (c : Singles W), c.take n = c.view.take n
  | 0, c => by
    rw [List.take_zero]
    rfl
  | n + 1, c => by
    have hdrop := view_drop c
    rw [take, next_eq]
    cases hv : c.view with
    | nil => rfl
    | cons s ss =>
      rw [hv, List.tail_cons] at hdrop
      rw [List.take_succ_cons, ← hdrop]
      exact congrArg _ (take_eq n c.drop)

/-! ## The whole cursor -/

theorem toList_eq (c : Singles W) : c.toList = c.view := by
  unfold toList
  rw [take_eq, List.take_of_length_le]
  unfold view
  rw [length_singleList]
  exact length_setBits_le c.rest

theorem length_eq (c : Singles W) : c.length .direct = .ok c.view.length := by
  unfold length view
  rw [Engine.direct_ones, length_singleList, length_setBits]

theorem bounds_eq (c : Singles W) :
    c.bounds .direct = .ok (c.view.length, some c.view.length) := by
  unfold bounds
  rw [length_eq]
  rfl

/-- The sets that are left, joined again, make the word that is left. -/
theorem toSet_eq (c : Singles W) : c.toSet = c.remaining := by
  apply WordSet.eq_of_word_eq
  apply BitVec.eq_of_getLsbD_eq
  intro j _
  unfold toSet
  rw [toList_eq, Bool.eq_iff_iff, WordSet.getLsbD_ofSets, view, exists_mem_singleList_iff]
  rfl

end Wordwise.Singles
