/-
What collecting makes. A list of positions that are all positions of the word is collected into the
set of exactly these, and a list of sets into their union.
-/
import Wordwise.Proofs.Positions
import Wordwise.WordSet.Update

namespace Wordwise.WordSet

variable {W : Width}

/-! ## Positions -/

theorem insert_position {s : WordSet W} {p : Position} {i : Nat} (hp : p.val = i) (hi : i < W.bits) :
    s.insert (.position p) = .ok (ofWord (s.word ||| BitVec.twoPow W.bits i)) := by
  unfold insert
  rw [Operand.read_position, Position.toWord_eq hp hi]
  rfl

/-- Inserting positions one after the other adds exactly these to the members. -/
theorem foldlM_insert : ∀ (ps : List Position) (s : WordSet W),
    (∀ p ∈ ps, 0 ≤ p.val ∧ p.val < W.bits) →
    ∃ t : WordSet W, ps.foldlM (fun s p => s.insert (.position p)) s = .ok t ∧
      ∀ j : Nat, t.word.getLsbD j = true ↔ s.word.getLsbD j = true ∨ ∃ p ∈ ps, p.val = j
  | [], s, _ => ⟨s, rfl, by simp⟩
  | p :: ps, s, hps => by
    obtain ⟨h0, hN⟩ := hps p (List.mem_cons_self ..)
    have hval : p.val = (p.val.toNat : Nat) := (Int.toNat_of_nonneg h0).symm
    obtain ⟨t, ht, hbits⟩ := foldlM_insert ps
      (ofWord (s.word ||| BitVec.twoPow W.bits p.val.toNat)) fun q hq => hps q (List.mem_cons_of_mem _ hq)
    refine ⟨t, ?_, fun j => ?_⟩
    · rw [List.foldlM_cons, insert_position hval (by omega)]
      exact ht
    · rw [hbits, word_ofWord, BitVec.getLsbD_or, Bool.or_eq_true, BitVec.getLsbD_twoPow]
      simp only [Bool.and_eq_true, decide_eq_true_eq, List.mem_cons, exists_eq_or_imp, or_assoc]
      have hhead : (p.val.toNat < W.bits ∧ p.val.toNat = j) ↔ p.val = j := by omega
      rw [hhead]

/-- A list of positions of the word is collected into the set of exactly these. -/
theorem ofPositions_accepted {l : List Position} (h : ∀ p ∈ l, 0 ≤ p.val ∧ p.val < W.bits) :
    ∃ s : WordSet W, ofPositions l = .ok s ∧ ∀ p, p ∈ memberList s.word ↔ p ∈ l := by
  obtain ⟨s, hs, hbits⟩ := foldlM_insert l (empty : WordSet W) h
  refine ⟨s, hs, fun p => ?_⟩
  rw [mem_memberList]
  constructor
  · rintro ⟨i, hi, hp⟩
    rcases (hbits i).1 hi with hempty | ⟨q, hq, hval⟩
    · simp at hempty
    · rwa [Position.ext (hp.trans hval.symm)]
  · intro hp
    have hval : p.val = (p.val.toNat : Nat) := (Int.toNat_of_nonneg (h p hp).1).symm
    exact ⟨p.val.toNat, (hbits _).2 (.inr ⟨p, hp, hval⟩), hval⟩

/-- The positions of the set bits are collected into the word. -/
theorem ofPositions_memberList (a : Word W) : ofPositions (memberList a) = .ok (ofWord a) := by
  obtain ⟨s, hs, hmem⟩ := ofPositions_accepted (l := memberList a) fun _ => val_of_mem_memberList
  rw [hs, ← eq_of_mem_memberList_iff hmem, ofWord_word]

/-! ## Sets -/

/-- Joining sets one after the other adds exactly their members. -/
theorem foldl_or : ∀ (ss : List (WordSet W)) (s : WordSet W) (j : Nat),
    (ss.foldl (· ||| ·) s).word.getLsbD j = true ↔
      s.word.getLsbD j = true ∨ ∃ t ∈ ss, t.word.getLsbD j = true
  | [], s, j => by simp
  | t :: ss, s, j => by
    rw [List.foldl_cons, foldl_or ss, word_or, BitVec.getLsbD_or, Bool.or_eq_true]
    simp only [List.mem_cons, exists_eq_or_imp, or_assoc]

theorem getLsbD_ofSets (ss : List (WordSet W)) (j : Nat) :
    (ofSets ss).word.getLsbD j = true ↔ ∃ t ∈ ss, t.word.getLsbD j = true := by
  unfold ofSets
  rw [foldl_or, word_empty]
  simp

end Wordwise.WordSet
