/-
What walks visit. A walk upwards visits exactly the set bits above its start in ascending order and
then the position past the last bit, a walk downwards exactly the set bits below its start in
descending order. The position before the first bit ends a walk downwards only when bit zero is
clear, since from bit zero no downward scan is made. A walk from a start that its first scan refuses
visits nothing.
-/
import Mathlib.Order.RelClasses
import Wordwise.Proofs.Members
import Wordwise.Proofs.Scan
import Wordwise.Walk

namespace Wordwise.Position

variable {W : Width}

/-! ## Parts of an ordered list -/

/-- What follows a bound in an ordered list is the first element that follows it, and then what
follows that element. -/
theorem filter_eq_cons {α : Type} {r : α → α → Prop} [DecidableRel r] [IsStrictOrder α r] {p q : α} :
    ∀ {l : List α}, l.Pairwise r → q ∈ l → r p q → (∀ x ∈ l, r p x → x = q ∨ r q x) →
      l.filter (fun x => r p x) = q :: l.filter (fun x => r q x)
  | [], _, hq, _, _ => nomatch hq
  | x :: l, hl, hq, hpq, hleast => by
    obtain ⟨hx, hl⟩ := List.pairwise_cons.1 hl
    -- the induction runs up to the place of `q` in the list
    rcases List.mem_cons.1 hq with rfl | hq
    · have hafter : l.filter (fun y => r p y) = l.filter (fun y => r q y) := by
        refine List.filter_congr fun y hy => ?_
        rw [decide_eq_true (hx y hy), decide_eq_true (trans_of r hpq (hx y hy))]
      have hqq : ¬ r q q := irrefl_of r q
      rw [List.filter_cons_of_pos (by simp [hpq]), hafter, List.filter_cons_of_neg (by simp [hqq])]
    · -- `x` stands in front of `q`, which is the first element after `p`
      have hqx : ¬ r q x := fun h => irrefl_of r q (trans_of r h (hx q hq))
      have hpx : ¬ r p x := by
        intro h
        rcases hleast x (List.mem_cons_self ..) h with rfl | h
        · exact irrefl_of r x (hx x hq)
        · exact hqx h
      rw [List.filter_cons_of_neg (by simp [hpx]), List.filter_cons_of_neg (by simp [hqx])]
      exact filter_eq_cons hl hq hpq fun y hy => hleast y (List.mem_cons_of_mem _ hy)

/-! ## One scan of a walk -/

section
variable {e : Engine} {o : Operand W} {p q : Position} {r : Refusal Position}

theorem isPast_iff : p.isPast W = true ↔ p.val = W.bits := beq_iff_eq

theorem walkUp_past : walkUp e o (past W) = ⟨[], none⟩ := by
  unfold walkUp
  rw [if_pos (isPast_iff.2 rfl)]

theorem walkUp_ok (h : p.next e o = .ok q) : walkUp e o p = (walkUp e o q).cons q := by
  have hp : ¬ p.isPast W = true := fun hp => by
    have hlt : p.val < W.bits := (lt_of_next h).1
    exact absurd (isPast_iff.1 hp) (Int.ne_of_lt hlt)
  rw [walkUp, if_neg hp]
  split
  · rename_i hf
    rw [h] at hf
    cases hf
  · rename_i hq
    rw [h] at hq
    cases hq
    rfl

theorem walkUp_error (hp : p.val ≠ W.bits) (h : p.next e o = .error r) :
    walkUp e o p = ⟨[], some r.fault⟩ := by
  rw [walkUp, if_neg (mt isPast_iff.1 hp)]
  split
  · rename_i hf
    rw [h] at hf
    cases hf
    rfl
  · rename_i hq
    rw [h] at hq
    cases hq

theorem walkDown_of_nonpos (hp : p.val ≤ 0) : walkDown e o p = ⟨[], none⟩ := by
  rw [walkDown, if_neg fun h => by have := canDescend_iff.1 h; omega]

theorem walkDown_ok (h : p.prev e o = .ok q) : walkDown e o p = (walkDown e o q).cons q := by
  rw [walkDown, if_pos (canDescend_iff.2 (lt_of_prev h).1)]
  split
  · rename_i hf
    rw [h] at hf
    cases hf
  · rename_i hq
    rw [h] at hq
    cases hq
    rfl

theorem walkDown_error (hp : 0 < p.val) (h : p.prev e o = .error r) :
    walkDown e o p = ⟨[], some r.fault⟩ := by
  rw [walkDown, if_pos (canDescend_iff.2 hp)]
  split
  · rename_i hf
    rw [h] at hf
    cases hf
    rfl
  · rename_i hq
    rw [h] at hq
    cases hq

end

/-! ## Whole walks -/

theorem walkUp_eq {o : Operand W} {m : Word W} (ho : o.Denotes m) (p : Position) (h0 : -1 ≤ p.val)
    (hN : p.val < W.bits) :
    walkUp .direct o p = ⟨(memberList m).filter (fun q => p < q) ++ [past W], none⟩ := by
  obtain ⟨q, hq, ⟨hpq, hstop⟩, hleast⟩ := next_spec ho h0 hN
  rw [walkUp_ok hq]
  -- either the scan has left the word, or it stands on a bit from which the walk goes on
  rcases hstop with hpast | ⟨i, hi, hval⟩
  · have hnone : (memberList m).filter (fun x => p < x) = [] := by
      rw [List.filter_eq_nil_iff]
      intro x hx hpx
      obtain ⟨i, hi, hval⟩ := mem_memberList.1 hx
      have hle : q.val ≤ x.val := hleast ⟨of_decide_eq_true hpx, .inr ⟨i, hi, hval⟩⟩
      have := BitVec.lt_of_getLsbD hi
      omega
    rw [show q = past W from Position.ext hpast, walkUp_past, hnone]
    rfl
  · have hlt := BitVec.lt_of_getLsbD hi
    have hfirst : ∀ x ∈ memberList m, p < x → x = q ∨ q < x := by
      intro x hx hpx
      have hle : q.val ≤ x.val := hleast ⟨hpx, .inr (mem_memberList.1 hx)⟩
      exact (eq_or_lt_of_le (show q ≤ x from hle)).imp_left Eq.symm
    rw [walkUp_eq ho q (by omega) (by omega), filter_eq_cons (memberList_pairwise m)
      (mem_memberList.2 ⟨i, hi, hval⟩) hpq hfirst]
    rfl
termination_by (W.bits - p.val).toNat
decreasing_by
  have : p.val < q.val := hpq
  omega

/-- A walk downwards that starts at bit zero is over, which leaves nothing out when that bit is the
one the walk has come to. -/
theorem walkDown_eq {o : Operand W} {m : Word W} (ho : o.Denotes m) (p : Position)
    (h0 : 0 < p.val ∨ p.val = 0 ∧ m.getLsbD 0 = true) (hN : p.val ≤ W.bits) :
    walkDown .direct o p =
      ⟨((memberList m).filter (fun q => q < p)).reverse ++ (if m.getLsbD 0 then [] else [before]), none⟩ := by
  have hnone : ∀ r : Position, (∀ i : Nat, m.getLsbD i = true → r.val ≤ i) →
      (memberList m).filter (fun x => x < r) = [] := by
    intro r hr
    rw [List.filter_eq_nil_iff]
    intro x hx hxr
    obtain ⟨i, hi, hval⟩ := mem_memberList.1 hx
    have hxr' : x.val < r.val := of_decide_eq_true hxr
    have := hr i hi
    omega
  rcases h0 with h0 | ⟨h0, hzero⟩
  · obtain ⟨q, hq, ⟨hqp, hstop⟩, hgreatest⟩ := prev_spec ho h0 hN
    rw [walkDown_ok hq]
    -- either the scan has left the word, or it stands on a bit, perhaps on bit zero
    rcases hstop with hbefore | ⟨i, hi, hval⟩
    · have hclear : ∀ i : Nat, m.getLsbD i = true → p.val ≤ i := by
        intro i hi
        by_contra hlt
        have hle : (i : Int) ≤ q.val := hgreatest ⟨by omega, .inr ⟨i, hi, rfl⟩⟩
        omega
      have hzero : ¬ m.getLsbD 0 = true := fun h => by
        have := hclear 0 h
        omega
      rw [show q = before from Position.ext hbefore, walkDown_of_nonpos (by decide), hnone p hclear,
        if_neg hzero]
      rfl
    · have hlast : ∀ x ∈ (memberList m).reverse, x < p → x = q ∨ x < q := by
        intro x hx hxp
        have hle : x.val ≤ q.val := hgreatest ⟨hxp, .inr (mem_memberList.1 (List.mem_reverse.1 hx))⟩
        exact eq_or_lt_of_le (show x ≤ q from hle)
      have hq0 : 0 < q.val ∨ q.val = 0 ∧ m.getLsbD 0 = true := by
        rcases Nat.eq_zero_or_pos i with rfl | hpos
        · exact .inr ⟨hval, hi⟩
        · exact .inl (by omega)
      have hqN : q.val ≤ W.bits := Int.le_trans (Int.le_of_lt hqp) hN
      rw [walkDown_eq ho q hq0 hqN, ← List.filter_reverse, ← List.filter_reverse,
        filter_eq_cons (r := fun x y => y < x) (List.pairwise_reverse.2 (memberList_pairwise m))
          (List.mem_reverse.2 (mem_memberList.2 ⟨i, hi, hval⟩)) hqp hlast]
      rfl
  · rw [walkDown_of_nonpos (by omega), hnone p fun i _ => by omega, if_pos hzero]
    rfl
termination_by p.val.toNat
decreasing_by
  have : q.val < p.val := hqp
  omega

/-- What the walks over a word visit from every start. -/
structure WalksMembers (e : Engine) (o : Operand W) (m : Word W) : Prop where
  up : ∀ p : Position, -1 ≤ p.val → p.val < W.bits →
    walkUp e o p = ⟨(memberList m).filter (fun q => p < q) ++ [past W], none⟩
  up_past : walkUp e o (past W) = ⟨[], none⟩
  up_refused : ∀ p : Position, ¬ (-1 ≤ p.val ∧ p.val ≤ W.bits) →
    walkUp e o p = ⟨[], some (.upwardScan p.val W)⟩
  down : ∀ p : Position, 0 < p.val → p.val ≤ W.bits →
    walkDown e o p =
      ⟨((memberList m).filter (fun q => q < p)).reverse ++ (if m.getLsbD 0 then [] else [before]), none⟩
  down_first : ∀ p : Position, p.val ≤ 0 → walkDown e o p = ⟨[], none⟩
  down_refused : ∀ p : Position, W.bits < p.val →
    walkDown e o p = ⟨[], some (.downwardScan p.val W)⟩
  whole_up : ∃ ps, (WordSet.ofWord m).members.toList e = .ok ps ∧
    walkUp e o before = ⟨ps ++ [past W], none⟩
  whole_down : ∃ ps, (WordSet.ofWord m).members.toListRev e = .ok ps ∧
    walkDown e o (past W) = ⟨ps ++ (if m.getLsbD 0 then [] else [before]), none⟩

/-- With either engine, the walks over an operand visit the set bits of the word that it stands
for. -/
theorem walks_members (portable : Bool) {o : Operand W} {m : Word W} (ho : o.Denotes m) :
    WalksMembers (.select portable) o m := by
  rw [Engine.select_eq_direct]
  have hbits : ∀ q ∈ memberList m, before < q ∧ q < past W := by
    intro q hq
    obtain ⟨i, hi, hval⟩ := mem_memberList.1 hq
    have := BitVec.lt_of_getLsbD hi
    rw [lt_def, lt_def, before_val, past_val]
    omega
  constructor
  case up => exact walkUp_eq ho
  case up_past => exact walkUp_past
  case up_refused =>
    intro p hp
    exact walkUp_error (by omega) (next_error (by omega))
  case down => exact fun p h0 hN => walkDown_eq ho p (.inl h0) hN
  case down_first => exact fun p => walkDown_of_nonpos
  case down_refused =>
    intro p hp
    exact walkDown_error (by omega) (prev_error (by omega))
  case whole_up =>
    refine ⟨memberList m, Members.toList_eq _, ?_⟩
    rw [walkUp_eq ho before (by decide) (by rw [before_val]; omega), List.filter_eq_self.2]
    intro q hq
    exact decide_eq_true (hbits q hq).1
  case whole_down =>
    have := W.bits_pos
    refine ⟨(memberList m).reverse, Members.toListRev_eq _, ?_⟩
    rw [walkDown_eq ho (past W) (.inl (by rw [past_val]; omega)) (Int.le_refl _), List.filter_eq_self.2]
    intro q hq
    exact decide_eq_true (hbits q hq).2

/-- The walks from the lowest of three members upwards and from the highest downwards. -/
theorem walks_members_three :
    (Operand.form (.word 0x92#8) : Operand .w8).Denotes 0x92#8 ∧
      WalksMembers (.select true) (Operand.form (.word 0x92#8) : Operand .w8) 0x92#8 ∧
      walkUp (.select true) (.form (.word 0x92#8) : Operand .w8) (.wrap 1) =
        ⟨[.wrap 4, .wrap 7, past .w8], none⟩ ∧
      walkDown (.select true) (.form (.word 0x92#8) : Operand .w8) (.wrap 7) =
        ⟨[.wrap 4, .wrap 1, before], none⟩ := by
  have hdenotes := Operand.Denotes.word (W := .w8) 0x92#8
  have hwalks := walks_members true hdenotes
  refine ⟨hdenotes, hwalks, ?_, ?_⟩
  · exact (hwalks.up (.wrap 1) (by decide) (by decide)).trans (by decide)
  · exact (hwalks.down (.wrap 7) (by decide) (by decide)).trans (by decide)

end Wordwise.Position
