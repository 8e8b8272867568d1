/-
What the queue of positions gives. Its front takes the first, its back the last position of the
ascending list of the set bits of its word; skipping, draining and counting then give what they give
on that list. The extreme positions of a set are the two ends of the same list.
-/
import Wordwise.Members
import Wordwise.Proofs.Collecting
import Wordwise.Proofs.Engine.Agreement

namespace Wordwise

variable {W : Width}

/-! ## The ends of the list of positions -/

@[simp] theorem memberList_zero : memberList (0 : Word W) = [] := by
  unfold memberList
  rw [setBits_zero, List.map_nil]

theorem memberList_eq_cons {a : Word W} (ha : a ≠ 0) :
    memberList a = .wrap a.ctz.toNat :: memberList (dropLowest a) := by
  unfold memberList
  rw [setBits_eq_cons ha, List.map_cons]

theorem memberList_eq_concat {a : Word W} (ha : a ≠ 0) :
    memberList a =
      memberList (a ^^^ BitVec.twoPow W.bits a.toNat.log2) ++ [.wrap a.toNat.log2] := by
  unfold memberList
  conv_lhs => rw [setBits_eq_concat ha]
  rw [List.map_append, List.map_singleton]

theorem length_memberList_le (a : Word W) : (memberList a).length ≤ W.bits := by
  rw [length_memberList]
  exact length_setBits_le a

/-! ## The extreme positions -/

namespace WordSet

theorem eq_empty_iff (s : WordSet W) : s = .empty ↔ memberList s.word = [] := by
  rw [memberList, List.map_eq_nil_iff, setBits_eq_nil_iff]
  exact ⟨congrArg word, fun h => eq_of_word_eq h⟩

/-- The lowest position is the first of the list, or past the last bit when the list is empty. -/
theorem lowestPosition_eq_head (s : WordSet W) :
    s.lowestPosition .direct = .ok ((memberList s.word).head?.getD (.past W)) := by
  unfold lowestPosition isInhabited
  by_cases hs : s.word = 0
  · rw [if_neg (by simp [hs]), hs, memberList_zero]
    rfl
  · rw [if_pos (bne_iff_ne.2 hs), Position.ofWord, if_neg hs, memberList_eq_cons hs]
    rfl

/-- The highest position is the last of the list, or before the first bit when the list is empty. -/
theorem highestPosition_eq_last (s : WordSet W) :
    s.highestPosition .direct = .ok ((memberList s.word).getLast?.getD .before) := by
  unfold highestPosition
  rw [Engine.direct_log2, Checked.ok_bind]
  by_cases hs : s.word = 0
  · rw [if_pos hs, hs, memberList_zero]
    exact congrArg Except.ok (Position.ext (Position.wrap_val (by decide)))
  · rw [if_neg hs, memberList_eq_concat hs, List.getLast?_concat]
    rfl

end WordSet

namespace Members

/-- The positions that are left, in ascending order. -/
def view (q : Members W) : List Position := memberList q.rest

/-! ## Taking from one end -/

/-- A step that takes the first of the positions that a queue shows, if it shows one. -/
def TakesFirst (shows : Members W → List Position)
    (step : Members W → Except Fault (Taken W)) : Prop :=
  ∀ q, ∃ q', step q = .ok ((shows q).head?, q') ∧ shows q' = (shows q).tail

theorem popFront_takesFirst : TakesFirst (W := W) view (popFront .direct) := by
  intro q
  unfold popFront view
  by_cases hq : q.rest = 0
  · refine ⟨q, ?_, ?_⟩
    · rw [if_pos hq, hq, memberList_zero]
      rfl
    · rw [hq, memberList_zero, List.tail_nil]
  · refine ⟨⟨dropLowest q.rest⟩, ?_, ?_⟩
    · rw [if_neg hq, memberList_eq_cons hq, Position.ofWord, if_neg hq]
      rfl
    · rw [memberList_eq_cons hq, List.tail_cons]

theorem popBack_takesFirst : TakesFirst (W := W) (fun q => q.view.reverse) (popBack .direct) := by
  intro q
  unfold popBack view
  beta_reduce
  by_cases hq : q.rest = 0
  · refine ⟨q, ?_, ?_⟩
    · rw [if_pos hq, hq, memberList_zero]
      rfl
    · rw [hq, memberList_zero]
      rfl
  · refine ⟨⟨q.rest ^^^ shiftUp 1 (shiftAmount q.rest.toNat.log2)⟩, ?_, ?_⟩
    · rw [if_neg hq, memberList_eq_concat hq, List.reverse_append, Engine.direct_log2, if_neg hq]
      rfl
    · show (memberList (q.rest ^^^ _)).reverse = _
      rw [shiftUp_one (log2_lt hq), memberList_eq_concat hq, List.reverse_append]
      rfl

variable {shows : Members W → List Position} {step : Members W → Except Fault (Taken W)}

/-- Skipping `n` positions and taking one gives the position at index `n` of those shown. -/
theorem popAt_spec (h : TakesFirst shows step) : ∀ (n : Nat) (q : Members W),
    ∃ q', popAt step n q = .ok ((shows q)[n]?, q') ∧ shows q' = (shows q).drop (n + 1)
  | 0, q => by
    obtain ⟨q', hstep, hshows⟩ := h q
    refine ⟨q', ?_, ?_⟩
    · rw [popAt, hstep, leaving_ok, List.head?_eq_getElem?]
    · rw [hshows, List.drop_one]
  | n + 1, q => by
    obtain ⟨q', hstep, hshows⟩ := h q
    rw [popAt, hstep, leaving_ok, Checked.ok_bind]
    -- a step that finds nothing ends the skipping early
    cases hl : shows q with
    | nil =>
      rw [hl] at hshows
      exact ⟨q', rfl, hshows⟩
    | cons p ps =>
      obtain ⟨q'', hpop, hrest⟩ := popAt_spec h n q'
      rw [hshows, hl, List.tail_cons] at hpop hrest
      refine ⟨q'', ?_, ?_⟩
      · rw [List.getElem?_cons_succ]
        exact hpop
      · rw [List.drop_succ_cons]
        exact hrest

/-- Draining takes the positions shown, as far as the number of steps reaches. -/
theorem drain_spec (h : TakesFirst shows step) : ∀ (n : Nat) (q : Members W),
    drain step n q = .ok ((shows q).take n)
  | 0, q => by
    rw [List.take_zero]
    rfl
  | n + 1, q => by
    obtain ⟨q', hstep, hshows⟩ := h q
    rw [drain, hstep, Checked.ok_bind]
    cases hl : shows q with
    | nil => rfl
    | cons p ps =>
      have hrest := drain_spec h n q'
      rw [hshows, hl, List.tail_cons] at hrest
      rw [List.take_succ_cons]
      show (drain step n q' >>= fun ps => _) = _
      rw [hrest]
      rfl

/-! ## The whole queue -/

theorem toList_eq (q : Members W) : q.toList .direct = .ok q.view := by
  unfold toList
  rw [drain_spec popFront_takesFirst, List.take_of_length_le]
  exact length_memberList_le q.rest

theorem toListRev_eq (q : Members W) : q.toListRev .direct = .ok q.view.reverse := by
  unfold toListRev
  rw [drain_spec popBack_takesFirst, List.take_of_length_le]
  rw [List.length_reverse]
  exact length_memberList_le q.rest

theorem last_eq (q : Members W) : q.last .direct = .ok q.view.getLast? := by
  unfold last
  rw [toList_eq]
  rfl

theorem count_eq (q : Members W) : q.count .direct = .ok q.view.length := by
  unfold count
  rw [toList_eq]
  rfl

/-- The length, which is counted on the word, is that of the list. -/
theorem length_eq (q : Members W) : q.length .direct = .ok q.view.length := by
  unfold length view
  rw [Engine.direct_ones, length_memberList, length_setBits]

theorem bounds_eq (q : Members W) :
    q.bounds .direct = .ok (q.view.length, some q.view.length) := by
  unfold bounds
  rw [length_eq]
  rfl

/-- The positions that are left, collected again, make the word that is left. -/
theorem toSet_eq (q : Members W) : q.toSet .direct = .ok (.ofWord q.rest) := by
  unfold toSet
  rw [toList_eq]
  exact WordSet.ofPositions_memberList q.rest

end Members

end Wordwise
