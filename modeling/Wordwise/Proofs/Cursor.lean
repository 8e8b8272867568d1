/-
Runs of the cursor over single-member sets. A run gives the answers of a list that is taken from the
front and starts as the single-member sets of a word, the lowest first, and the cursor shows what
that list still holds. The bits that are not left are the bits that the cursor has yielded: at every
moment the sets passed so far and the word that is left part the word between them.
-/
import Wordwise.Proofs.Script
import Wordwise.Proofs.Singles
import Wordwise.Script.Cursors

namespace Wordwise.Singles

variable {W : Width}

/-! ## The list that a cursor is -/

/-- The union of sets without common members, as the number that they sum up to. -/
def listUnion (W : Width) (l : List (WordSet W)) : WordSet W :=
  .ofWord (BitVec.ofNat W.bits (l.map fun s => s.word.toNat).sum)

/-- A step on a list of sets that is taken from the front. -/
def listStep (l : List (WordSet W)) : Step W → Script.Outcome (List (WordSet W)) (Reply W)
  | .next => ⟨l.tail, .set? l.head?⟩
  | .drop => ⟨l.tail, .none⟩
  | .nextAt n => ⟨l.drop (n + 1), .set? l[n]?⟩
  | .current => ⟨l, .set (l.head?.getD .empty)⟩
  | .isDone => ⟨l, .flag l.isEmpty⟩
  | .length => ⟨l, .count l.length⟩
  | .bounds => ⟨l, .bounds l.length (some l.length)⟩
  | .equals d => ⟨l, .flag (l == d.view)⟩
  | .last => ⟨l, .set? l.getLast?⟩
  | .count => ⟨l, .count l.length⟩
  | .toList => ⟨l, .sets l⟩
  | .toSet => ⟨l, .set (listUnion W l)⟩

theorem listUnion_singleList (a : Word W) : listUnion W (singleList a) = .ofWord a := by
  have hsum : ((singleList a).map fun s => s.word.toNat) = (setBits a).map (2 ^ ·) := by
    unfold singleList
    rw [List.map_map]
    refine List.map_congr_left fun i hi => ?_
    rw [Function.comp_apply, WordSet.word_ofWord, BitVec.toNat_twoPow_of_lt (lt_of_mem_setBits hi)]
  unfold listUnion
  rw [hsum, sum_setBits, BitVec.ofNat_toNat, BitVec.setWidth_eq]

theorem view_injective : Function.Injective (view : Singles W → List (WordSet W)) := by
  intro c d h
  exact Singles.ext (singleList_injective h)

/-- Two cursors are equal exactly when the same sets are left. -/
theorem beq_eq (c d : Singles W) : (c == d) = (c.view == d.view) := by
  rw [Bool.eq_iff_iff, beq_iff_eq, beq_iff_eq]
  exact view_injective.eq_iff.symm

/-- A step of the cursor is the step of the list that it shows. -/
theorem step_shows : Script.Shows view (step .direct) (listStep (W := W)) := by
  intro c i
  cases i with
  | next =>
    refine ⟨c.drop, ?_, view_drop c⟩
    rw [step, next_eq]
    rfl
  | drop => exact ⟨c.drop, rfl, view_drop c⟩
  | nextAt n =>
    obtain ⟨hitem, hrest⟩ := nextAt_spec n c
    refine ⟨(c.nextAt n).2, ?_, hrest⟩
    rw [step, hitem]
    rfl
  | current =>
    refine ⟨c, ?_, rfl⟩
    rw [step, current_eq]
    rfl
  | isDone =>
    refine ⟨c, ?_, rfl⟩
    rw [step, isDone_eq]
    rfl
  | length =>
    refine ⟨c, ?_, rfl⟩
    rw [step, length_eq]
    rfl
  | bounds =>
    refine ⟨c, ?_, rfl⟩
    rw [step, bounds_eq]
    rfl
  | equals d =>
    refine ⟨c, ?_, rfl⟩
    rw [step, beq_eq]
    rfl
  | last =>
    refine ⟨c, ?_, rfl⟩
    rw [step, last, toList_eq]
    rfl
  | count =>
    refine ⟨c, ?_, rfl⟩
    rw [step, count, toList_eq]
    rfl
  | toList =>
    refine ⟨c, ?_, rfl⟩
    rw [step, toList_eq]
    rfl
  | toSet =>
    refine ⟨c, ?_, rfl⟩
    rw [step, toSet_eq, remaining, ← listUnion_singleList]
    rfl

/-! ## What a run passes -/

/-- The front of the list. A step that drops a set passes it without giving it out. -/
def front (W : Width) : Script.End (Step W) (Reply W) (WordSet W) where
  shows := id
  takes
    | .next => 1
    | .drop => 1
    | .nextAt n => n + 1
    | _ => 0
  skips
    | .drop => 1
    | .nextAt n => n
    | _ => 0
  gives
    | .next, .set? s => s
    | .nextAt _, .set? s => s
    | _, _ => none

theorem front_fits : (front W).Fits listStep := by
  intro l i
  cases i with
  | next => exact List.take_one
  | drop => exact (List.append_nil _).symm
  | nextAt n => exact List.take_add_one
  | _ => rfl

theorem take_append_state (l : List (WordSet W)) (i : Step W) :
    l.take ((front W).takes i) ++ (listStep l i).state = l := by
  cases i with
  | next =>
    show l.take 1 ++ l.tail = l
    rw [← List.drop_one, List.take_append_drop]
  | drop =>
    show l.take 1 ++ l.tail = l
    rw [← List.drop_one, List.take_append_drop]
  | nextAt n => exact List.take_append_drop (n + 1) l
  | _ => rfl

/-- What a run passes and what it leaves is what it started with. -/
theorem taken_append_view : ∀ (is : List (Step W)) (c : Singles W),
    Script.taken (front W) listStep c.view is ++ (Script.final (step .direct) c is).view = c.view
  | [], c => List.nil_append _
  | i :: is, c => by
    obtain ⟨c', hstep, hview⟩ := step_shows c i
    rw [Script.final_cons_ok hstep, Script.taken, ← hview, List.append_assoc, taken_append_view is c',
      hview]
    exact take_append_state c.view i

/-! ## Parts of a word -/

section
variable {a b : Word W} {passed : List (WordSet W)} (h : passed ++ singleList b = singleList a)
include h

/-- The union of the sets passed and the word that is left make the word. -/
theorem ofSets_or_rest : (WordSet.ofSets passed).word ||| b = a := by
  apply BitVec.eq_of_getLsbD_eq
  intro j _
  rw [BitVec.getLsbD_or, Bool.eq_iff_iff, Bool.or_eq_true, WordSet.getLsbD_ofSets,
    ← exists_mem_singleList_iff, ← exists_mem_singleList_iff, ← h]
  simp only [List.mem_append, or_and_right, exists_or]

/-- No bit of the word that is left is in a set that was passed. -/
theorem ofSets_and_rest : (WordSet.ofSets passed).word &&& b = 0 := by
  have hdisjoint := singleList_pairwise_disjoint a
  rw [← h, List.pairwise_append] at hdisjoint
  apply BitVec.eq_of_getLsbD_eq
  intro j _
  have hzero : (0 : Word W).getLsbD j = false := BitVec.getLsbD_zero
  rw [BitVec.getLsbD_and, hzero, ← Bool.not_eq_true, Bool.and_eq_true]
  -- a common bit would be a common member of a set passed and of one that is left
  rintro ⟨hp, hb⟩
  obtain ⟨s, hs, hsj⟩ := (WordSet.getLsbD_ofSets passed j).1 hp
  obtain ⟨t, ht, htj⟩ := exists_mem_singleList_iff.2 hb
  have hst := congrArg (fun u : WordSet W => u.word.getLsbD j) (hdisjoint.2.2 s hs t ht)
  rw [WordSet.word_and, BitVec.getLsbD_and, hsj, htj] at hst
  simp at hst

end

/-! ## Whole runs -/

/-- The results of a run that starts with all members of a word. -/
def outcomes (e : Engine) (a : Word W) (is : List (Step W)) :
    List (Script.Result (Singles W) (Reply W)) :=
  Script.run (step e) (WordSet.ofWord a).singles is

/-- The cursor that a run leaves which starts with all members of a word. -/
def leftover (e : Engine) (a : Word W) (is : List (Step W)) : Singles W :=
  Script.final (step e) (WordSet.ofWord a).singles is

/-- The sets that a run passes which starts with all members of a word: those that it gives out and
those that it drops or skips on the way. -/
def passed (a : Word W) (is : List (Step W)) : List (WordSet W) :=
  Script.taken (front W) listStep (singleList a) is

/-- A run is one of a list that is taken from the front and starts as the single-member sets of a
word. -/
structure RunsAsList (e : Engine) (a : Word W) (is : List (Step W)) : Prop where
  answers : (outcomes e a is).map (Script.Result.map view) =
    Script.run (fun l i => .ok (listStep l i)) (singleList a) is
  parts : passed a is ++ (leftover e a is).view = singleList a
  yielded : (Script.delivered (front W) is (outcomes e a is)).Sublist (passed a is)
  unskipped : (∀ i ∈ is, (front W).skips i = 0) →
    Script.delivered (front W) is (outcomes e a is) = passed a is
  single : ∀ s ∈ passed a is, s.isSingleton = .ok true
  ascending : (passed a is).Pairwise (· < ·)
  disjoint : (passed a is).Pairwise fun s t => s &&& t = .empty
  whole : (WordSet.ofSets (passed a is)).word ||| (leftover e a is).remaining.word = a
  apart : (WordSet.ofSets (passed a is)).word &&& (leftover e a is).remaining.word = 0
  listed : (leftover e a is).toList = (leftover e a is).view
  union : (leftover e a is).toSet = (leftover e a is).remaining
  positions : ∃ ps, (leftover e a is).remaining.members.toList e = .ok ps ∧
    ps.map (fun p => p.toWord W) = (leftover e a is).toList.map fun s => .ok s.word
  equal : ∀ d : Singles W, leftover e a is = d ↔ (leftover e a is).remaining = d.remaining
  equal_listed : ∀ d : Singles W, leftover e a is = d ↔ (leftover e a is).toList = d.toList
  equal_done : leftover e a is = default ↔ (leftover e a is).isDone = true

/-- With either engine, every run of the cursor over the members of a word is that of a list. -/
theorem cursor_runs_as_list (portable : Bool) (a : Word W) (is : List (Step W)) :
    RunsAsList (.select portable) a is := by
  rw [Engine.select_eq_direct]
  have hparts : passed a is ++ (leftover .direct a is).view = singleList a :=
    taken_append_view is (WordSet.ofWord a).singles
  have hpassed : (passed a is).Sublist (singleList a) := by
    rw [← hparts]
    exact List.sublist_append_left ..
  constructor
  case answers => exact step_shows.run_eq is _
  case parts => exact hparts
  case yielded => exact Script.delivered_sublist step_shows front_fits is _
  case unskipped => exact Script.delivered_eq step_shows front_fits is _
  case single => exact fun s hs => isSingleton_of_mem (hpassed.subset hs)
  case ascending => exact (singleList_pairwise_lt a).sublist hpassed
  case disjoint => exact (singleList_pairwise_disjoint a).sublist hpassed
  case whole => exact ofSets_or_rest hparts
  case apart => exact ofSets_and_rest hparts
  case listed => exact toList_eq _
  case union => exact toSet_eq _
  case positions =>
    refine ⟨_, Members.toList_eq _, ?_⟩
    rw [toList_eq]
    exact map_toWord_memberList _
  case equal =>
    intro d
    constructor
    · exact congrArg remaining
    · exact fun h => Singles.ext (congrArg WordSet.word h)
  case equal_listed =>
    intro d
    rw [toList_eq, toList_eq]
    exact view_injective.eq_iff.symm
  case equal_done =>
    constructor
    · intro h
      rw [h]
      exact beq_self_eq_true _
    · exact fun h => Singles.ext (beq_iff_eq.1 h)

end Wordwise.Singles
