/-
Runs of the queue of positions. A run gives the answers of a list that is open at both ends and
starts as the ascending list of the set bits, and the queue shows what that list still holds. What
the run takes at the front, what it leaves and what it takes at the back are the three parts of the
list that it started with, so the two ends never give the same position, and the front stays below
the back.
-/
import Wordwise.Proofs.Members
import Wordwise.Proofs.Script
import Wordwise.Script.Cursors

namespace Wordwise.Members

variable {W : Width}

/-! ## The list that a queue is -/

/-- The set of the positions of a list, as the number that they sum up to. -/
def listSet (W : Width) (l : List Position) : WordSet W :=
  .ofWord (BitVec.ofNat W.bits (l.map fun p => 2 ^ p.val.toNat).sum)

/-- A step on a list that is open at both ends. -/
def listStep (W : Width) (l : List Position) : Step → Script.Outcome (List Position) (Reply W)
  | .popFront => ⟨l.tail, .position? l.head?⟩
  | .popBack => ⟨l.dropLast, .position? l.getLast?⟩
  | .popFrontAt n => ⟨l.drop (n + 1), .position? l[n]?⟩
  | .popBackAt n => ⟨(l.reverse.drop (n + 1)).reverse, .position? l.reverse[n]?⟩
  | .length => ⟨l, .count l.length⟩
  | .bounds => ⟨l, .bounds l.length (some l.length)⟩
  | .last => ⟨l, .position? l.getLast?⟩
  | .count => ⟨l, .count l.length⟩
  | .toListRev => ⟨l, .positions l.reverse⟩
  | .toSet => ⟨l, .set (listSet W l)⟩

theorem listSet_memberList (a : Word W) : listSet W (memberList a) = .ofWord a := by
  have hsum : ((memberList a).map fun p => 2 ^ p.val.toNat) = (setBits a).map (2 ^ ·) := by
    unfold memberList
    rw [List.map_map]
    refine List.map_congr_left fun i hi => ?_
    rw [Function.comp_apply, Position.wrap_val_of_lt (lt_of_mem_setBits hi), Int.toNat_natCast]
  unfold listSet
  rw [hsum, sum_setBits, BitVec.ofNat_toNat, BitVec.setWidth_eq]

/-- A step of the queue is the step of the list that it shows. -/
theorem step_shows : Script.Shows view (step .direct) (listStep W) := by
  intro q i
  cases i with
  | popFront =>
    obtain ⟨q', h, hv⟩ := popFront_takesFirst q
    refine ⟨q', ?_, hv⟩
    rw [step, h]
    rfl
  | popBack =>
    obtain ⟨q', h, hv⟩ := popBack_takesFirst q
    refine ⟨q', ?_, ?_⟩
    · rw [step, h, List.head?_reverse]
      rfl
    · rw [List.tail_reverse] at hv
      exact List.reverse_injective hv
  | popFrontAt n =>
    obtain ⟨q', h, hv⟩ := popAt_spec popFront_takesFirst n q
    refine ⟨q', ?_, hv⟩
    rw [step, popFrontAt, h]
    rfl
  | popBackAt n =>
    obtain ⟨q', h, hv⟩ := popAt_spec popBack_takesFirst n q
    refine ⟨q', ?_, ?_⟩
    · rw [step, popBackAt, h]
      rfl
    · exact List.reverse_eq_iff.1 hv
  | length =>
    refine ⟨q, ?_, rfl⟩
    rw [step, length_eq]
    rfl
  | bounds =>
    refine ⟨q, ?_, rfl⟩
    rw [step, bounds_eq]
    rfl
  | last =>
    refine ⟨q, ?_, rfl⟩
    rw [step, last_eq]
    rfl
  | count =>
    refine ⟨q, ?_, rfl⟩
    rw [step, count_eq]
    rfl
  | toListRev =>
    refine ⟨q, ?_, rfl⟩
    rw [step, toListRev_eq]
    rfl
  | toSet =>
    refine ⟨q, ?_, rfl⟩
    rw [step, toSet_eq, ← listSet_memberList]
    rfl

/-! ## The two ends -/

def front (W : Width) : Script.End Step (Reply W) Position where
  shows := id
  takes
    | .popFront => 1
    | .popFrontAt n => n + 1
    | _ => 0
  skips
    | .popFrontAt n => n
    | _ => 0
  gives
    | .popFront, .position? p => p
    | .popFrontAt _, .position? p => p
    | _, _ => none

def back (W : Width) : Script.End Step (Reply W) Position where
  shows := List.reverse
  takes
    | .popBack => 1
    | .popBackAt n => n + 1
    | _ => 0
  skips
    | .popBackAt n => n
    | _ => 0
  gives
    | .popBack, .position? p => p
    | .popBackAt _, .position? p => p
    | _, _ => none

theorem front_fits : (front W).Fits (listStep W) := by
  intro l i
  cases i with
  | popFront => exact List.take_one
  | popFrontAt n => exact List.take_add_one
  | _ => rfl

theorem back_fits : (back W).Fits (listStep W) := by
  intro l i
  cases i with
  | popBack =>
    show l.reverse.take 1 = l.getLast?.toList
    rw [List.take_one, List.head?_reverse]
  | popBackAt n => exact List.take_add_one
  | _ => rfl

/-- A step takes one part of a list at the front, one at the back, and leaves the part between. -/
theorem take_append_state (l : List Position) (i : Step) :
    l.take ((front W).takes i) ++ (listStep W l i).state ++
      (l.reverse.take ((back W).takes i)).reverse = l := by
  have hback : ∀ n, (l.reverse.drop n).reverse ++ (l.reverse.take n).reverse = l := fun n => by
    rw [← List.reverse_append, List.take_append_drop, List.reverse_reverse]
  cases i with
  | popFront =>
    show l.take 1 ++ l.tail ++ [] = l
    rw [List.append_nil, ← List.drop_one, List.take_append_drop]
  | popBack =>
    show [] ++ l.dropLast ++ (l.reverse.take 1).reverse = l
    rw [List.nil_append, ← List.reverse_reverse l.dropLast, ← List.tail_reverse, ← List.drop_one, hback]
  | popFrontAt n =>
    show l.take (n + 1) ++ l.drop (n + 1) ++ [] = l
    rw [List.append_nil, List.take_append_drop]
  | popBackAt n => exact hback (n + 1)
  | _ => exact List.append_nil l

/-- What a run takes at the front, leaves, and takes at the back, is what it started with. -/
theorem taken_append_view : ∀ (is : List Step) (q : Members W),
    Script.taken (front W) (listStep W) q.view is ++ (Script.final (step .direct) q is).view ++
      (Script.taken (back W) (listStep W) q.view is).reverse = q.view
  | [], q => List.append_nil _
  | i :: is, q => by
    obtain ⟨q', hstep, hview⟩ := step_shows q i
    have hrest := taken_append_view is q'
    rw [Script.final_cons_ok hstep, Script.taken, Script.taken, List.reverse_append, ← hview]
    generalize Script.taken (front W) (listStep W) q'.view is = low at *
    generalize (Script.taken (back W) (listStep W) q'.view is).reverse = high at *
    generalize (Script.final (step .direct) q' is).view = left at *
    -- what the rest of the run takes lies between the two parts that this step takes
    calc q.view.take ((front W).takes i) ++ low ++ left ++
          (high ++ (q.view.reverse.take ((back W).takes i)).reverse)
        = q.view.take ((front W).takes i) ++ (low ++ left ++ high) ++
            (q.view.reverse.take ((back W).takes i)).reverse := by simp only [List.append_assoc]
      _ = q.view.take ((front W).takes i) ++ (listStep W q.view i).state ++
            (q.view.reverse.take ((back W).takes i)).reverse := by rw [hrest, hview]
      _ = q.view := take_append_state q.view i

/-! ## The end of a queue -/

theorem state_of_reply_none {l : List Position} {i : Step}
    (h : (listStep W l i).reply = .position? none) : (listStep W l i).state = [] := by
  cases i with
  | popFront =>
    cases l with
    | nil => rfl
    | cons p ps => cases h
  | popBack =>
    rw [List.getLast?_eq_none_iff.1 (Reply.position?.inj h)]
    rfl
  | popFrontAt n =>
    have := List.getElem?_eq_none_iff.1 (Reply.position?.inj h)
    exact List.drop_eq_nil_of_le (by omega)
  | popBackAt n =>
    have := List.getElem?_eq_none_iff.1 (Reply.position?.inj h)
    exact List.reverse_eq_nil_iff.2 (List.drop_eq_nil_of_le (by omega))
  | last => exact List.getLast?_eq_none_iff.1 (Reply.position?.inj h)
  | _ => cases h

/-- An empty queue stays empty and no answer of it has a position. -/
theorem reply_of_view_nil : ∀ (is : List Step) (q : Members W), q.view = [] →
    ∀ out ∈ Script.run (step .direct) q is, ∀ p, Script.reply? out ≠ some (.position? (some p))
  | [], _, _, _, hout, _ => nomatch hout
  | i :: is, q, hq, out, hout, p => by
    obtain ⟨q', hstep, hview⟩ := step_shows q i
    rw [Script.run_cons_ok hstep, List.mem_cons] at hout
    rw [hq] at hview hout
    -- no step puts a position back, so the rest of the run is one of an empty queue too
    rcases hout with rfl | hout
    · cases i <;> exact fun h => nomatch h
    · refine reply_of_view_nil is q' ?_ out hout p
      rw [hview]
      cases i <;> rfl

/-- After an answer that there is no position, no answer has one. -/
theorem exhausted : ∀ (is : List Step) (q : Members W),
    (Script.run (step .direct) q is).Pairwise fun x y =>
      Script.reply? x = some (.position? none) → ∀ p, Script.reply? y ≠ some (.position? (some p))
  | [], _ => List.Pairwise.nil
  | i :: is, q => by
    obtain ⟨q', hstep, hview⟩ := step_shows q i
    rw [Script.run_cons_ok hstep, List.pairwise_cons]
    refine ⟨?_, exhausted is q'⟩
    intro y hy hnone p
    exact reply_of_view_nil is q' (hview.trans (state_of_reply_none (Option.some.inj hnone))) y hy p

/-! ## Whole runs -/

/-- The results of a run that starts with all members of a word. -/
def outcomes (e : Engine) (a : Word W) (is : List Step) :
    List (Script.Result (Members W) (Reply W)) :=
  Script.run (step e) (WordSet.ofWord a).members is

/-- The queue that a run leaves which starts with all members of a word. -/
def leftover (e : Engine) (a : Word W) (is : List Step) : Members W :=
  Script.final (step e) (WordSet.ofWord a).members is

/-- The positions that a run gives out at the front, those that it leaves, and those that it gives
out at the back, from the front to the back. -/
def shares (e : Engine) (a : Word W) (is : List Step) : List Position :=
  Script.delivered (front W) is (outcomes e a is) ++ (leftover e a is).view ++
    (Script.delivered (back W) is (outcomes e a is)).reverse

/-- A run is one of a list that is open at both ends and starts as the set bits of a word. -/
structure RunsAsList (e : Engine) (a : Word W) (is : List Step) : Prop where
  answers : (outcomes e a is).map (Script.Result.map view) =
    Script.run (fun l i => .ok (listStep W l i)) (memberList a) is
  parts : Script.taken (front W) (listStep W) (memberList a) is ++ (leftover e a is).view ++
    (Script.taken (back W) (listStep W) (memberList a) is).reverse = memberList a
  apart : (shares e a is).Sublist (memberList a)
  ascending : (shares e a is).Pairwise (· < ·)
  complete : (∀ i ∈ is, (front W).skips i = 0 ∧ (back W).skips i = 0) →
    shares e a is = memberList a
  exhausted : (outcomes e a is).Pairwise fun x y =>
    Script.reply? x = some (.position? none) → ∀ p, Script.reply? y ≠ some (.position? (some p))
  last : ∃ t, (leftover e a is).popBack e = .ok t ∧ (leftover e a is).last e = .ok t.1
  count : ∃ n, (leftover e a is).count e = .ok n ∧ (leftover e a is).length e = .ok n
  listed : (leftover e a is).toList e = .ok (leftover e a is).view
  reversed : (leftover e a is).toListRev e = .ok (leftover e a is).view.reverse
  collected : (leftover e a is).toSet e = .ok (.ofWord (leftover e a is).rest)

/-- With either engine, every run of the queue over the set bits of a word is that of a list. -/
theorem queue_runs_as_list (portable : Bool) (a : Word W) (is : List Step) :
    RunsAsList (.select portable) a is := by
  rw [Engine.select_eq_direct]
  have hparts := taken_append_view is (WordSet.ofWord a).members
  have hlow := Script.delivered_sublist step_shows front_fits is (WordSet.ofWord a).members
  have hhigh := Script.delivered_sublist step_shows back_fits is (WordSet.ofWord a).members
  have hapart : (shares .direct a is).Sublist (memberList a) := by
    have h := (hlow.append_right (Script.final (step .direct) (WordSet.ofWord a).members is).view).append
      hhigh.reverse
    rw [hparts] at h
    exact h
  constructor
  case answers => exact step_shows.run_eq is _
  case parts => exact hparts
  case apart => exact hapart
  case ascending => exact (memberList_pairwise a).sublist hapart
  case complete =>
    intro hskip
    unfold shares outcomes
    rw [Script.delivered_eq step_shows front_fits is _ fun i hi => (hskip i hi).1,
      Script.delivered_eq step_shows back_fits is _ fun i hi => (hskip i hi).2]
    exact hparts
  case exhausted => exact exhausted is _
  case last =>
    obtain ⟨q, hpop, -⟩ := popBack_takesFirst (leftover .direct a is)
    refine ⟨_, hpop, ?_⟩
    rw [last_eq, List.head?_reverse]
  case count => exact ⟨_, count_eq _, length_eq _⟩
  case listed => exact toList_eq _
  case reversed => exact toListRev_eq _
  case collected => exact toSet_eq _

end Wordwise.Members
