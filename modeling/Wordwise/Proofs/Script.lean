/-
Runs of scripts. A result of a run is that of one step at the value that the steps before it leave,
and a step that leaves the value as it was can be left out, refused or not. What every step keeps, a
script keeps. Where every step of one machine answers as the step of another on the image of its
state, whole runs do too, refused steps included. For a machine that shows a list and takes elements
at one of its ends, a run gives out what it takes there, save what its steps skip.
-/
import Wordwise.Script.Basic

namespace Wordwise.Script

variable {σ τ ι ρ : Type}

def Outcome.map (view : σ → τ) (out : Outcome σ ρ) : Outcome τ ρ := ⟨view out.state, out.reply⟩

/-- What a step comes to, seen through a view of the values that it can leave. -/
def Result.map (view : σ → τ) : Result σ ρ → Result τ ρ
  | .error r => .error ⟨r.fault, view r.state⟩
  | .ok out => .ok (out.map view)

theorem left_map (view : σ → τ) (x : Result σ ρ) : left (Result.map view x) = view (left x) := by
  cases x <;> rfl

/-! ## Places in a run -/

section
variable {step : σ → ι → Result σ ρ}

theorem run_cons (s : σ) (i : ι) (is : List ι) :
    run step s (i :: is) = step s i :: run step (after step s i) is := rfl

theorem final_cons (s : σ) (i : ι) (is : List ι) :
    final step s (i :: is) = final step (after step s i) is := rfl

theorem after_ok {s : σ} {i : ι} {out : Outcome σ ρ} (h : step s i = .ok out) :
    after step s i = out.state := by
  rw [after, h]
  rfl

theorem after_error {s : σ} {i : ι} {r : Refusal σ} (h : step s i = .error r) :
    after step s i = r.state := by
  rw [after, h]
  rfl

theorem run_cons_ok {s : σ} {i : ι} {out : Outcome σ ρ} (h : step s i = .ok out) (is : List ι) :
    run step s (i :: is) = .ok out :: run step out.state is := by
  rw [run_cons, after_ok h, h]

theorem final_cons_ok {s : σ} {i : ι} {out : Outcome σ ρ} (h : step s i = .ok out) (is : List ι) :
    final step s (i :: is) = final step out.state is := by
  rw [final_cons, after_ok h]

/-- The result at an index is that of the step there, at the value that the steps before it leave. -/
theorem getElem?_run : ∀ (is : List ι) (s : σ) (k : Nat),
    (run step s is)[k]? = is[k]?.map fun i => step (final step s (is.take k)) i
  | [], _, _ => rfl
  | i :: is, s, 0 => by
    rw [run_cons]
    rfl
  | i :: is, s, k + 1 => by
    rw [run_cons, List.getElem?_cons_succ, List.getElem?_cons_succ, List.take_succ_cons, final_cons]
    exact getElem?_run is (after step s i) k

theorem getElem?_run_eq_some_iff {is : List ι} {s : σ} {k : Nat} {out : Result σ ρ} :
    (run step s is)[k]? = some out ↔ ∃ i, is[k]? = some i ∧ step (final step s (is.take k)) i = out := by
  rw [getElem?_run, Option.map_eq_some_iff]

theorem step_eq_of_getElem? {is : List ι} {s : σ} {k : Nat} {i : ι} {out : Result σ ρ}
    (hi : is[k]? = some i) (hout : (run step s is)[k]? = some out) :
    step (final step s (is.take k)) i = out := by
  rw [getElem?_run, hi] at hout
  exact Option.some.inj hout

theorem final_take_succ {is : List ι} {k : Nat} {i : ι} (h : is[k]? = some i) (s : σ) :
    final step s (is.take (k + 1)) = after step (final step s (is.take k)) i := by
  unfold final
  rw [List.take_add_one, h, List.foldl_append]
  rfl

section
variable {is : List ι} {s : σ} {k : Nat} {i j : ι} (hi : is[k]? = some i)
include hi

end

/-- What the steps of a script keep, the script keeps. -/
theorem final_inv {I : σ → Prop} {allowed : ι → Prop}
    (hstep : ∀ s i, I s → allowed i → I (after step s i)) :
    ∀ (is : List ι) (s : σ), I s → (∀ i ∈ is, allowed i) → I (final step s is)
  | [], _, hs, _ => hs
  | i :: is, s, hs, hall => by
    obtain ⟨hi, his⟩ := List.forall_mem_cons.1 hall
    exact final_inv hstep is (after step s i) (hstep s i hs hi) his

/-! ## Steps on a copy -/

theorem onCopy_eq_ok_iff {s : σ} {i : ι} {out : Outcome σ ρ} :
    onCopy step s i = .ok out ↔ step s i = .ok out :=
  leaving_eq_ok_iff.trans mapError_eq_ok_iff

/-- A step that is tried on a copy leaves the value that it makes, or the value as it was. -/
theorem after_onCopy (s : σ) (i : ι) :
    after (onCopy step) s i = after step s i ∨ after (onCopy step) s i = s := by
  unfold after onCopy
  cases step s i with
  | ok out => exact .inl rfl
  | error r => exact .inr rfl

end

/-! ## Two machines -/

section
variable {view : σ → τ} {step : σ → ι → Result σ ρ} {step' : τ → ι → Result τ ρ}

theorem after_map (h : ∀ s i, Result.map view (step s i) = step' (view s) i) (s : σ) (i : ι) :
    view (after step s i) = after step' (view s) i := by
  rw [after, after, ← h, left_map]

/-- A run seen through a view is the run of the machine that the view shows. -/
theorem run_map (h : ∀ s i, Result.map view (step s i) = step' (view s) i) :
    ∀ (is : List ι) (s : σ), (run step s is).map (Result.map view) = run step' (view s) is
  | [], _ => rfl
  | i :: is, s => by
    rw [run_cons, List.map_cons, run_cons, h, ← after_map h, run_map h is]

/-- The value after a run, seen through a view. -/
theorem final_map (h : ∀ s i, Result.map view (step s i) = step' (view s) i) :
    ∀ (is : List ι) (s : σ), view (final step s is) = final step' (view s) is
  | [], _ => rfl
  | i :: is, s => by
    rw [final_cons, final_cons, ← after_map h, final_map h is]

end

/-! ## Machines that show another -/

/-- No step is refused, and a step answers and moves as the step of the machine that is shown. -/
def Shows (view : σ → τ) (step : σ → ι → Result σ ρ) (next : τ → ι → Outcome τ ρ) : Prop :=
  ∀ s i, ∃ s', step s i = .ok ⟨s', (next (view s) i).reply⟩ ∧ view s' = (next (view s) i).state

/-- The answer of a step that is not refused. -/
def reply? : Result σ ρ → Option ρ
  | .ok out => some out.reply
  | .error _ => none

theorem Shows.run_eq {view : σ → τ} {step : σ → ι → Result σ ρ} {next : τ → ι → Outcome τ ρ}
    (h : Shows view step next) (is : List ι) (s : σ) :
    (run step s is).map (Result.map view) = run (fun t i => .ok (next t i)) (view s) is := by
  refine run_map (fun s i => ?_) is s
  obtain ⟨s', hstep, hview⟩ := h s i
  rw [hstep]
  show Except.ok (Outcome.mk (view s') _) = _
  rw [hview]

/-! ## Taking from the end of a list -/

/-- One end of a list: how the list looks from there, how many elements a step takes there, how many
of these it skips, and what its answer gives out. -/
structure End (ι ρ α : Type) where
  shows : List α → List α
  takes : ι → Nat
  skips : ι → Nat
  gives : ι → ρ → Option α

section
variable {α : Type} (E : End ι ρ α) {view : σ → List α} {step : σ → ι → Result σ ρ}
  {next : List α → ι → Outcome (List α) ρ}

/-- The elements that a run takes at an end, in the order in which it takes them. -/
def taken (next : List α → ι → Outcome (List α) ρ) : List α → List ι → List α
  | _, [] => []
  | l, i :: is => (E.shows l).take (E.takes i) ++ taken next (next l i).state is

/-- The elements that a run gives out at an end. -/
def delivered (is : List ι) (outs : List (Result σ ρ)) : List α :=
  (is.zip outs).filterMap fun x => (reply? x.2).bind (E.gives x.1)

/-- A step takes the elements that it skips and the one that it gives out. -/
def End.Fits (next : List α → ι → Outcome (List α) ρ) : Prop :=
  ∀ l i, (E.shows l).take (E.takes i) =
    (E.shows l).take (E.skips i) ++ (E.gives i (next l i).reply).toList

theorem delivered_cons (i : ι) (is : List ι) (out : Outcome σ ρ) (outs : List (Result σ ρ)) :
    delivered E (i :: is) (.ok out :: outs) = (E.gives i out.reply).toList ++ delivered E is outs := by
  unfold delivered
  rw [List.zip_cons_cons]
  cases h : E.gives i out.reply with
  | none => exact List.filterMap_cons_none h
  | some a => exact List.filterMap_cons_some h

variable {E}

/-- What a run gives out at an end, it takes there, and in the same order. -/
theorem delivered_sublist (h : Shows view step next) (hE : E.Fits next) : ∀ (is : List ι) (s : σ),
    (delivered E is (run step s is)).Sublist (taken E next (view s) is)
  | [], _ => List.Sublist.refl _
  | i :: is, s => by
    obtain ⟨s', hstep, hview⟩ := h s i
    rw [run_cons_ok hstep, delivered_cons, taken, ← hview, hE (view s) i]
    exact (List.sublist_append_right ..).append (delivered_sublist h hE is s')

/-- A run that skips nothing at an end gives out all that it takes there. -/
theorem delivered_eq (h : Shows view step next) (hE : E.Fits next) : ∀ (is : List ι) (s : σ),
    (∀ i ∈ is, E.skips i = 0) → delivered E is (run step s is) = taken E next (view s) is
  | [], _, _ => rfl
  | i :: is, s, hskip => by
    obtain ⟨s', hstep, hview⟩ := h s i
    have hrest := delivered_eq h hE is s' fun j hj => hskip j (List.mem_cons_of_mem _ hj)
    rw [run_cons_ok hstep, delivered_cons, taken, ← hview, hE (view s) i,
      hskip i (List.mem_cons_self ..), List.take_zero, List.nil_append, hrest]

end

end Wordwise.Script
