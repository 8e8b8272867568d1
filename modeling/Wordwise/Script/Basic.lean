/-
Scripts: lists of steps on a value, each of which changes it in place. A step answers, or is refused;
either way it leaves a value, from which the script goes on. Tried on a copy, a step that is refused
leaves the value as it was.
-/
import Wordwise.Fault

namespace Wordwise.Script

variable {σ ι ρ : Type}

/-- What a step leaves: the value after it, and its answer. -/
structure Outcome (σ ρ : Type) where
  state : σ
  reply : ρ
deriving DecidableEq

/-- What a step comes to, refused or not. -/
abbrev Result (σ ρ : Type) := Except (Refusal σ) (Outcome σ ρ)

/-- The value that a step leaves, refused or not. -/
def left : Result σ ρ → σ
  | .error r => r.state
  | .ok out => out.state

/-- The value after a step. -/
def after (step : σ → ι → Result σ ρ) (s : σ) (i : ι) : σ := left (step s i)

/-- The results of all steps in order. -/
def run (step : σ → ι → Result σ ρ) : σ → List ι → List (Result σ ρ)
  | _, [] => []
  | s, i :: is => step s i :: run step (after step s i) is

/-- The value after all steps. -/
def final (step : σ → ι → Result σ ρ) (s : σ) (is : List ι) : σ :=
  is.foldl (after step) s

/-- A step tried on a copy, which is dropped when the step is refused. -/
def onCopy (step : σ → ι → Result σ ρ) (s : σ) (i : ι) : Result σ ρ :=
  leaving s ((step s i).mapError Refusal.fault)

end Wordwise.Script
