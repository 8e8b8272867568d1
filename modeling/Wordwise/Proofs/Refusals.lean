/-
When a position refuses a step. One table says, for every step and every place, with which text it is
refused, if it is, another what it leaves then, and a third to which places it leads otherwise. The
bounds differ: a step up stops at the end of the widest word, a sum at sixteen bits, a scan at the ends
of the word that it looks through; and a scan that may start is still refused when its operand cannot
be read, except from the last bit, where it does not read it. Every script follows the tables. A
refused step might as well not be there, save an upward scan that its operand stops: it has gone one
up, and might as well be a step up.
-/
import Wordwise.Proofs.Engine.Agreement
import Wordwise.Proofs.Scan
import Wordwise.Proofs.Script
import Wordwise.Script.Positions

namespace Wordwise

variable {W : Width}

/-! ## Texts -/

theorem ofList_decimal (i : Int) : String.ofList (decimal i) = toString i := by
  cases i with
  | ofNat n => rfl
  | negSucc n =>
    have hneg : decimal (.negSucc n) = ['-'] ++ Nat.toDigits 10 (n + 1) :=
      if_pos (Int.negSucc_lt_zero n)
    rw [hneg, String.ofList_append]
    rfl

/-- The text of a refusal, if there is one. -/
def Fault.text? {α : Type} : Except Fault α → Option String
  | .error f => some f.message
  | .ok _ => none

/-- The text of a refused change in place, if it was refused. -/
def Refusal.text? {σ α : Type} (x : Except (Refusal σ) α) : Option String :=
  Fault.text? (x.mapError Refusal.fault)

/-- The text with which reading an operand is refused, if it is. -/
def Operand.refusal? : Operand W → Option String
  | .position p =>
    if 0 ≤ p.val ∧ p.val < W.bits then none
    else some ("Bit index " ++ toString p.val ++ " out of bounds")
  | .form _ => none

/-- An operand stands for a word, or is refused with its text. -/
theorem Operand.refusal?_cases (o : Operand W) :
    (∃ a, o.Denotes a ∧ o.refusal? = none) ∨ ∃ f, o.read = .error f ∧ o.refusal? = some f.message := by
  cases h : o.read with
  | ok a =>
    refine .inl ⟨a, Operand.read_eq_ok_iff.1 h, ?_⟩
    cases Operand.read_eq_ok_iff.1 h with
    | position p i hp hi => exact if_pos (by omega)
    | _ => rfl
  | error f =>
    obtain ⟨p, rfl, hp, rfl⟩ := Operand.read_eq_error_iff.1 h
    refine .inr ⟨_, rfl, (if_neg hp).trans ?_⟩
    rw [Fault.message, ofList_decimal]

namespace Position

/-- The text with which a scan is refused that starts outside its range. -/
def scanText (direction : String) (p : Int) (W : Width) : String :=
  direction ++ " bit scan from bit index " ++ toString p ++ " in a " ++ toString W.bits ++ " bit mask"

theorem scanMessage_eq (direction : String) (p : Int) (W : Width) :
    Fault.scanMessage direction p W = scanText direction p W := by
  rw [Fault.scanMessage, ofList_decimal, ofList_decimal]
  rfl

/-! ## The law of a step -/

/-- The text with which a step is refused at a place, if it is. -/
def Step.refusal? (p : Int) : Step → Option String
  | .succ => if p < 128 then none else some ("Bit index " ++ toString p ++ " cannot be incremented")
  | .pred => if -1 < p then none else some ("Bit index " ++ toString p ++ " cannot be decremented")
  | .add n => if -32768 ≤ p + n ∧ p + n ≤ 32767 then none else some "attempt to add with overflow"
  | .sub n => if -32768 ≤ p - n ∧ p - n ≤ 32767 then none else some "attempt to subtract with overflow"
  | .next W o =>
    if -1 ≤ p ∧ p < W.bits then if p ≤ W.bits - 2 then o.refusal? else none
    else some (scanText "Next" p W)
  | .prev W o => if 0 < p ∧ p ≤ W.bits then o.refusal? else some (scanText "Previous" p W)
  | _ => none

/-- A step that a row of the table does not refuse meets the condition of the row. -/
theorem permitted_of_none {c : Prop} [Decidable c] {rest : Option String} {text : String}
    (h : (if c then rest else some text) = none) : c := by
  by_contra hc
  rw [if_neg hc] at h
  cases h

/-- The places to which a step leads that is not refused. -/
def Step.Leads (p q : Int) : Step → Prop
  | .succ => q = p + 1
  | .pred => q = p - 1
  | .add n => q = p + n
  | .sub n => q = p - n
  | .next W o => if p = W.bits - 1 then q = W.bits else ∃ a, o.Denotes a ∧ IsLeast (stopsAbove a p) q
  | .prev _ o => ∃ a, o.Denotes a ∧ IsGreatest (stopsBelow a p) q
  | .goto r => q = r.val
  | .toBefore => q = -1
  | .toFirst => q = 0
  | .toPast W => q = W.bits
  | _ => q = p

/-- The place that a step leaves when it is refused. An upward scan that may start has gone one up
before it reads its operand. -/
def Step.leaves (p : Int) : Step → Int
  | .next W _ => if -1 ≤ p ∧ p < W.bits then p + 1 else p
  | _ => p

/-- What a step at a position comes to is what the tables say. -/
structure Step.Lawful (i : Step) (p : Position) (out : Script.Result Position Reply) : Prop where
  refused : Refusal.text? out = i.refusal? p.val
  leads : ∀ o, out = .ok o → i.Leads p.val o.state.val
  leaves : ∀ r, out = .error r → r.state.val = i.leaves p.val

theorem Step.lawful_ok {i : Step} {p q : Position} {r : Reply} (hr : i.refusal? p.val = none)
    (hl : i.Leads p.val q.val) : i.Lawful p (.ok ⟨q, r⟩) := by
  refine ⟨hr.symm, ?_, ?_⟩
  · rintro o ⟨⟩
    exact hl
  · rintro r ⟨⟩

theorem Step.lawful_error {i : Step} {p q : Position} {f : Fault}
    (hr : i.refusal? p.val = some f.message) (hl : q.val = i.leaves p.val) :
    i.Lawful p (.error ⟨f, q⟩) := by
  refine ⟨hr.symm, ?_, ?_⟩
  · rintro o ⟨⟩
  · rintro r ⟨⟩
    exact hl

section
variable (e : Engine) (p : Position)

theorem succ_lawful : Step.succ.Lawful p (step e p .succ) := by
  by_cases hp : p.val < 128
  · obtain ⟨q, hq, hval⟩ := succ_spec hp
    rw [step, hq]
    exact Step.lawful_ok (if_pos hp) hval
  · rw [step, succ_error hp]
    refine Step.lawful_error ((if_neg hp).trans ?_) rfl
    rw [Fault.message, ofList_decimal]

theorem pred_lawful : Step.pred.Lawful p (step e p .pred) := by
  by_cases hp : -1 < p.val
  · obtain ⟨q, hq, hval⟩ := pred_spec hp
    rw [step, hq]
    exact Step.lawful_ok (if_pos hp) hval
  · rw [step, pred_error hp]
    refine Step.lawful_error ((if_neg hp).trans ?_) rfl
    rw [Fault.message, ofList_decimal]

theorem add_lawful (n : Int) : (Step.add n).Lawful p (step e p (.add n)) := by
  by_cases hn : -32768 ≤ p.val + n ∧ p.val + n ≤ 32767
  · rw [step, Position.add, hold_eq hn]
    exact Step.lawful_ok (if_pos hn) rfl
  · rw [step, Position.add, hold_error hn]
    exact Step.lawful_error (if_neg hn) rfl

theorem sub_lawful (n : Int) : (Step.sub n).Lawful p (step e p (.sub n)) := by
  by_cases hn : -32768 ≤ p.val - n ∧ p.val - n ≤ 32767
  · rw [step, Position.sub, hold_eq hn]
    exact Step.lawful_ok (if_pos hn) rfl
  · rw [step, Position.sub, hold_error hn]
    exact Step.lawful_error (if_neg hn) rfl

end

/-- An upward scan checks its start first, goes one up and reads its operand then, save from the last
bit. -/
theorem next_lawful (p : Position) (o : Operand W) :
    (Step.next W o).Lawful p (step .direct p (.next W o)) := by
  by_cases hp : -1 ≤ p.val ∧ p.val < W.bits
  · by_cases hlast : p.val = W.bits - 1
    · rw [step, next_last hlast]
      refine Step.lawful_ok ?_ ?_
      · exact (if_pos hp).trans (if_neg (by omega))
      · exact (if_pos hlast).mpr rfl
    · have htext : (Step.next W o).refusal? p.val = o.refusal? :=
        (if_pos hp).trans (if_pos (by omega))
      rcases o.refusal?_cases with ⟨a, ha, hnone⟩ | ⟨f, hf, hsome⟩
      · obtain ⟨q, hq, hleast⟩ := next_spec ha hp.1 hp.2
        rw [step, hq]
        refine Step.lawful_ok (htext.trans hnone) ?_
        exact (if_neg hlast).mpr ⟨a, ha, hleast⟩
      · obtain ⟨q, hq, hval⟩ := next_unread (e := .direct) hp.1 (by omega) hf
        rw [step, hq]
        exact Step.lawful_error (htext.trans hsome) (hval.trans (if_pos hp).symm)
  · rw [step, next_error hp]
    refine Step.lawful_error ((if_neg hp).trans ?_) (if_neg hp).symm
    rw [Fault.message, scanMessage_eq]

/-- A downward scan checks its start first and its operand then. -/
theorem prev_lawful (p : Position) (o : Operand W) :
    (Step.prev W o).Lawful p (step .direct p (.prev W o)) := by
  by_cases hp : 0 < p.val ∧ p.val ≤ W.bits
  · have htext : (Step.prev W o).refusal? p.val = o.refusal? := if_pos hp
    rcases o.refusal?_cases with ⟨a, ha, hnone⟩ | ⟨f, hf, hsome⟩
    · obtain ⟨q, hq, hgreatest⟩ := prev_spec ha hp.1 hp.2
      rw [step, hq]
      exact Step.lawful_ok (htext.trans hnone) ⟨a, ha, hgreatest⟩
    · rw [step, prev_unread hp.1 hp.2 hf]
      exact Step.lawful_error (htext.trans hsome) rfl
  · rw [step, prev_error hp]
    refine Step.lawful_error ((if_neg hp).trans ?_) rfl
    rw [Fault.message, scanMessage_eq]

/-- Every step at every position follows the tables. -/
theorem step_lawful (p : Position) (i : Step) : i.Lawful p (step .direct p i) := by
  cases i with
  | succ => exact succ_lawful .direct p
  | pred => exact pred_lawful .direct p
  | add n => exact add_lawful .direct p n
  | sub n => exact sub_lawful .direct p n
  | next W o => exact next_lawful p o
  | prev W o => exact prev_lawful p o
  | _ => exact Step.lawful_ok rfl rfl

/-- The results of a script that starts at a position. -/
def outcomes (e : Engine) (p : Position) (is : List Step) : List (Script.Result Position Reply) :=
  Script.run (step e) p is

/-- The operand is refused at bit 6, where the scan goes to bit 7 first, and not read there. -/
example :
    outcomes .direct ⟨6, by decide, by decide⟩
        [.next .w8 (.position (past .w8)), .next .w8 (.position (past .w8))] =
      [.error ⟨.outOfBounds 8, ⟨7, by decide, by decide⟩⟩, .ok ⟨past .w8, .none⟩] := by
  decide

end Position

end Wordwise
