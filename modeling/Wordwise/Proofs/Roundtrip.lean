/-
Collecting as the inverse of listing. The first position of a list that is no bit of the word refuses
the list, and its text names it; a list without such a position is collected into the set of exactly
its positions, in whatever order and however often they stand in it, and this set lists them in
ascending order. Lists of sets are collected into their union. Lists that are joined give the union
of what they give alone, and a set is collected again from what it lists, from either end or as
single sets.
-/
import Mathlib.Data.List.Dedup
import Wordwise.Proofs.Digits
import Wordwise.Proofs.Refusals
import Wordwise.Proofs.Singles
import Wordwise.Proofs.Unions

namespace Wordwise.WordSet

variable {W : Width}

/-! ## Lists of positions -/

/-- The position is that of a bit of the word. -/
def IsInside (W : Width) (p : Position) : Prop := 0 ≤ p.val ∧ p.val < W.bits

/-- The first position of a list that is no bit of the word. -/
structure FirstOutside (W : Width) (l : List Position) (p : Position) : Prop where
  outside : ¬ IsInside W p
  first : ∃ before after, l = before ++ p :: after ∧ ∀ q ∈ before, IsInside W q

/-- The positions before the first one outside are inserted, and those after it do not count. -/
theorem ofPositions_refused {l : List Position} {p : Position} (h : FirstOutside W l p) :
    (ofPositions l : Except Fault (WordSet W)) = .error (.outOfBounds p.val) := by
  obtain ⟨before, after, rfl, hbefore⟩ := h.first
  obtain ⟨t, ht, -⟩ := foldlM_insert before (empty : WordSet W) hbefore
  unfold ofPositions
  rw [List.foldlM_append, ht, Checked.ok_bind, List.foldlM_cons, insert, Operand.read_position,
    Position.toWord_error h.outside]
  rfl

/-- A list has a first position outside the word, or all of its positions are inside. -/
theorem firstOutside_or (W : Width) : ∀ l : List Position,
    (∃ p, FirstOutside W l p) ∨ ∀ p ∈ l, IsInside W p
  | [] => .inr (by simp)
  | q :: l => by
    by_cases hq : IsInside W q
    · rcases firstOutside_or W l with ⟨p, hp, before, after, rfl, hbefore⟩ | hl
      · exact .inl ⟨p, hp, q :: before, after, rfl, by simpa [hq] using hbefore⟩
      · exact .inr (by simpa [hq] using hl)
    · exact .inl ⟨q, hq, [], l, rfl, by simp⟩

theorem ofPositions_eq_error_iff {l : List Position} {f : Fault} :
    (ofPositions l : Except Fault (WordSet W)) = .error f ↔
      ∃ p, FirstOutside W l p ∧ f = .outOfBounds p.val := by
  constructor
  · intro h
    rcases firstOutside_or W l with ⟨p, hp⟩ | hl
    · rw [ofPositions_refused hp] at h
      cases h
      exact ⟨p, hp, rfl⟩
    · obtain ⟨s, hs, -⟩ := ofPositions_accepted hl
      rw [hs] at h
      cases h
  · rintro ⟨p, hp, rfl⟩
    exact ofPositions_refused hp

/-! ## Members -/

theorem meets_position_iff {s : WordSet W} {p : Position} :
    s.meets (.position p) = .ok true ↔ p ∈ memberList s.word := by
  rw [mem_memberList]
  constructor
  · intro h
    by_cases hp : IsInside W p
    · have hval : p.val = (p.val.toNat : Nat) := (Int.toNat_of_nonneg hp.1).symm
      have hlt : p.val.toNat < W.bits := by
        have := hp.2
        omega
      rw [meets_position s hval hlt] at h
      exact ⟨_, Except.ok.inj h, hval⟩
    · rw [meets, Operand.read_position, Position.toWord_error hp] at h
      cases h
  · rintro ⟨i, hi, hp⟩
    rw [meets_position s hp (BitVec.lt_of_getLsbD hi), hi]

theorem mem_memberList_or {a b : Word W} {p : Position} :
    p ∈ memberList (a ||| b) ↔ p ∈ memberList a ∨ p ∈ memberList b := by
  rw [mem_memberList, mem_memberList, mem_memberList, Position.exists_bit_or]

/-- An ascending list that has the members of a set is the list of its members. -/
theorem memberList_eq_of_mem_iff {s : WordSet W} {l : List Position} (hl : l.Pairwise (· < ·))
    (h : ∀ p, p ∈ memberList s.word ↔ p ∈ l) : memberList s.word = l :=
  (memberList_pairwise s.word).eq_of_mem_iff hl h

theorem eq_of_mem_iff {s t : WordSet W}
    (h : ∀ p, p ∈ memberList s.word ↔ p ∈ memberList t.word) : s = t :=
  eq_of_word_eq (eq_of_mem_memberList_iff h)

/-- A list is collected into a set exactly when it has the members of the set. -/
theorem ofPositions_eq_ok_iff {l : List Position} {s : WordSet W} :
    ofPositions l = .ok s ↔ ∀ p, p ∈ memberList s.word ↔ p ∈ l := by
  constructor
  · intro h
    rcases firstOutside_or W l with ⟨p, hp⟩ | hl
    · rw [ofPositions_refused hp] at h
      cases h
    · obtain ⟨t, ht, hmem⟩ := ofPositions_accepted hl
      rw [h] at ht
      cases ht
      exact hmem
  · intro h
    obtain ⟨t, ht, hmem⟩ := ofPositions_accepted fun p hp => val_of_mem_memberList ((h p).2 hp)
    rw [ht, eq_of_mem_iff fun p => (hmem p).trans (h p).symm]

/-! ## Collecting positions -/

/-- What a list of positions is collected into, and what refuses it. -/
structure CollectsPositions (e : Engine) (W : Width) (l : List Position) : Prop where
  refused : ∀ text, Fault.text? (ofPositions l : Except Fault (WordSet W)) = some text ↔
    ∃ p, FirstOutside W l p ∧ text = "Bit index " ++ toString p.val ++ " out of bounds"
  accepted : (∃ s : WordSet W, ofPositions l = .ok s) ↔ ∀ p ∈ l, IsInside W p
  members : ∀ s : WordSet W, ofPositions l = .ok s → ∀ p, s.meets (.position p) = .ok true ↔ p ∈ l
  anyOrder : ∀ l' : List Position, (∀ p, p ∈ l' ↔ p ∈ l) →
    ∀ s : WordSet W, ofPositions l' = .ok s ↔ ofPositions l = .ok s
  listed : ∀ s : WordSet W, ofPositions l = .ok s →
    s.members.toList e = .ok (l.mergeSort (· ≤ ·)).dedup
  append : ∀ (l' : List Position) (s t : WordSet W), ofPositions l = .ok s → ofPositions l' = .ok t →
    ofPositions (l ++ l') = .ok (s ||| t)

theorem pairwise_dedup_mergeSort (l : List Position) :
    (l.mergeSort (· ≤ ·)).dedup.Pairwise (· < ·) := by
  have hsorted : (l.mergeSort (· ≤ ·)).Pairwise (· ≤ ·) := List.pairwise_mergeSort' (· ≤ ·) l
  have hle := (hsorted.sublist (List.dedup_sublist _)).sortedLE
  exact (List.sortedLT_iff_nodup_and_sortedLE.2 ⟨List.nodup_dedup _, hle⟩).pairwise

theorem text?_ofPositions {l : List Position} {text : String} :
    Fault.text? (ofPositions l : Except Fault (WordSet W)) = some text ↔
      ∃ p, FirstOutside W l p ∧ text = "Bit index " ++ toString p.val ++ " out of bounds" := by
  have hmessage : ∀ i, (Fault.outOfBounds i).message = "Bit index " ++ toString i ++ " out of bounds" :=
    fun i => by rw [Fault.message, ofList_decimal]
  constructor
  · intro h
    cases hl : (ofPositions l : Except Fault (WordSet W)) with
    | ok s =>
      rw [hl] at h
      cases h
    | error f =>
      obtain ⟨p, hp, rfl⟩ := ofPositions_eq_error_iff.1 hl
      rw [hl] at h
      exact ⟨p, hp, (Option.some.inj h).symm.trans (hmessage _)⟩
  · rintro ⟨p, hp, rfl⟩
    rw [ofPositions_refused hp, ← hmessage]
    rfl

theorem collects_positions (W : Width) (l : List Position) : CollectsPositions .direct W l := by
  constructor
  case refused => exact fun _ => text?_ofPositions
  case accepted =>
    constructor
    · rintro ⟨s, hs⟩ p hp
      exact val_of_mem_memberList ((ofPositions_eq_ok_iff.1 hs p).2 hp)
    · intro hl
      obtain ⟨s, hs, -⟩ := ofPositions_accepted hl
      exact ⟨s, hs⟩
  case members => exact fun s hs p => meets_position_iff.trans (ofPositions_eq_ok_iff.1 hs p)
  case anyOrder =>
    intro l' hsame s
    simp only [ofPositions_eq_ok_iff, hsame]
  case listed =>
    intro s hs
    rw [Members.toList_eq]
    refine congrArg Except.ok (memberList_eq_of_mem_iff (pairwise_dedup_mergeSort l) fun p => ?_)
    rw [List.mem_dedup, List.mem_mergeSort]
    exact ofPositions_eq_ok_iff.1 hs p
  case append =>
    intro l' s t hs ht
    rw [ofPositions_eq_ok_iff] at hs ht ⊢
    intro p
    rw [word_or, mem_memberList_or, hs, ht, List.mem_append]

/-! ## Collecting sets -/

/-- What a list of sets is collected into. -/
structure CollectsSets (ss : List (WordSet W)) : Prop where
  members : ∀ p, (ofSets ss).meets (.position p) = .ok true ↔
    ∃ s ∈ ss, s.meets (.position p) = .ok true
  anyOrder : ∀ ss' : List (WordSet W), (∀ s, s ∈ ss' ↔ s ∈ ss) → ofSets ss' = ofSets ss
  append : ∀ ss' : List (WordSet W), ofSets (ss ++ ss') = ofSets ss ||| ofSets ss'

theorem mem_memberList_ofSets {ss : List (WordSet W)} {p : Position} :
    p ∈ memberList (ofSets ss).word ↔ ∃ s ∈ ss, p ∈ memberList s.word := by
  simp only [mem_memberList, getLsbD_ofSets]
  constructor
  · rintro ⟨i, ⟨s, hs, hi⟩, hp⟩
    exact ⟨s, hs, i, hi, hp⟩
  · rintro ⟨s, hs, i, hi, hp⟩
    exact ⟨i, ⟨s, hs, hi⟩, hp⟩

theorem collects_sets (ss : List (WordSet W)) : CollectsSets ss := by
  constructor
  case members =>
    intro p
    simp only [meets_position_iff, mem_memberList_ofSets]
  case anyOrder =>
    intro ss' hsame
    refine eq_of_mem_iff fun p => ?_
    simp only [mem_memberList_ofSets, hsame]
  case append =>
    intro ss'
    refine eq_of_mem_iff fun p => ?_
    rw [word_or, mem_memberList_or]
    simp only [mem_memberList_ofSets, List.mem_append, or_and_right, exists_or]

/-! ## Collecting what a set lists -/

/-- What a set lists is collected into the set. -/
structure CollectedBack (e : Engine) (s : WordSet W) : Prop where
  ascending : ∃ l, s.members.toList e = .ok l ∧ ofPositions l = .ok s
  descending : ∃ l, s.members.toListRev e = .ok l ∧ ofPositions l = .ok s
  singles : ofSets s.singles.toList = s

theorem collected_back (s : WordSet W) : CollectedBack .direct s := by
  have hcollect := ofPositions_memberList s.word
  constructor
  case ascending => exact ⟨_, Members.toList_eq _, hcollect⟩
  case descending =>
    refine ⟨_, Members.toListRev_eq _, ?_⟩
    exact ((collects_positions W _).anyOrder _ (fun p => List.mem_reverse) s).2 hcollect
  case singles => exact Singles.toSet_eq s.singles

/-- In every build, collecting is the inverse of listing: a list of positions comes back sorted and
without its repetitions, and a set comes back as it is. -/
theorem collecting_inverts_listing (portable : Bool) (l : List Position) (ss : List (WordSet W))
    (s : WordSet W) :
    CollectsPositions (.select portable) W l ∧ CollectsSets ss ∧ CollectedBack (.select portable) s := by
  rw [Engine.select_eq_direct]
  exact ⟨collects_positions W l, collects_sets ss, collected_back s⟩

/-- The refusal names the first position outside, also when another comes later. -/
example : (ofPositions [.first, .past .w8, .before] : Except Fault (WordSet .w8)) =
    .error (.outOfBounds 8) := by
  decide

end Wordwise.WordSet
