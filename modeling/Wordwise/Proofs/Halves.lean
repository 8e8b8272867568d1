/-
The halves of the widest sets. A set of one hundred and twenty-eight positions is the set of its low
sixty-four positions followed by the set of the others, counted from sixty-four: its members, its
count, its extremes and its digits are those of the two halves put together, and it is compared by
the high half first. No operation save the shift down moves a bit from the high half into the low
one, so it makes no difference whether a word is cut off before or after it; and a word that is
widened stays the same number.
-/
import Wordwise.Proofs.Digits
import Wordwise.Proofs.Members
import Wordwise.Text.Shown

namespace Wordwise

/-! ## Cutting words off -/

/-- Cutting two words off after an operation, or before it. -/
structure CutsAlike (a b : Word .w128) : Prop where
  apply : ∀ op : Connective, low64 (op.apply a b : Word .w128) = op.apply (low64 a) (low64 b)
  complement : low64 (~~~a) = ~~~low64 a
  add : low64 (a + b) = low64 a + low64 b
  sub : low64 (a - b) = low64 a - low64 b
  neg : low64 (-a) = -low64 a
  shiftUp : ∀ n, low64 (shiftUp a n) = shiftUp (low64 a) n

theorem low64_apply {w : Nat} (op : Connective) (a b : BitVec w) :
    low64 (op.apply a b : BitVec w) = op.apply (low64 a) (low64 b) := by
  cases op with
  | or => exact BitVec.setWidth_or
  | and => exact BitVec.setWidth_and
  | xor => exact BitVec.setWidth_xor

theorem cuts_alike (a b : Word .w128) : CutsAlike a b := by
  have hle : 64 ≤ Width.w128.bits := by decide
  have hneg : ∀ c : Word .w128, low64 (-c) = -low64 c := fun _ => BitVec.setWidth_neg_of_le hle
  have hadd : ∀ c d : Word .w128, low64 (c + d) = low64 c + low64 d := fun c d =>
    BitVec.setWidth_add c d hle
  constructor
  case apply => exact fun op => low64_apply op a b
  case complement => exact BitVec.setWidth_not hle
  case add => exact hadd a b
  case sub => rw [BitVec.sub_eq_add_neg, hadd, hneg, BitVec.sub_eq_add_neg]
  case neg => exact hneg a
  case shiftUp =>
    intro n
    rw [shiftUp_eq, shiftUp_eq]
    exact BitVec.setWidth_shiftLeft_of_le hle

namespace WordSet

/-! ## Halves -/

/-- The members below sixty-four, as a set of their own. -/
def lowHalf (s : WordSet .w128) : WordSet .w64 := ofWord (low64 s.word)

/-- The other members, counted from sixty-four. -/
def highHalf (s : WordSet .w128) : WordSet .w64 := (s.shiftDown 64).lowHalf

theorem word_highHalf (s : WordSet .w128) : s.highHalf.word = low64 (s.word >>> 64) :=
  congrArg low64 (word_shiftDown s 64)

theorem getLsbD_lowHalf (s : WordSet .w128) {i : Nat} (hi : i < 64) :
    s.lowHalf.word.getLsbD i = s.word.getLsbD i := by
  refine (BitVec.getLsbD_setWidth 64 s.word i).trans ?_
  rw [decide_eq_true hi, Bool.true_and]

theorem getLsbD_highHalf (s : WordSet .w128) {i : Nat} (hi : i < 64) :
    s.highHalf.word.getLsbD i = s.word.getLsbD (64 + i) := by
  rw [word_highHalf]
  refine (BitVec.getLsbD_setWidth 64 (s.word >>> 64) i).trans ?_
  rw [decide_eq_true hi, Bool.true_and, BitVec.getLsbD_ushiftRight]

theorem setBits_halves (s : WordSet .w128) :
    setBits s.word = setBits s.lowHalf.word ++ (setBits s.highHalf.word).map (64 + ·) := by
  rw [word_highHalf]
  exact setBits_eq_append (k := 64) (m := 64) s.word

theorem map_val_halves (s : WordSet .w128) :
    (memberList s.word).map Position.val =
      (memberList s.lowHalf.word).map Position.val ++
        (memberList s.highHalf.word).map (·.val + 64) := by
  have hup : (memberList s.highHalf.word).map (·.val + 64) =
      ((memberList s.highHalf.word).map Position.val).map (· + 64) := by
    rw [List.map_map]
    rfl
  rw [hup, map_val_memberList, map_val_memberList, map_val_memberList, setBits_halves, List.map_append,
    List.map_map, List.map_map]
  refine congrArg _ (List.map_congr_left fun i _ => ?_)
  rw [Function.comp_apply, Function.comp_apply]
  omega

theorem toNat_lowHalf (s : WordSet .w128) : s.lowHalf.word.toNat = s.word.toNat % 2 ^ 64 :=
  BitVec.toNat_setWidth 64 s.word

theorem toNat_highHalf (s : WordSet .w128) : s.highHalf.word.toNat = s.word.toNat / 2 ^ 64 := by
  have hlt : s.word.toNat < 2 ^ 128 := s.word.isLt
  rw [word_highHalf]
  refine (BitVec.toNat_setWidth 64 (s.word >>> 64)).trans ?_
  rw [BitVec.toNat_ushiftRight, Nat.shiftRight_eq_div_pow]
  exact Nat.mod_eq_of_lt (by omega)

/-- Sets are compared by their high halves, and by their low halves when these are equal. -/
theorem lt_iff_halves (s t : WordSet .w128) :
    s < t ↔ s.highHalf < t.highHalf ∨ s.highHalf = t.highHalf ∧ s.lowHalf < t.lowHalf := by
  have heq : s.highHalf = t.highHalf ↔ s.highHalf.word.toNat = t.highHalf.word.toNat :=
    ⟨fun h => by rw [h], fun h => eq_of_word_eq (BitVec.eq_of_toNat_eq h)⟩
  rw [heq]
  show s.word.toNat < t.word.toNat ↔
    s.highHalf.word.toNat < t.highHalf.word.toNat ∨
      s.highHalf.word.toNat = t.highHalf.word.toNat ∧ s.lowHalf.word.toNat < t.lowHalf.word.toNat
  rw [toNat_highHalf, toNat_highHalf, toNat_lowHalf, toNat_lowHalf]
  omega

/-! ## What is read off a set -/

/-- The result for a whole is made of the results for its low and for its high part. -/
def Joins {α : Type} (low high whole : Except Fault α) (made : α → α → α → Prop) : Prop :=
  ∃ l h r, low = .ok l ∧ high = .ok h ∧ whole = .ok r ∧ made l h r

/-- What is read off a set is put together from what is read off its halves. -/
structure JoinsHalves (e : Engine) (s : WordSet .w128) : Prop where
  count : Joins (s.lowHalf.count e) (s.highHalf.count e) (s.count e) fun l h n => n = l + h
  members : Joins (s.lowHalf.members.toList e) (s.highHalf.members.toList e) (s.members.toList e)
    fun l h ps => ps.map Position.val = l.map Position.val ++ h.map (·.val + 64)
  lowestPosition : Joins (s.lowHalf.lowestPosition e) (s.highHalf.lowestPosition e) (s.lowestPosition e)
    fun l h p => p.val = if s.lowHalf = .empty then h.val + 64 else l.val
  lowestPosition_empty : s.lowHalf = .empty → s.highHalf = .empty →
    s.lowestPosition e = .ok (.past .w128)
  highestPosition : Joins (s.lowHalf.highestPosition e) (s.highHalf.highestPosition e)
    (s.highestPosition e) fun l h p => p.val = if s.highHalf = .empty then l.val else h.val + 64
  digits : ∀ zero one, Joins (s.lowHalf.digits zero one) (s.highHalf.digits zero one)
    (s.digits zero one) fun l h cs => cs = h ++ l
  text : Joins s.lowHalf.text s.highHalf.text s.text fun l h cs => cs = h ++ l

/-- The low half decides on the lowest member unless it has none. -/
theorem lowest_halves (s : WordSet .w128) :
    Joins (s.lowHalf.lowestPosition .direct) (s.highHalf.lowestPosition .direct)
      (s.lowestPosition .direct) fun l h p =>
        p.val = if s.lowHalf = .empty then h.val + 64 else l.val := by
  refine ⟨_, _, _, lowestPosition_eq_head _, lowestPosition_eq_head _, lowestPosition_eq_head _, ?_⟩
  show _ = if s.lowHalf = .empty then _ else _
  rw [← Option.getD_map Position.val, ← List.head?_map, map_val_halves, List.head?_append]
  simp only [eq_empty_iff]
  cases memberList s.lowHalf.word with
  | cons p ps => rfl
  | nil => cases memberList s.highHalf.word <;> rfl

/-- The high half decides on the highest member unless it has none. -/
theorem highest_halves (s : WordSet .w128) :
    Joins (s.lowHalf.highestPosition .direct) (s.highHalf.highestPosition .direct)
      (s.highestPosition .direct) fun l h p =>
        p.val = if s.highHalf = .empty then l.val else h.val + 64 := by
  refine ⟨_, _, _, highestPosition_eq_last _, highestPosition_eq_last _, highestPosition_eq_last _, ?_⟩
  show _ = if s.highHalf = .empty then _ else _
  rw [← Option.getD_map Position.val, ← List.getLast?_map, map_val_halves, List.getLast?_append]
  simp only [eq_empty_iff]
  cases memberList s.highHalf.word with
  | cons p ps =>
    rw [if_neg (List.cons_ne_nil p ps), List.getLast?_map, List.getLast?_cons]
    rfl
  | nil =>
    rw [if_pos rfl, List.map_nil, List.getLast?_nil, Option.none_or, List.getLast?_map]
    exact Option.getD_map _ _ _

/-- The digits of the high half stand in front of those of the low one. -/
theorem digits_halves (s : WordSet .w128) (zero one : Char) :
    Joins (s.lowHalf.digits zero one) (s.highHalf.digits zero one) (s.digits zero one)
      fun l h cs => cs = h ++ l := by
  refine ⟨_, _, _, digits_eq_spelling _ _ _, digits_eq_spelling _ _ _, digits_eq_spelling _ _ _, ?_⟩
  have hsplit := map_reverse_range_add (fun i => if s.word.getLsbD i then one else zero) 64 64
  refine hsplit.trans ?_
  unfold spelling
  congr 1
  · refine List.map_congr_left fun i hi => ?_
    rw [getLsbD_highHalf s (List.mem_range.1 (List.mem_reverse.1 hi))]
  · refine List.map_congr_left fun i hi => ?_
    rw [getLsbD_lowHalf s (List.mem_range.1 (List.mem_reverse.1 hi))]

theorem joinsHalves (s : WordSet .w128) : JoinsHalves .direct s := by
  constructor
  case count =>
    refine ⟨_, _, _, rfl, rfl, rfl, ?_⟩
    show s.word.cpop.toNat = s.lowHalf.word.cpop.toNat + s.highHalf.word.cpop.toNat
    rw [← length_setBits, ← length_setBits, ← length_setBits, setBits_halves, List.length_append,
      List.length_map]
  case members =>
    exact ⟨_, _, _, Members.toList_eq _, Members.toList_eq _, Members.toList_eq _, map_val_halves s⟩
  case lowestPosition => exact lowest_halves s
  case lowestPosition_empty =>
    intro hlow hhigh
    obtain ⟨l, h, p, hl, hh, hp, hval⟩ := lowest_halves s
    rw [hhigh] at hh
    cases hh
    have hpast : p = .past .w128 := Position.ext (hval.trans (if_pos hlow))
    rw [hp, hpast]
  case highestPosition => exact highest_halves s
  case digits => exact digits_halves s
  case text => exact digits_halves s '0' '1'

/-! ## Concatenation -/

/-- The low half of a result, and the result for the low halves. -/
structure LowHalvesAlike (s t : WordSet .w128) : Prop where
  apply : ∀ op : Connective, (op.apply s t : WordSet .w128).lowHalf = op.apply s.lowHalf t.lowHalf
  complement : (~~~s).lowHalf = ~~~s.lowHalf
  add : ∀ a, (s.add a).lowHalf = s.lowHalf.add (low64 a)
  sub : ∀ a, (s.sub a).lowHalf = s.lowHalf.sub (low64 a)
  shiftUp : ∀ n, (s.shiftUp n).lowHalf = s.lowHalf.shiftUp n

theorem lowHalves_alike (s t : WordSet .w128) : LowHalvesAlike s t := by
  have hcut := fun a => cuts_alike s.word a
  constructor
  case apply =>
    intro op
    have hword := (hcut t.word).apply op
    cases op <;> exact congrArg ofWord hword
  case complement => exact congrArg ofWord (hcut 0).complement
  case add => exact fun a => congrArg ofWord (hcut a).add
  case sub => exact fun a => congrArg ofWord (hcut a).sub
  case shiftUp => exact fun n => congrArg ofWord ((hcut 0).shiftUp n)

/-- A set is the concatenation of its halves: in what is read off it, as a number, and in the order. -/
structure Concatenates (e : Engine) (s t : WordSet .w128) : Prop where
  joins : s.JoinsHalves e
  number : s.word.toNat = 2 ^ 64 * s.highHalf.word.toNat + s.lowHalf.word.toNat
  lt : s < t ↔ s.highHalf < t.highHalf ∨ s.highHalf = t.highHalf ∧ s.lowHalf < t.lowHalf
  words : CutsAlike s.word t.word
  sets : LowHalvesAlike s t
  wide : ∀ (V : Width) (a : Word V), (wide a).toNat = a.toNat

/-- In every build, a set of one hundred and twenty-eight positions is the concatenation of its
halves. -/
theorem concatenates_halves (portable : Bool) (s t : WordSet .w128) :
    Concatenates (.select portable) s t := by
  rw [Engine.select_eq_direct]
  constructor
  case joins => exact joinsHalves s
  case number =>
    rw [toNat_highHalf, toNat_lowHalf]
    exact (Nat.div_add_mod _ _).symm
  case lt => exact lt_iff_halves s t
  case words => exact cuts_alike s.word t.word
  case sets => exact lowHalves_alike s t
  case wide => exact fun V a => Engine.toNat_wide a

end WordSet

end Wordwise
