/-
The halving engine, which computes the four counts with shifts, masks and one product on the word
widened to one hundred and twenty-eight bits. Zeros are counted by binary search: in seven rounds
the shift goes down from sixty-four to one. Set bits are counted in lanes: neighbouring lanes are
added until each byte holds its own count, and a product sums the bytes into the top one.
-/
import Wordwise.Engine.Direct
import Wordwise.Word

namespace Wordwise.Engine.Halving

/-! ## Binary search -/

/-- Where a search stands: the bits still in question, and the number of bits passed. -/
structure Search where
  rest : BitVec 128
  passed : Nat
deriving DecidableEq

def unsignedLimit : Nat := 4294967296

def signedLimit : Nat := 2147483648

/-- Pass the low `shift` bits, with the count kept below `limit`. -/
def Search.pass (limit : Nat) (s : Search) (shift : Nat) : Except Fault Search := do
  let passed ← Checked.addCount limit s.passed shift
  let rest ← Checked.shiftRight s.rest shift
  .ok ⟨rest, passed⟩

/-- One round towards the lowest set bit: the low `shift` bits are passed when all are clear. -/
def Search.towardsLowest (s : Search) (shift : Nat) : Except Fault Search := do
  let power ← Checked.shiftLeft (1 : BitVec 128) shift
  let low ← Checked.sub power 1
  if s.rest &&& low = 0 then s.pass unsignedLimit shift else .ok s

/-- One round towards the highest set bit: the low `shift` bits are passed when a bit above them
is set. -/
def Search.towardsHighest (s : Search) (shift : Nat) : Except Fault Search := do
  let high ← Checked.shiftRight s.rest shift
  if high ≠ 0 then s.pass signedLimit shift else .ok s

/-- A number of rounds. Their shifts are powers of two down to one, each half of the one before. -/
def Search.rounds (round : Search → Nat → Except Fault Search) :
    Nat → Search → Except Fault Search
  | 0, s => .ok s
  | k + 1, s => do rounds round k (← round s (1 <<< k))

/-- The number of clear bits below the lowest set one; `width` for zero. -/
def trailing (a : BitVec 128) (width : Nat) : Except Fault Nat :=
  if a = 0 then .ok width
  else do
    let s ← Search.rounds Search.towardsLowest 7 ⟨a, 0⟩
    .ok s.passed

/-- The position of the highest set bit; minus one for zero. -/
def log2 (a : BitVec 128) : Except Fault Int :=
  if a = 0 then .ok (-1)
  else do
    let s ← Search.rounds Search.towardsHighest 7 ⟨a, 0⟩
    .ok s.passed

/-- A word that claims a width has to fit in it. -/
def checkWidth (a : BitVec 128) (width : Nat) : Except Fault Unit :=
  if width = 128 then .ok ()
  else do
    let above ← Checked.shiftRight a width
    if above = 0 then .ok () else .error .wordTooWide

/-- The number of clear bits above the highest set one among the low `width` bits. The signed
difference is read back as an unsigned thirty-two bit count. -/
def leading (a : BitVec 128) (width : Nat) : Except Fault Nat := do
  checkWidth a width
  let top ← Checked.subSigned width 1
  let log ← log2 a
  let count ← Checked.subSigned top log
  .ok (BitVec.ofInt 32 count).toNat

/-! ## Lane sums -/

/-- The low bit of every two. -/
def everySecond : BitVec 128 := BitVec.allOnes 128 / 3

/-- The low two bits of every four. -/
def lowPairs : BitVec 128 := BitVec.allOnes 128 / 5

/-- The low four bits of every byte. -/
def lowNibbles : BitVec 128 := BitVec.allOnes 128 / 17

/-- The low bit of every byte. -/
def byteUnits : BitVec 128 := BitVec.allOnes 128 / 255

/-- Every two bits hold their own count: the high one is taken off once, so that it weighs one. -/
def pairCounts (a : BitVec 128) : Except Fault (BitVec 128) :=
  Checked.sub a ((a >>> 1) &&& everySecond)

/-- Every four bits hold the sum of their two pairs. -/
def nibbleCounts (a : BitVec 128) : Except Fault (BitVec 128) :=
  Checked.add (a &&& lowPairs) ((a >>> 2) &&& lowPairs)

/-- Every byte holds the sum of its two nibbles. -/
def byteCounts (a : BitVec 128) : Except Fault (BitVec 128) := do
  let sums ← Checked.add a (a >>> 4)
  .ok (sums &&& lowNibbles)

/-- The sum of all bytes, gathered in the top one. -/
def total (a : BitVec 128) : Nat :=
  ((a * byteUnits) >>> 120).toNat

def ones (a : BitVec 128) : Except Fault Nat := do
  let pairs ← pairCounts a
  let nibbles ← nibbleCounts pairs
  let bytes ← byteCounts nibbles
  .ok (total bytes)

end Halving

/-- The counts of the word widened to one hundred and twenty-eight bits. -/
def halving : Engine where
  trailing {W} a := Halving.trailing (wide a) W.bits
  leading {W} a := Halving.leading (wide a) W.bits
  log2 a := Halving.log2 (wide a)
  ones a := Halving.ones (wide a)

/-- The engine of a build. A portable one does without the machine's own counts. -/
def select (portable : Bool) : Engine :=
  if portable then halving else direct

end Wordwise.Engine
