import BitEnvelope.Checked.Misuse
import BitEnvelope.Packed.Basic

/-!
# Checked access to packed values

Bits and words are read and written within the storage, and values that are compared have the same
number of words.
-/

namespace BitEnvelope.Packed

def checkedBit (x : Packed) (i : Nat) : Except Misuse Bool := do
  Misuse.outsideStorage.unless (decide (i < x.capacity))
  return x.bit i

def checkedSetBit (x : Packed) (i : Nat) (b : Bool) : Except Misuse Packed := do
  Misuse.outsideStorage.unless (decide (i < x.capacity))
  return x.setBit i b

/-- Every bit from position `lo` up to but not including `hi` becomes `b`. -/
def checkedFill (x : Packed) (lo hi : Nat) (b : Bool) : Except Misuse Packed := do
  Misuse.outsideStorage.unless (decide (hi ≤ lo ∨ hi ≤ x.capacity))
  return x.fill lo hi b

def checkedWord (x : Packed) (i : Nat) : Except Misuse Word := do
  Misuse.outsideStorage.unless (decide (i < x.words.length))
  return x.word i

def checkedSetWord (x : Packed) (i : Nat) (w : Word) : Except Misuse Packed := do
  Misuse.outsideStorage.unless (decide (i < x.words.length))
  return x.setWord i w

def checkedCopyFrom (dst : Packed) (n : Nat) (src : Packed) : Except Misuse Packed := do
  Misuse.outsideStorage.unless (decide (n ≤ src.words.length ∧ n ≤ dst.words.length))
  return dst.copyFrom n src

def checkedNatOfFirst (x : Packed) (n : Nat) : Except Misuse Nat := do
  Misuse.outsideStorage.unless (decide (n ≤ x.words.length))
  return x.natOfFirst n

/-- The order of two values with the same number of words. -/
def checkedCompare (x y : Packed) : Except Misuse Ordering := do
  Misuse.unequalWordCounts.unless (x.wordCount == y.wordCount)
  return x.compare y

def checkedLt (x y : Packed) : Except Misuse Bool := do
  return (← x.checkedCompare y).isLT

def checkedLe (x y : Packed) : Except Misuse Bool := do
  return (← x.checkedCompare y).isLE

end BitEnvelope.Packed
