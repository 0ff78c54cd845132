import BitEnvelope.Checked.Misuse
import BitEnvelope.Words.Product
import BitEnvelope.Words.Sum

/-!
# Checked arithmetic on word lists

Operands have one length, and the destination has room for the result.
-/

namespace BitEnvelope

namespace Words

/-- The order of two word lists of one length. -/
def checkedCompare (a b : List Word) : Except Misuse Ordering := do
  Misuse.unequalLengths.unless (a.length == b.length)
  return compare a b

/-- Tests the lengths of two operands and that the destination has `room` words. -/
def checkRoom (a b out : List Word) (room : Nat) : Except Misuse Unit := do
  Misuse.unequalLengths.unless (a.length == b.length)
  Misuse.outsideStorage.unless (decide (room ≤ out.length))

/-- The sum over the first words of `out`, and the carry. -/
def checkedAdd (a b out : List Word) : Except Misuse (List Word × Bool) := do
  checkRoom a b out a.length
  return addInto a b out

/-- The difference over the first words of `out`, and the borrow. -/
def checkedSub (a b out : List Word) : Except Misuse (List Word × Bool) := do
  checkRoom a b out a.length
  return subInto a b out

/-- The product over the first words of `out`. -/
def checkedMul (a b out : List Word) : Except Misuse (List Word) := do
  checkRoom a b out (2 * a.length)
  return mulInto a b out

end Words

end BitEnvelope
