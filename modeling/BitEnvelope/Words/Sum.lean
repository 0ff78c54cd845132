import BitEnvelope.Words.Basic

/-!
# Sums and differences of word lists

`add` and `sub` go from the least significant word to the most significant one and hand the carry
or the borrow upward; what leaves the top word is returned beside the words. Both operands have
the same length, so the result is exact modulo `2 ^ (32 * n)` and the flag says what is missing.
-/

namespace BitEnvelope.Words

/-- Two words and a carry, added in sixty-four bits so that nothing is lost. -/
def addStep (x y : Word) (carry : Bool) : BitVec 64 :=
  x.setWidth 64 + y.setWidth 64 + (BitVec.ofBool carry).setWidth 64

/-- The sum of two lists and a carry, and the carry out of the top word. -/
def addFrom : Bool → List Word → List Word → List Word × Bool
  | carry, x :: xs, y :: ys =>
    let t := addStep x y carry
    let (rest, out) := addFrom (t >>> 32 != 0) xs ys
    (t.setWidth 32 :: rest, out)
  | carry, _, _ => ([], carry)

/-- The sum of two lists of one length, and the carry out of the top word. -/
def add (a b : List Word) : List Word × Bool :=
  addFrom false a b

/-- The difference of two lists less a borrow, and the borrow out of the top word. -/
def subFrom : Bool → List Word → List Word → List Word × Bool
  | borrow, x :: xs, y :: ys =>
    let d := x - y
    let e := d - (BitVec.ofBool borrow).setWidth 32
    let (rest, out) := subFrom (x.ult y || d.ult ((BitVec.ofBool borrow).setWidth 32)) xs ys
    (e :: rest, out)
  | borrow, _, _ => ([], borrow)

/-- The difference of two lists of one length, and the borrow out of the top word. -/
def sub (a b : List Word) : List Word × Bool :=
  subFrom false a b

/-- The sum of `a` and `b` over the first words of `out`, and the carry. -/
def addInto (a b out : List Word) : List Word × Bool :=
  let (ws, carry) := add a b
  (overwrite out ws, carry)

/-- The difference of `a` and `b` over the first words of `out`, and the borrow. -/
def subInto (a b out : List Word) : List Word × Bool :=
  let (ws, borrow) := sub a b
  (overwrite out ws, borrow)

end BitEnvelope.Words
