import BitEnvelope.Envelope.Basic
import BitEnvelope.Words.Sum
import BitEnvelope.Words.Product

/-!
# Arithmetic on values of an envelope's width

Sums, differences and products modulo `2 ^ width`, written over the words of a destination that
carry the value. The flag of a sum or a product says that the exact result has more than `width`
bits. Operands are read word by word, so stray bits of their top words count.
-/

namespace BitEnvelope.Envelope

/-- The words of `x` that carry a value of the envelope. -/
def valueWords (e : Envelope) (x : Packed) : List Word := x.words.take e.wordCount

/-- The sum of `a` and `b` modulo `2 ^ width`, and whether it overflows. -/
def add (e : Envelope) (a b out : Packed) : Packed × Bool :=
  let (ws, carry) := Words.add (e.valueWords a) (e.valueWords b)
  let y := out.write ws
  (e.dropOverflow y, carry || e.hasOverflow y)

/-- The difference of `a` and `b` modulo `2 ^ width`. -/
def sub (e : Envelope) (a b out : Packed) : Packed :=
  e.dropOverflow (out.write (Words.sub (e.valueWords a) (e.valueWords b)).1)

/-- The product of `a` and `b` modulo `2 ^ width`. As many words of headroom as carry the value are
cleared. If `check` asks for it, the flag says whether the product overflows. -/
def mul (e : Envelope) (a b out : Packed) (check : Bool) : Packed × Bool :=
  let n := e.wordCount
  let ws := Words.mul (e.valueWords a) (e.valueWords b)
  let y := out.write ws
  let flag := check && (e.hasOverflow y || (ws.drop n).any (· != 0))
  (e.dropOverflow (out.write (ws.take n ++ List.replicate n 0)), flag)

/-- The committed value divided by `2 ^ k`, over the bits of `out` below the width. -/
def shiftRight (e : Envelope) (k : Nat) (out : Packed) : Packed :=
  out.setBits (List.range e.width) fun i => i + k < e.width && e.current.bit (i + k)

/-- Counts `x` down along the positions `is`: each clear bit on the way is set, and the first set one
is cleared and ends it. -/
def borrowAlong : List Nat → Packed → Packed
  | [], x => x
  | i :: is, x => if x.bit i then x.setBit i false else borrowAlong is (x.setBit i true)

/-- One less than `x` modulo `2 ^ width`. -/
def decrement (e : Envelope) (x : Packed) : Packed := borrowAlong (List.range e.width) x

/-- The sum with the place value added to it if its bit is set. -/
def addPlace (bit : Bool) (place sum : UInt64) : UInt64 := if bit then sum + place else sum

/-- Adds up the place values of the set bits at the positions `is`, the first of which has the
place value `place`. When the place value has reached the limit, any further set bit makes the sum
reach it as well. -/
def sumUpTo (limit : UInt64) (x : Packed) : List Nat → UInt64 → UInt64 → UInt64
  | [], _, sum => min sum limit
  | i :: is, place, sum =>
    if limit ≤ place then
      if (i :: is).any x.bit then limit else min sum limit
    else
      sumUpTo limit x is (place <<< 1) (addPlace (x.bit i) place sum)

/-- The committed value as a number of sixty-four bits, or the limit if it is greater. -/
def natUpTo (e : Envelope) (limit : UInt64) : UInt64 :=
  sumUpTo limit e.current (List.range e.width) 1 0

end BitEnvelope.Envelope
