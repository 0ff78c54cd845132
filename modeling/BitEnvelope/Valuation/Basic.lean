import BitEnvelope.Envelope.Arithmetic
import BitEnvelope.Envelope.Narrow
import BitEnvelope.Envelope.Search
import BitEnvelope.Envelope.Sweep

/-!
# Valuations

A `Valuation` is the envelope of one variable together with a trial value that a search is
building. The trial value may break the envelope; `commit?` makes it the committed value only if it
does not. An operation that can be refused returns the valuation after it, or nothing, so a refusal
leaves no trace.
-/

namespace BitEnvelope

/-- The envelope of a variable and the trial value beside its committed value. -/
structure Valuation extends Envelope where
  /-- The value that a search is building. -/
  trial : Packed
deriving DecidableEq, Repr

namespace Valuation

/-- The unrestricted valuation of a variable of `width` bits, with both values zero. Of the storage,
only the positions of the top word at or above the width are pinned. -/
def blank (width : Nat) : Valuation where
  width := width
  current := Packed.blank width
  pins := (Packed.blank width).setWord (Word.count width - 1) (~~~Word.topMask width)
  lo := Packed.blank width
  hi := Packed.blank width
  signedPrefix := 0
  trial := Packed.blank width

/-! ## The trial value -/

/-- The trial value becomes `x` without its stray bits. -/
def load (v : Valuation) (x : Packed) : Valuation :=
  { v with trial := v.dropOverflow (v.trial.copyFrom v.wordCount x) }

def clearTrial (v : Valuation) : Valuation :=
  { v with trial := v.setZero v.trial }

def writeBit (v : Valuation) (i : Nat) (b : Bool) : Valuation :=
  { v with trial := v.trial.setBit i b }

def writeWord (v : Valuation) (i : Nat) (w : Word) : Valuation :=
  { v with trial := v.trial.setWord i w }

/-- The trial value becomes `x` if the envelope admits `x`. -/
def propose? (v : Valuation) (x : Packed) : Option Valuation :=
  if v.admits x then some (v.load x) else none

/-- Bit `i` of the trial value becomes `b` if no pin says otherwise and the trial value then lies
in the interval. -/
def tryBit? (v : Valuation) (i : Nat) (b : Bool) : Option Valuation :=
  if v.forbids i b then none
  else
    let w := v.writeBit i b
    if w.inRange w.trial then some w else none

/-- The trial value becomes the committed value if the envelope admits it. -/
def commit? (v : Valuation) : Option Valuation :=
  if v.admits v.trial then some { v with current := v.current.copyFrom v.wordCount v.trial }
  else none

/-- A value of the envelope near `x`, which also becomes the trial value. -/
def repair? (v : Valuation) (downFirst : Bool) (x : Packed) : Option (Packed × Valuation) :=
  (v.toEnvelope.repair? downFirst x).map fun y => (y, v.load y)

/-! ## The envelope -/

/-- The sign prefix takes the value `k`, or the whole width if that is less. -/
def limitSign (v : Valuation) (k : Nat) : Valuation :=
  { v with toEnvelope := v.toEnvelope.limitSign k }

/-- Restores that the committed value lies in the interval and that the interval starts at a
completion of the pins. -/
def tighten (v : Valuation) : Except EnvelopeError Valuation :=
  v.toEnvelope.tighten.map fun e => { v with toEnvelope := e }

/-- Pins position `i` to `b`, in the committed value and in the trial value. A position that is
pinned already takes the new value. -/
def pin (v : Valuation) (i : Nat) (b : Bool) : Except EnvelopeError Valuation :=
  if i < v.width then
    tighten { v with
      pins := v.pins.setBit i true
      current := v.current.setBit i b
      trial := v.trial.setBit i b }
  else
    .error (.positionOutOfRange i v.width)

/-- Intersects the interval with the one from `l` to `h`, both taken modulo `2 ^ width`. -/
def restrict (v : Valuation) (l h : Int) : Except EnvelopeError Valuation :=
  (v.toEnvelope.restrict l h).map fun e => { v with toEnvelope := e }

end Valuation

end BitEnvelope
