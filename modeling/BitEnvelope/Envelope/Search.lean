import BitEnvelope.Envelope.Arithmetic
import BitEnvelope.Envelope.Completion
import BitEnvelope.Envelope.Sign

/-!
# The nearest value of an envelope

`floor?` finds the largest value of the envelope that is at most a given one and `ceil?` the
smallest one that is at least it. Each first finds the nearest completion of the pins and then, if
that lies outside the interval, goes on from the end of the interval. `least` and `greatest` are
the ends of the envelope. The result is written over the words of a destination that carry the
value.
-/

namespace BitEnvelope.Envelope

/-- The smallest completion in the interval that is at least the completion `x`. -/
def raise? (e : Envelope) (x : Packed) : Option Packed :=
  let fromLo := e.ceilCompletion? (x.copyFrom e.wordCount e.lo)
  match e.lo.compare e.hi with
  | .eq => some x
  | .lt => (if x.lt e.lo then fromLo else some x).filter (·.lt e.hi)
  | .gt => if e.hi.le x && x.lt e.lo then fromLo else some x

/-- The largest completion in the interval that is at most the completion `x`. -/
def lower? (e : Envelope) (x : Packed) : Option Packed :=
  let fromHi := e.floorCompletion? (e.decrement (x.copyFrom e.wordCount e.hi))
  match e.lo.compare e.hi with
  | .eq => some x
  | .lt => (if e.hi.le x then fromHi else some x).filter e.lo.le
  | .gt =>
    if e.hi.le x && x.lt e.lo then
      if e.isZero e.hi then none else fromHi
    else some x

/-- The largest value of the envelope that is at most `src`, over `dst`. -/
def floor? (e : Envelope) (src dst : Packed) : Option Packed :=
  (e.floorCompletion? (dst.copyFrom e.wordCount src)).bind e.lower?

/-- The smallest value of the envelope that is at least `src`, over `dst`. -/
def ceil? (e : Envelope) (src dst : Packed) : Option Packed :=
  (e.ceilCompletion? (dst.copyFrom e.wordCount src)).bind e.raise?

/-- The smallest value of the envelope that is at least `lo`, over `dst`, unless it is beyond
`hi`. -/
def ceilUpTo? (e : Envelope) (lo hi dst : Packed) : Option Packed :=
  (e.ceil? lo dst).filter fun x => !hi.lt x

/-- The largest value of the envelope that is at most `hi`, over `dst`, unless it is below `lo`. -/
def floorDownTo? (e : Envelope) (lo hi dst : Packed) : Option Packed :=
  (e.floor? hi dst).filter fun x => !x.lt lo

/-- The least value of the envelope, over `out`, with its sign prefix made equal. An envelope
without values gives the start of the interval or, where that is no bound, the pins alone. -/
def least (e : Envelope) (out : Packed) : Packed :=
  let found := ((e.ceilCompletion? (e.setZero out)).bind e.raise?).getD <|
    if e.lo.lt e.hi then out.copyFrom e.wordCount e.lo
    else out.mapWords e.wordCount fun i _ => e.pins.word i &&& e.current.word i
  e.extendSign found

/-- The greatest value of the envelope, over `out`, with its sign prefix made equal. An envelope
without values gives the last value of the interval or, where that is no bound, all free bits
set. -/
def greatest (e : Envelope) (out : Packed) : Packed :=
  let found := ((e.floorCompletion? (e.setOnes out)).bind e.lower?).getD <|
    if e.lo.lt e.hi then e.decrement (out.copyFrom e.wordCount e.hi)
    else e.dropOverflow (out.mapWords e.wordCount fun i _ => ~~~e.pins.word i ||| e.current.word i)
  e.extendSign found

end BitEnvelope.Envelope
