import BitEnvelope.Envelope.Completion
import BitEnvelope.Envelope.Sign

/-!
# Sweeps over the free bits

A sweep visits positions in a given order and moves each free bit that it meets to one value,
until a goal holds. `lowerUntil` clears bits from the top, `raiseUntil` sets bits from the bottom.
`repair?` uses both to bring a candidate into the envelope: it is greedy, so it may give up where a
value exists.
-/

namespace BitEnvelope.Envelope

/-- Moves the free bits at the positions `is` to `b`, one by one, until `goal` holds. -/
def sweep (e : Envelope) (b : Bool) (goal : Packed → Bool) : List Nat → Packed → Packed
  | [], x => x
  | i :: is, x =>
    if goal x then x
    else sweep e b goal is (if e.isFree i && x.bit i != b then x.setBit i b else x)

/-- Clears free bits from the highest to the lowest until `goal` holds. -/
def sweepDown (e : Envelope) (goal : Packed → Bool) (x : Packed) : Packed :=
  e.sweep false goal (List.range e.width).reverse x

/-- Sets free bits from the lowest to the highest until `goal` holds. -/
def sweepUp (e : Envelope) (goal : Packed → Bool) (x : Packed) : Packed :=
  e.sweep true goal (List.range e.width) x

/-- Clears free bits from the top until `goal` holds, then makes the sign prefix equal. -/
def lowerUntil (e : Envelope) (goal : Packed → Bool) (x : Packed) : Packed :=
  e.extendSign (e.sweepDown goal x)

/-- Sets free bits from the bottom until `goal` holds, then makes the sign prefix equal. -/
def raiseUntil (e : Envelope) (goal : Packed → Bool) (x : Packed) : Packed :=
  e.extendSign (e.sweepUp goal x)

/-- `x` with its pinned positions and its sign prefix put right. -/
def settle (e : Envelope) (x : Packed) : Packed :=
  e.extendSign (e.applyPins x)

/-- Sweeps `x` toward the interval. For an interval that does not wrap around, the way down goes to
its end and the way up to its start; otherwise `downFirst` says which way is tried first. -/
def sweepIntoRange (e : Envelope) (downFirst : Bool) (x : Packed) : Packed :=
  if e.lo.lt e.hi then
    e.sweepUp (fun y => e.lo.le y || e.inRange y) (e.sweepDown (fun y => y.lt e.hi || e.inRange y) x)
  else if downFirst then
    e.sweepUp e.inRange (e.sweepDown e.inRange x)
  else
    e.sweepDown e.inRange (e.sweepUp e.inRange x)

/-- A value of the envelope near `x`, found by putting its pinned positions and its sign prefix
right and, where that does not do, by sweeping its free bits. -/
def repair? (e : Envelope) (downFirst : Bool) (x : Packed) : Option Packed :=
  let y := e.settle x
  if e.inRange y then some y
  else
    let z := e.extendSign (e.sweepIntoRange downFirst y)
    if e.admits z then some z else none

end BitEnvelope.Envelope
