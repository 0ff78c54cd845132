import BitEnvelope.Envelope.Completion
import BitEnvelope.Error

/-!
# Narrowing an envelope

`restrict` intersects the interval with a requested one. The stored interval is one arc of the
numbers modulo `2 ^ width`, so a bound moves only if the requested bound lies within the stored
interval. `tighten` then restores what every envelope in use has: the committed value lies in the
interval, and the interval starts at a completion of the pins. It fails, and changes nothing, if no
completion lies in the interval.
-/

namespace BitEnvelope.Envelope

attribute [local instance (high)] instPowNat

/-- The committed value if it lies in the interval; otherwise the smallest completion in range at
or above the start of the interval or, if an interval that wraps around has none there, the
smallest completion at all. -/
def relocate? (e : Envelope) : Option Packed :=
  if e.inRange e.current then some e.current
  else
    let fromLo := (e.ceilCompletion? (e.current.copyFrom e.wordCount e.lo)).filter e.inRange
    let fromZero :=
      if e.hi.lt e.lo then some (e.applyPins (e.setZero e.current)) else none
    fromLo.or (fromZero.filter e.inRange)

/-- The start of the interval moved up to a completion, or to zero if there is none above it. -/
def raisedLo (e : Envelope) : Packed :=
  (e.ceilCompletion? e.lo).getD (e.setZero e.lo)

/-- Moves the committed value into the interval and the start of the interval to a completion. -/
def tighten (e : Envelope) : Except EnvelopeError Envelope :=
  if e.hasRange then
    match e.relocate? with
    | some x => .ok { e with current := x, lo := e.raisedLo }
    | none => .error (.empty (e.lo.natOfFirst e.wordCount) (e.hi.natOfFirst e.wordCount))
  else .ok e

/-- The bounds of the interval from `lo` to `hi` after it has been narrowed by the one from `l` to
`h`. -/
def narrowedBounds (lo hi l h : Nat) : Nat × Nat :=
  if lo = hi then (l, h)
  else if lo < hi then
    let start := if lo < l ∧ l < hi then l else lo
    (start, if start < h ∧ h < hi then h else hi)
  else
    let start := if lo < l ∨ l < hi then l else lo
    (start, if (start < h ∧ h < hi) ∨ (hi < start ∧ (h < hi ∨ start < h)) then h else hi)

/-- The integer `n` modulo `2 ^ width`. -/
def residue (e : Envelope) (n : Int) : Nat := (n % 2 ^ e.width).toNat

/-- Intersects the interval with the one from `l` to `h`, both taken modulo `2 ^ width`. Equal
bounds ask for nothing. -/
def restrict (e : Envelope) (l h : Int) : Except EnvelopeError Envelope :=
  if e.residue l = e.residue h then .ok e
  else
    let bounds := narrowedBounds (e.lo.natOfFirst e.wordCount) (e.hi.natOfFirst e.wordCount)
      (e.residue l) (e.residue h)
    tighten { e with lo := e.setNat e.lo bounds.1, hi := e.setNat e.hi bounds.2 }

end BitEnvelope.Envelope
