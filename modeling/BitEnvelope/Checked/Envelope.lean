import BitEnvelope.Checked.Draws
import BitEnvelope.Checked.Packed
import BitEnvelope.Envelope.Goal
import BitEnvelope.Envelope.Scatter
import BitEnvelope.Envelope.Search
import BitEnvelope.Envelope.Sweep

/-!
# Checked operations of an envelope

An operand spans the envelope if its storage has all words that carry a value of the envelope. It
can be compared with the bounds of the interval if it has as many words as they have; where the
interval restricts nothing, no comparison takes place. Operations whose result does not depend on
what lies outside a short operand are allowed on it.
-/

namespace BitEnvelope.Envelope

/-- The storage of `x` has all words that carry a value of the envelope. -/
def spans (e : Envelope) (x : Packed) : Bool := decide (e.wordCount ≤ x.words.length)

/-- `x` has as many words as a value of the envelope. -/
def comparable (e : Envelope) (x : Packed) : Bool := x.wordCount == e.wordCount

/-- `x` can be looked up in the interval. -/
def placeable (e : Envelope) (x : Packed) : Bool := !e.hasRange || e.comparable x

/-- Every operand spans the envelope. -/
def checkSpans (e : Envelope) (xs : List Packed) : Except Misuse Unit :=
  Misuse.outsideStorage.unless (xs.all e.spans)

/-- The operand can be looked up in the interval. -/
def checkPlaceable (e : Envelope) (x : Packed) : Except Misuse Unit :=
  Misuse.unequalWordCounts.unless (e.placeable x)

/-- The operand has as many words as a value of the envelope. -/
def checkComparable (e : Envelope) (x : Packed) : Except Misuse Unit :=
  Misuse.unequalWordCounts.unless (e.comparable x)

/-- Carries out an operation on operands that span the envelope. -/
def spanning {α : Type} (e : Envelope) (xs : List Packed) (result : Unit → α) : Except Misuse α := do
  e.checkSpans xs
  return result ()

/-! ## Questions -/

def checkedInRange (e : Envelope) (x : Packed) : Except Misuse Bool := do
  e.checkSpans [x]
  e.checkPlaceable x
  return e.inRange x

def checkedAdmits (e : Envelope) (x : Packed) : Except Misuse Bool := do
  e.checkSpans [x]
  Misuse.unequalWordCounts.unless (!e.agrees x || e.placeable x)
  return e.admits x

def checkedIsCurrent (e : Envelope) (x : Packed) : Except Misuse Bool := do
  e.checkComparable x
  return x.same e.current

/-- All bits of `x` below the width are clear. A storage that is too short answers if one of its
words is not zero. -/
def checkedIsZero (e : Envelope) (x : Packed) : Except Misuse Bool := do
  Misuse.outsideStorage.unless (e.spans x || x.words.any (· != 0))
  return e.isZero x

/-! ## Values -/

/-- The bits of `x` from position `lo` up to but not including `hi` become `b`, if no pin says
otherwise. A pin beyond the storage of the pins can be asked for only after one that forbids. -/
def checkedFill? (e : Envelope) (x : Packed) (lo hi : Nat) (b : Bool) :
    Except Misuse (Option Packed) := do
  let stop := min hi e.pins.capacity
  if (List.range' lo (stop - lo)).any (e.forbids · b) then
    return none
  Misuse.outsideStorage.unless (decide (hi ≤ lo ∨ hi ≤ min e.pins.capacity x.capacity))
  return e.fill? x lo hi b

/-- One less than `x` modulo `2 ^ width`. A short storage has a set bit to stop at. -/
def checkedDecrement (e : Envelope) (x : Packed) : Except Misuse Packed := do
  Misuse.outsideStorage.unless (e.spans x || x.words.any (· != 0))
  return e.decrement x

/-- The product of `a` and `b`, whose destination also has room for the upper half. -/
def checkedMul (e : Envelope) (a b out : Packed) (check : Bool) :
    Except Misuse (Packed × Bool) := do
  e.checkSpans [a, b]
  Misuse.outsideStorage.unless (decide (2 * e.wordCount ≤ out.words.length))
  return e.mul a b out check

def checkedExtendSign (e : Envelope) (x : Packed) : Except Misuse Packed := do
  Misuse.outsideStorage.unless (e.signedPrefix == 0 || e.spans x)
  return e.extendSign x

/-- Clears one of the free set bits of `x` and draws the free bits below it anew. The free set bits
are counted in a word. -/
def checkedScatterBelow (e : Envelope) (x : Packed) (d : Draws) :
    Except Misuse (Packed × Draws) := do
  e.checkSpans [x]
  let (chosen, d) ← d.checkedChoose (e.freeOnes x)
  return e.redrawBelow x chosen d

/-! ## Searches -/

def checkedFloor? (e : Envelope) (src dst : Packed) : Except Misuse (Option Packed) := do
  e.checkSpans [src, dst]
  if (e.floorCompletion? (dst.copyFrom e.wordCount src)).isSome then
    e.checkPlaceable dst
  return e.floor? src dst

def checkedCeil? (e : Envelope) (src dst : Packed) : Except Misuse (Option Packed) := do
  e.checkSpans [src, dst]
  if (e.ceilCompletion? (dst.copyFrom e.wordCount src)).isSome then
    e.checkPlaceable dst
  return e.ceil? src dst

/-- The smallest value of the envelope that is at least `lo`, which is then compared with `hi`. -/
def checkedCeilUpTo? (e : Envelope) (lo hi dst : Packed) : Except Misuse (Option Packed) := do
  match ← e.checkedCeil? lo dst with
  | none => return none
  | some x => return if ← hi.checkedLt x then none else some x

/-- The largest value of the envelope that is at most `hi`, which is then compared with `lo`. -/
def checkedFloorDownTo? (e : Envelope) (lo hi dst : Packed) : Except Misuse (Option Packed) := do
  match ← e.checkedFloor? hi dst with
  | none => return none
  | some x => return if ← x.checkedLt lo then none else some x

def checkedLeast (e : Envelope) (out : Packed) : Except Misuse Packed := do
  e.checkSpans [out]
  if (e.ceilCompletion? (e.setZero out)).isSome then
    e.checkPlaceable out
  return e.least out

def checkedGreatest (e : Envelope) (out : Packed) : Except Misuse Packed := do
  e.checkSpans [out]
  if (e.floorCompletion? (e.setOnes out)).isSome then
    e.checkPlaceable out
  return e.greatest out

/-! ## Sweeps -/

def checkGoal (e : Envelope) (goal : Goal) (x : Packed) : Except Misuse Unit :=
  match goal with
  | .atMost bound | .under bound | .atLeast bound | .over bound =>
    Misuse.unequalWordCounts.unless (x.wordCount == bound.wordCount)
  | .inRange => e.checkPlaceable x
  | .always | .never => .ok ()

/-- No position below the width that lies beyond the storage of `x` is free. -/
def pinnedBeyond (e : Envelope) (x : Packed) : Bool :=
  (List.range' x.capacity (e.width - x.capacity)).all fun i => !e.isFree i

/-- Clears free bits from the top until the goal holds. A short storage must not be left before
that. -/
def checkedLowerUntil (e : Envelope) (goal : Goal) (x : Packed) : Except Misuse Packed := do
  e.checkGoal goal x
  Misuse.outsideStorage.unless (goal.holds e x || e.pinnedBeyond x)
  e.checkedExtendSign (e.sweepDown (goal.holds e) x)

/-- Sets free bits from the bottom until the goal holds. A short storage must not be left before
that. -/
def checkedRaiseUntil (e : Envelope) (goal : Goal) (x : Packed) : Except Misuse Packed := do
  e.checkGoal goal x
  let y := e.sweepUp (goal.holds e) x
  Misuse.outsideStorage.unless (goal.holds e y || e.pinnedBeyond x)
  e.checkedExtendSign y

end BitEnvelope.Envelope
