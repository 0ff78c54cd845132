import BitEnvelope.Envelope.Basic

/-!
# Completions of the pins

A value that agrees with every pin is a completion of the pins. This module finds the completion
nearest to a value from above and from below, without regard to the interval. What decides is the
highest pinned position where the value differs from its pin: if moving that one bit to its pin
moves the value the right way, the free bits below it are reset to the end of their span;
otherwise the nearest free bit above it that can still move is moved first.
-/

namespace BitEnvelope.Envelope

/-- The highest pinned position where `x` differs from its pin. -/
def divergence? (e : Envelope) (x : Packed) : Option Nat :=
  (List.range e.wordCount).reverse.findSome? fun i =>
    ((x.word i ^^^ e.current.word i) &&& e.pins.word i).highest?.map (32 * i + ·)

/-- Puts every pinned position of `x` to its pinned value. -/
def applyPins (e : Envelope) (x : Packed) : Packed :=
  x.mapWords e.wordCount fun i w => (w &&& ~~~e.pins.word i) ||| (e.current.word i &&& e.pins.word i)

def clearFreeBelow (e : Envelope) (p : Nat) (x : Packed) : Packed :=
  x.mapWords (p / 32 + 1) fun i w =>
    if i < p / 32 then w &&& e.pins.word i
    else w &&& (e.pins.word i ||| ~~~Word.low (p % 32))

def setFreeBelow (e : Envelope) (p : Nat) (x : Packed) : Packed :=
  x.mapWords (p / 32 + 1) fun i w =>
    if i < p / 32 then w ||| ~~~e.pins.word i
    else w ||| (~~~e.pins.word i &&& Word.low (p % 32))

/-- The lowest free position above `p` and below the width where `x` has the bit `b`. -/
def freeAbove? (e : Envelope) (p : Nat) (b : Bool) (x : Packed) : Option Nat :=
  (List.range' (p + 1) (e.width - (p + 1))).find? fun q => e.isFree q && x.bit q == b

/-- The smallest completion that is at least `x`, if there is one. -/
def ceilCompletion? (e : Envelope) (x : Packed) : Option Packed :=
  match e.divergence? x with
  | none => some x
  | some p =>
    let y := e.applyPins x
    if e.current.bit p then
      some (e.clearFreeBelow p y)
    else
      (e.freeAbove? p false y).map fun q => e.clearFreeBelow q (y.setBit q true)

/-- The largest completion that is at most `x`, if there is one. -/
def floorCompletion? (e : Envelope) (x : Packed) : Option Packed :=
  match e.divergence? x with
  | none => some x
  | some p =>
    let y := e.applyPins x
    if e.current.bit p then
      (e.freeAbove? p true y).map fun q => e.setFreeBelow q (y.setBit q false)
    else
      some (e.setFreeBelow p y)

end BitEnvelope.Envelope
