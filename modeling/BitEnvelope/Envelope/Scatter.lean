import BitEnvelope.Draws
import BitEnvelope.Envelope.Completion
import BitEnvelope.Envelope.Sign

/-!
# Random changes of the free bits

Three ways to change the free bits of a value at random: `scatterAbove` sets some of them,
`scatterBelow` clears one and draws those below it anew, and `variant` draws all of them anew.
-/

namespace BitEnvelope

/-- The bits of `x` at the positions `is` become coin flips. -/
def Draws.flipBits : List Nat → Packed → Draws → Packed × Draws
  | [], x, d => (x, d)
  | i :: is, x, d =>
    let (b, d) := d.coin
    flipBits is (x.setBit i b) d

namespace Envelope

/-- Sets a random choice of the free bits of `x`. -/
def scatterAbove (e : Envelope) (x : Packed) (d : Draws) : Packed × Draws :=
  let (ws, d) := d.take e.wordCount
  (e.extendSign (x.mapWords e.wordCount fun i w => w ||| (ws.getD i 0 &&& ~~~e.pins.word i)), d)

/-- The free set positions of `x`, lowest first. -/
def freeOnes (e : Envelope) (x : Packed) : List Nat :=
  (List.range e.width).filter fun i => x.bit i && e.isFree i

/-- Clears bit `p` of `x` and draws the free bits below it anew. Without a position, `x` stays. -/
def redrawBelow (e : Envelope) (x : Packed) : Option Nat → Draws → Packed × Draws
  | none, d => (x, d)
  | some p, d =>
    let (y, d) := d.flipBits ((List.range p).filter e.isFree) (x.setBit p false)
    (e.extendSign y, d)

/-- Clears one of the free set bits of `x`, if there is one, and draws the free bits below it anew. -/
def scatterBelow (e : Envelope) (x : Packed) (d : Draws) : Packed × Draws :=
  let (chosen, d) := d.choose (e.freeOnes x)
  e.redrawBelow x chosen d

/-- A random completion of the pins, over `out`. -/
def variant (e : Envelope) (out : Packed) (d : Draws) : Packed × Draws :=
  let (ws, d) := d.take e.wordCount
  let y := out.mapWords e.wordCount fun i _ => ws.getD i 0 &&& ~~~e.pins.word i
  (e.dropOverflow (e.extendSign (e.applyPins y)), d)

end Envelope

end BitEnvelope
