import BitEnvelope.Envelope.Scatter
import BitEnvelope.Valuation.InPlace

/-!
# Random trial values

The samplers give the trial value a random value of the envelope under a bound, above a bound, or
between two. Each searches for the value of the envelope that is nearest to the bound and flips a coin
whether to propose it as it is. On tails it changes that value at random; if the result is not taken,
it searches again and proposes what it finds then. A sampler works on a scratch value of the caller,
over which it searches, so the second search starts from what the change has left there.
-/

namespace BitEnvelope

namespace Valuation

/-- Proposes `x` if it `fits`. If that is not accepted, `search` goes over `x`, and what it finds is
proposed. -/
def proposeOrSearch (v : Valuation) (search : Envelope → Packed → Option Packed)
    (fits : Packed → Bool) (x : Packed) : Outcome × Valuation :=
  let (outcome, w) := if fits x then v.proposeInPlace x else (.refused, v)
  if outcome = .accepted then (outcome, w)
  else
    match search w.toEnvelope x with
    | some y => w.proposeInPlace y
    | none => (.refused, w)

/-- Proposes what `search` finds over `tmp`, as it is if it is `extreme` or on heads. On tails it is
changed first, and found once more if the change does not do. -/
def sampleNear (v : Valuation) (search : Envelope → Packed → Option Packed)
    (extreme : Packed → Bool) (change : Packed → Draws → Packed × Draws) (fits : Packed → Bool)
    (tmp : Packed) (d : Draws) : (Outcome × Valuation) × Draws :=
  match search v.toEnvelope tmp with
  | none => ((.refused, v), d)
  | some bound =>
    if extreme bound then (v.proposeInPlace bound, d)
    else
      let (heads, d) := d.coin
      if heads then (v.proposeInPlace bound, d)
      else
        let (x, d) := change bound d
        (v.proposeOrSearch search fits x, d)

/-- A random trial value of the envelope that is at most `src`. -/
def sampleAtMost (v : Valuation) (src tmp : Packed) (d : Draws) : (Outcome × Valuation) × Draws :=
  v.sampleNear (·.floor? src) v.isZero v.scatterBelow (·.le src) tmp d

/-- A random trial value of the envelope that is at least `src`. -/
def sampleAtLeast (v : Valuation) (src tmp : Packed) (d : Draws) : (Outcome × Valuation) × Draws :=
  v.sampleNear (·.ceil? src) v.isOnes v.scatterAbove src.le tmp d

/-- Sets free bits of `x` at random, then clears free bits until `x` is in range and at most
`hi`. -/
def relaxUp (v : Valuation) (hi x : Packed) (d : Draws) : Packed × Draws :=
  let (y, d) := v.scatterAbove x d
  (v.lowerUntil (fun t => t.le hi && v.inRange t) y, d)

/-- Sets free bits of `x` until `x` is in range and at least `lo`. -/
def raiseInto (v : Valuation) (lo x : Packed) : Packed :=
  v.raiseUntil (fun t => lo.le t && v.inRange t) x

/-- Draws free bits of `x` anew below a cleared one, then sets free bits until `x` is in range and
at least `lo`. -/
def relaxDown (v : Valuation) (lo x : Packed) (d : Draws) : Packed × Draws :=
  let (y, d) := v.scatterBelow x d
  (v.raiseInto lo y, d)

/-- `x` lies in the interval of the envelope and from `lo` to `hi`. -/
def fitsBetween (v : Valuation) (lo hi x : Packed) : Bool := v.inRange x && lo.le x && x.le hi

/-- A random trial value of the envelope from `lo` to `hi`, both included. A coin decides whether
the search starts from the smallest value at or above `lo` or from the largest at or below `hi`. -/
def sampleBetween (v : Valuation) (lo hi tmp : Packed) (d : Draws) :
    (Outcome × Valuation) × Draws :=
  let (up, d) := d.coin
  if up then
    v.sampleNear (·.ceilUpTo? lo hi) v.isOnes (v.relaxUp hi) (v.fitsBetween lo hi) tmp d
  else
    v.sampleNear (·.floorDownTo? lo hi) v.isZero (v.relaxDown lo) (v.fitsBetween lo hi) tmp d

end Valuation

end BitEnvelope
