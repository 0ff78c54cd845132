import BitEnvelope.Valuation.Basic

/-!
# Changes in place

A search holds one valuation and changes it in place. Most changes are tested before anything is
written. A bit of the trial value, a pin and a restriction can be tested only after they have been
written: what they overwrite is kept and, if the test fails, written back part by part. Each change
answers with its outcome and the valuation that is left.
-/

namespace BitEnvelope

/-- What came of a change. -/
inductive Outcome where
  /-- It cannot be refused. -/
  | done
  | accepted
  | refused
  /-- It would leave no value or has no meaning. -/
  | failed (error : EnvelopeError)
deriving DecidableEq, Repr

namespace Valuation

/-! ## The trial value -/

/-- Overwrites the trial value with `x` if the envelope admits `x`. -/
def proposeInPlace (v : Valuation) (x : Packed) : Outcome × Valuation :=
  if v.admits x then (.accepted, v.load x) else (.refused, v)

/-- Writes bit `i` of the trial value, and its old value if the trial value then is out of
range. -/
def tryBitInPlace (v : Valuation) (i : Nat) (b : Bool) : Outcome × Valuation :=
  if v.forbids i b then (.refused, v)
  else
    let w := v.writeBit i b
    if w.inRange w.trial then (.accepted, w)
    else (.refused, w.writeBit i (v.trial.bit i))

/-- Overwrites the committed value with the trial value if the envelope admits it. -/
def commitInPlace (v : Valuation) : Outcome × Valuation :=
  if v.admits v.trial then
    (.accepted, { v with current := v.current.copyFrom v.wordCount v.trial })
  else (.refused, v)

/-- Puts the pins and the sign prefix of `x` right and, where that does not do, sweeps its free bits.
The trial value is overwritten by the first of the two that is a value of the envelope. -/
def repairInPlace (v : Valuation) (downFirst : Bool) (x : Packed) : Outcome × Valuation :=
  let y := v.settle x
  if v.inRange y then (.accepted, v.load y)
  else v.proposeInPlace (v.extendSign (v.sweepIntoRange downFirst y))

/-! ## The envelope -/

/-- Tightens in place. What is to be written is found before anything is, so an envelope without
values is left alone. -/
def tightenInPlace (v : Valuation) : Outcome × Valuation :=
  if v.hasRange then
    match v.relocate? with
    | some x => (.done, { v with current := x, lo := v.raisedLo })
    | none =>
      (.failed (.empty (v.lo.natOfFirst v.wordCount) (v.hi.natOfFirst v.wordCount)), v)
  else (.done, v)

/-- Writes position `i` of the pins, of the committed value and of the trial value. -/
def writePin (v : Valuation) (i : Nat) (pinned current trial : Bool) : Valuation :=
  { v with
    pins := v.pins.setBit i pinned
    current := v.current.setBit i current
    trial := v.trial.setBit i trial }

/-- Pins position `i` to `b` and tightens. If no value is left, the three bits that were written
take their old values. -/
def pinInPlace (v : Valuation) (i : Nat) (b : Bool) : Outcome × Valuation :=
  if i < v.width then
    match (v.writePin i true b b).tightenInPlace with
    | (.failed e, w) =>
      (.failed e, w.writePin i (v.pins.bit i) (v.current.bit i) (v.trial.bit i))
    | done => done
  else (.failed (.positionOutOfRange i v.width), v)

/-- Writes both bounds of the interval. -/
def writeBounds (v : Valuation) (lo hi : Packed) : Valuation := { v with lo, hi }

/-- Moves the bounds to those of the narrowed interval and tightens. If no value is left, the old
bounds are put back. -/
def restrictInPlace (v : Valuation) (l h : Int) : Outcome × Valuation :=
  if v.residue l = v.residue h then (.done, v)
  else
    let bounds := Envelope.narrowedBounds (v.lo.natOfFirst v.wordCount)
      (v.hi.natOfFirst v.wordCount) (v.residue l) (v.residue h)
    match (v.writeBounds (v.setNat v.lo bounds.1) (v.setNat v.hi bounds.2)).tightenInPlace with
    | (.failed e, w) => (.failed e, w.writeBounds v.lo v.hi)
    | done => done

end Valuation

end BitEnvelope
