import BitEnvelope.Envelope.Basic

/-!
# Goals of a sweep

The tests that a sweep over the free bits of a value can run toward: a comparison with another
value, membership in the interval, or a test that always or never holds.
-/

namespace BitEnvelope

/-- A test of the value that a sweep changes. -/
inductive Goal where
  | atMost (bound : Packed)
  /-- The value is less than `bound`. -/
  | under (bound : Packed)
  | atLeast (bound : Packed)
  /-- The value is greater than `bound`. -/
  | over (bound : Packed)
  | inRange
  | always
  | never
deriving DecidableEq, Repr

/-- Whether `x` meets the goal. -/
def Goal.holds (e : Envelope) (x : Packed) : Goal → Bool
  | .atMost bound => x.le bound
  | .under bound => x.lt bound
  | .atLeast bound => bound.le x
  | .over bound => bound.lt x
  | .inRange => e.inRange x
  | .always => true
  | .never => false

end BitEnvelope
