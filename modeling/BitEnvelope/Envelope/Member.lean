import BitEnvelope.Envelope.Basic

/-!
# The values of an envelope

Which numbers are values of an envelope, said on numbers and not on words: a number below
`2 ^ width` that has the pinned bits and lies in the interval. The searches and samplers are
described by this predicate.
-/

namespace BitEnvelope

attribute [local instance (high)] instPowNat

/-- The number `n` lies in the interval from `lo` up to but not including `hi`, which wraps around
if `hi` is less than `lo` and holds every number if both are equal. -/
def InArc (lo hi n : Nat) : Prop :=
  lo = hi ∨ (lo < hi ∧ lo ≤ n ∧ n < hi) ∨ (hi < lo ∧ (lo ≤ n ∨ n < hi))

instance (lo hi n : Nat) : Decidable (InArc lo hi n) := by
  unfold InArc
  infer_instance

namespace Envelope

/-- The number `n` has the pinned value at every pinned position below the width. -/
def HasPins (e : Envelope) (n : Nat) : Prop :=
  ∀ i < e.width, e.isFree i = false → n.testBit i = e.current.bit i

instance (e : Envelope) (n : Nat) : Decidable (e.HasPins n) := by
  unfold HasPins
  infer_instance

/-- The number `n` is a value of the envelope. -/
def Allows (e : Envelope) (n : Nat) : Prop :=
  n < 2 ^ e.width ∧ e.HasPins n ∧ InArc e.lo.toNat e.hi.toNat n

instance (e : Envelope) (n : Nat) : Decidable (e.Allows n) := by
  unfold Allows
  infer_instance

end Envelope

end BitEnvelope
