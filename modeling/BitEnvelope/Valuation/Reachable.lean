import BitEnvelope.Valuation.Mutation

/-!
# Reachable valuations

The valuations that mutations lead to from the unrestricted one of a width. The values that the
mutations carry have that width and no bit above it, a scratch value may hold anything, and each
mutation may meet any draws. A `Mutation.Step` is one such mutation between any two valuations.
-/

namespace BitEnvelope

attribute [local instance (high)] instPowNat

/-- `x` is made for `width` bits, whatever its storage holds. -/
def Packed.MadeFor (x : Packed) (width : Nat) : Prop :=
  x.width = width ∧ Packed.storageFor width ≤ x.words.length

/-- `x` is a value of `width` bits: its storage holds them, and none above them is set. -/
def Packed.Fits (x : Packed) (width : Nat) : Prop := x.MadeFor width ∧ x.toNat < 2 ^ width

instance (x : Packed) (width : Nat) : Decidable (x.Fits width) := by
  unfold Packed.Fits Packed.MadeFor
  infer_instance

/-- The values that a mutation carries have `width` bits, and a scratch value is made for them. -/
def Mutation.Fits (width : Nat) : Mutation → Prop
  | .load x | .propose x | .repair _ x => x.Fits width
  | .sampleAtMost src tmp | .sampleAtLeast src tmp => src.Fits width ∧ tmp.MadeFor width
  | .sampleBetween lo hi tmp => (lo.Fits width ∧ hi.Fits width) ∧ tmp.MadeFor width
  | .limitSign _ | .clearTrial | .writeBit _ _ | .writeWord _ _ | .tryBit _ _ | .commit
  | .pin _ _ | .restrict _ _ | .tighten => True

/-- One mutation leads from `v` to `w`. -/
def Mutation.Step (width : Nat) (v w : Valuation) : Prop :=
  ∃ (m : Mutation) (d : Draws), m.Fits width ∧ (m.run v d).2.1 = w

/-- A valuation that some run of mutations leads to. -/
inductive Reachable (width : Nat) : Valuation → Prop
  | blank : Reachable width (Valuation.blank width)
  | run {v : Valuation} (h : Reachable width v) (m : Mutation) (fits : m.Fits width) (d : Draws) :
      Reachable width (m.run v d).2.1

end BitEnvelope
