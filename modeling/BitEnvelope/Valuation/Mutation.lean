import BitEnvelope.Valuation.Sample

/-!
# Mutations

A `Mutation` is one change that a search may ask of a valuation, as a value: a run of a search is a
list of mutations. `Mutation.run` carries one out and says what came of it: a change that is tested is
made at once or not at all, and a sampler goes on from one proposal to the next. `Mutation.perform` does
so in place. A mutation that is refused or fails leaves the valuation as it was.
-/

namespace BitEnvelope

/-- A change asked of a valuation. -/
inductive Mutation where
  | limitSign (k : Nat)
  /-- Overwrites the trial value, whatever the envelope. -/
  | load (x : Packed)
  | clearTrial
  | writeBit (i : Nat) (b : Bool)
  | writeWord (i : Nat) (w : Word)
  /-- Overwrites the trial value if the envelope admits the new one. -/
  | propose (x : Packed)
  /-- Writes one bit of the trial value if it stays in range. -/
  | tryBit (i : Nat) (b : Bool)
  | commit
  | pin (i : Nat) (b : Bool)
  /-- Intersects the interval. -/
  | restrict (l h : Int)
  /-- Moves the committed value and the start of the interval to completions. -/
  | tighten
  /-- Brings a candidate into the envelope. -/
  | repair (downFirst : Bool) (x : Packed)
  /-- Draws a trial value that is at most a bound, over a scratch value. -/
  | sampleAtMost (src tmp : Packed)
  /-- Draws a trial value that is at least a bound, over a scratch value. -/
  | sampleAtLeast (src tmp : Packed)
  /-- Draws a trial value between two bounds, over a scratch value. -/
  | sampleBetween (lo hi tmp : Packed)
deriving DecidableEq, Repr

namespace Mutation

/-- The outcome of a change to `v` that may be refused. -/
def ofOption (v : Valuation) : Option Valuation × Draws → Outcome × Valuation × Draws
  | (some w, d) => (.accepted, w, d)
  | (none, d) => (.refused, v, d)

/-- The outcome of a change to `v` that may fail. -/
def ofExcept (v : Valuation) (d : Draws) : Except EnvelopeError Valuation →
    Outcome × Valuation × Draws
  | .ok w => (.done, w, d)
  | .error e => (.failed e, v, d)

/-- The outcome of a change in place. -/
def inPlace : (Outcome × Valuation) × Draws → Outcome × Valuation × Draws
  | ((o, w), d) => (o, w, d)

/-- Carries out a mutation of `v`: its outcome, the valuation after it, and the draws left. -/
def run (m : Mutation) (v : Valuation) (d : Draws) : Outcome × Valuation × Draws :=
  match m with
  | .limitSign k => (.done, v.limitSign k, d)
  | .load x => (.done, v.load x, d)
  | .clearTrial => (.done, v.clearTrial, d)
  | .writeBit i b => (.done, v.writeBit i b, d)
  | .writeWord i w => (.done, v.writeWord i w, d)
  | .propose x => ofOption v (v.propose? x, d)
  | .tryBit i b => ofOption v (v.tryBit? i b, d)
  | .commit => ofOption v (v.commit?, d)
  | .pin i b => ofExcept v d (v.pin i b)
  | .restrict l h => ofExcept v d (v.restrict l h)
  | .tighten => ofExcept v d v.tighten
  | .repair downFirst x => ofOption v ((v.repair? downFirst x).map Prod.snd, d)
  | .sampleAtMost src tmp => inPlace (v.sampleAtMost src tmp d)
  | .sampleAtLeast src tmp => inPlace (v.sampleAtLeast src tmp d)
  | .sampleBetween lo hi tmp => inPlace (v.sampleBetween lo hi tmp d)

/-- Carries out a mutation of `v` in place: its outcome, the valuation that is left, and the draws
left. What cannot be refused is written at once. -/
def perform (m : Mutation) (v : Valuation) (d : Draws) : Outcome × Valuation × Draws :=
  match m with
  | .limitSign _ | .load _ | .clearTrial | .writeBit _ _ | .writeWord _ _ => m.run v d
  | .propose x => inPlace (v.proposeInPlace x, d)
  | .tryBit i b => inPlace (v.tryBitInPlace i b, d)
  | .commit => inPlace (v.commitInPlace, d)
  | .pin i b => inPlace (v.pinInPlace i b, d)
  | .restrict l h => inPlace (v.restrictInPlace l h, d)
  | .tighten => inPlace (v.tightenInPlace, d)
  | .repair downFirst x => inPlace (v.repairInPlace downFirst x, d)
  | .sampleAtMost src tmp => inPlace (v.sampleAtMost src tmp d)
  | .sampleAtLeast src tmp => inPlace (v.sampleAtLeast src tmp d)
  | .sampleBetween lo hi tmp => inPlace (v.sampleBetween lo hi tmp d)

end Mutation

end BitEnvelope
