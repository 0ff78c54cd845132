import BitEnvelope.Checked.Envelope
import BitEnvelope.Checked.Packed
import BitEnvelope.Valuation.Mutation

/-!
# Checked operations of a valuation

A valuation has at least one bit. Which comparisons a sampler makes hangs on its draws, so a bound
with another number of words is refused only on a path that compares it.
-/

namespace BitEnvelope

namespace Valuation

def checkedBlank (width : Nat) : Except Misuse Valuation := do
  Misuse.emptyWidth.unless (width != 0)
  return blank width

def checkedRepair? (v : Valuation) (downFirst : Bool) (x : Packed) :
    Except Misuse (Option (Packed × Valuation)) := do
  v.checkSpans [x]
  v.checkPlaceable x
  return v.repair? downFirst x

/-- Overwrites the trial value with `x` if the envelope admits `x`. -/
def checkedProposeInPlace (v : Valuation) (x : Packed) : Except Misuse (Outcome × Valuation) := do
  return if ← v.checkedAdmits x then (.accepted, v.load x) else (.refused, v)

/-! ## Samplers -/

/-- Proposes `x` if it `fits`. -/
def checkedProposeIf (v : Valuation) (fits : Packed → Except Misuse Bool) (x : Packed) :
    Except Misuse (Outcome × Valuation) := do
  if ← fits x then v.checkedProposeInPlace x else return (.refused, v)

/-- Proposes `x` if it `fits`, and what `search` finds over `x` if that is not accepted. -/
def checkedProposeOrSearch (v : Valuation)
    (search : Envelope → Packed → Except Misuse (Option Packed))
    (fits : Packed → Except Misuse Bool) (x : Packed) : Except Misuse (Outcome × Valuation) := do
  let (outcome, w) ← v.checkedProposeIf fits x
  if outcome = .accepted then return (outcome, w)
  else
    match ← search w.toEnvelope x with
    | some y => w.checkedProposeInPlace y
    | none => return (.refused, w)

/-- Proposes what `search` finds over `tmp`, or a change of it, as `sampleNear` does. -/
def checkedSampleNear (v : Valuation) (search : Envelope → Packed → Except Misuse (Option Packed))
    (extreme : Packed → Bool) (change : Packed → Draws → Except Misuse (Packed × Draws))
    (fits : Packed → Except Misuse Bool) (tmp : Packed) (d : Draws) :
    Except Misuse ((Outcome × Valuation) × Draws) := do
  match ← search v.toEnvelope tmp with
  | none => return ((.refused, v), d)
  | some bound =>
    if extreme bound then return (← v.checkedProposeInPlace bound, d)
    else
      let (heads, d) := d.coin
      if heads then return (← v.checkedProposeInPlace bound, d)
      else
        let (x, d) ← change bound d
        return (← v.checkedProposeOrSearch search fits x, d)

def checkedSampleAtMost (v : Valuation) (src tmp : Packed) (d : Draws) :
    Except Misuse ((Outcome × Valuation) × Draws) :=
  v.checkedSampleNear (·.checkedFloor? src) v.isZero v.checkedScatterBelow (·.checkedLe src) tmp d

def checkedSampleAtLeast (v : Valuation) (src tmp : Packed) (d : Draws) :
    Except Misuse ((Outcome × Valuation) × Draws) :=
  v.checkedSampleNear (·.checkedCeil? src) v.isOnes (fun x d => .ok (v.scatterAbove x d))
    src.checkedLe tmp d

/-- Changes `x` as `relaxDown` does. The sweep compares what the search has compared before. -/
def checkedRelaxDown (v : Valuation) (lo x : Packed) (d : Draws) :
    Except Misuse (Packed × Draws) := do
  let (y, d) ← v.checkedScatterBelow x d
  return (v.raiseInto lo y, d)

/-- A value in range is compared with `lo` and, if it is not below, with `hi`. -/
def checkedFitsBetween (v : Valuation) (lo hi x : Packed) : Except Misuse Bool :=
  v.checkedInRange x <&&> lo.checkedLe x <&&> x.checkedLe hi

def checkedSampleBetween (v : Valuation) (lo hi tmp : Packed) (d : Draws) :
    Except Misuse ((Outcome × Valuation) × Draws) :=
  let (up, d) := d.coin
  if up then
    v.checkedSampleNear (·.checkedCeilUpTo? lo hi) v.isOnes (fun x d => .ok (v.relaxUp hi x d))
      (v.checkedFitsBetween lo hi) tmp d
  else
    v.checkedSampleNear (·.checkedFloorDownTo? lo hi) v.isZero (v.checkedRelaxDown lo)
      (v.checkedFitsBetween lo hi) tmp d

end Valuation

namespace Mutation

/-- The arguments of a mutation are right for the valuation and the draws. -/
def check (m : Mutation) (v : Valuation) (d : Draws) : Except Misuse Unit :=
  match m with
  | .limitSign _ | .clearTrial | .commit | .pin _ _ | .restrict _ _ | .tighten => .ok ()
  | .load x => v.checkSpans [x]
  | .writeBit i _ | .tryBit i _ => Misuse.outsideStorage.unless (decide (i < v.trial.capacity))
  | .writeWord i _ => Misuse.outsideStorage.unless (decide (i < v.trial.words.length))
  | .propose x => (v.checkedAdmits x).map fun _ => ()
  | .repair downFirst x => (v.checkedRepair? downFirst x).map fun _ => ()
  | .sampleAtMost src tmp => (v.checkedSampleAtMost src tmp d).map fun _ => ()
  | .sampleAtLeast src tmp => (v.checkedSampleAtLeast src tmp d).map fun _ => ()
  | .sampleBetween lo hi tmp => (v.checkedSampleBetween lo hi tmp d).map fun _ => ()

/-- Carries out a mutation in place if its arguments are right. -/
def checkedRun (m : Mutation) (v : Valuation) (d : Draws) :
    Except Misuse (Outcome × Valuation × Draws) := do
  m.check v d
  return m.perform v d

end Mutation

end BitEnvelope
