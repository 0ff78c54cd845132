import BitEnvelope.Config.Bound
import BitEnvelope.Release
import BitEnvelope.Valuation.Basic

/-!
# Configurations

A `Config` describes an envelope so that it can be stored: the width, the length of the sign
prefix, the pinned positions, and the intervals to intersect. `build` makes the valuation that it
describes and `ofValuation` describes the envelope of a valuation. Sizes are numbers of sixty-four
bits, and interval bounds are decimal texts, which hold numbers of any size.
-/

namespace BitEnvelope

structure Pin where
  index : UInt64
  value : Bool
deriving DecidableEq, Repr

/-- A description of an envelope. -/
structure Config where
  version : String
  width : UInt64
  /-- How many top bits are to be equal. -/
  signedPrefix : UInt64
  /-- The pinned positions, in the order in which they are pinned. -/
  pins : List Pin
  /-- The intervals, in the order in which they are intersected. -/
  ranges : List RangeText
deriving DecidableEq, Repr

namespace Config

/-- The description of an unrestricted variable. -/
def unrestricted (width : UInt64) : Config :=
  { version := Release.version, width, signedPrefix := 0, pins := [], ranges := [] }

def withPin (c : Config) (index : UInt64) (value : Bool) : Config :=
  { c with pins := c.pins ++ [{ index, value }] }

def withRange (c : Config) (lower upper : Int) : Config :=
  { c with ranges := c.ranges ++ [RangeText.ofInts lower upper] }

def withSignedPrefix (c : Config) (k : UInt64) : Config := { c with signedPrefix := k }

/-- Tests what can be tested without a valuation: the width, the sign prefix, the positions, and
then the texts of the bounds. -/
def validate (c : Config) : Except EnvelopeError Unit := do
  if c.width = 0 then
    throw (.invalidWidth 0)
  if c.width < c.signedPrefix then
    throw (.prefixTooLong c.signedPrefix.toNat c.width.toNat)
  match c.pins.find? fun p => c.width ≤ p.index with
  | some p => throw (.positionOutOfRange p.index.toNat c.width.toNat)
  | none => c.ranges.forM fun r => r.bounds.map fun _ => ()

def pinAll (v : Valuation) (pins : List Pin) : Except EnvelopeError Valuation :=
  pins.foldlM (fun v p => v.pin p.index.toNat p.value) v

def restrictAll (v : Valuation) (ranges : List RangeText) : Except EnvelopeError Valuation :=
  ranges.foldlM (fun v r => do let (l, h) ← r.bounds; v.restrict l h) v

/-- The valuation that is described: all positions are pinned before the first interval. -/
def build (c : Config) : Except EnvelopeError Valuation := do
  c.validate
  let v ← pinAll ((Valuation.blank c.width.toNat).limitSign c.signedPrefix.toNat) c.pins
  restrictAll v c.ranges

/-- The pinned positions of a valuation, lowest first. -/
def pinsOf (v : Valuation) : List Pin :=
  ((List.range v.width).filter fun i => !v.isFree i).map fun i =>
    { index := UInt64.ofNat i, value := v.current.bit i }

/-- The interval of a valuation, if it restricts the value. -/
def rangesOf (v : Valuation) : List RangeText :=
  if v.hasRange then
    [RangeText.ofInts (v.lo.natOfFirst v.wordCount) (v.hi.natOfFirst v.wordCount)]
  else []

/-- The description of the envelope of a valuation. The committed value itself is not part of
it. -/
def ofValuation (v : Valuation) : Config :=
  { unrestricted (UInt64.ofNat v.width) with
    signedPrefix := UInt64.ofNat v.signedPrefix
    pins := pinsOf v
    ranges := rangesOf v }

end Config

end BitEnvelope
