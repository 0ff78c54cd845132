import BitEnvelope.Envelope.Basic

/-!
# The sign prefix

The top `signedPrefix` bits of a value are to be equal. They are gone through from the top, and each
free one takes the value of the sign bit, until a pinned one turns out to have the opposite value:
then that value is taken, and the prefix is written once more from the start. Pinned positions are
never written, so a prefix that is pinned to both values stays mixed.
-/

namespace BitEnvelope.Envelope

/-- The positions of the sign prefix, lowest first. -/
def prefixPositions (e : Envelope) : List Nat :=
  List.range' (e.width - e.signedPrefix) e.signedPrefix

/-- Makes the bits of `x` at the positions `is` of the sign prefix equal to `sign`, one by one. At a
pinned bit that differs this ends: the free positions of the whole prefix, the ones already written
included, take the opposite value. -/
def unifyPrefix (e : Envelope) (sign : Bool) : List Nat → Packed → Packed
  | [], x => x
  | i :: is, x =>
    if x.bit i = sign then unifyPrefix e sign is x
    else if e.isFree i then unifyPrefix e sign is (x.setBit i sign)
    else x.setBits (e.prefixPositions.reverse.filter e.isFree) fun _ => !sign

/-- Makes the free positions of the sign prefix of `x` equal. -/
def extendSign (e : Envelope) (x : Packed) : Packed :=
  if e.signedPrefix = 0 then x
  else e.unifyPrefix (x.bit (e.width - 1)) e.prefixPositions.reverse x

end BitEnvelope.Envelope
