import BitEnvelope.Error
import BitEnvelope.Text.Blank

/-!
# Interval bounds as texts

The bounds of a stored interval are decimal texts, which may be negative. White space around a
bound is ignored; an error shows the text as it was given.
-/

namespace BitEnvelope

/-- An interval whose bounds are decimal texts. -/
structure RangeText where
  lower : String
  /-- The value after the last one. -/
  upper : String
deriving DecidableEq, Repr

namespace RangeText

def ofInts (lower upper : Int) : RangeText :=
  { lower := Numeral.integer lower, upper := Numeral.integer upper }

/-- The integer that the text of a bound stands for. -/
def readBound (text : String) : Except EnvelopeError Int :=
  (Integer.read (Text.trim text.toList)).mapError (.unreadableBound text)

/-- Both bounds; if none of them can be read, the lower one is reported. -/
def bounds (r : RangeText) : Except EnvelopeError (Int × Int) := do
  let lower ← readBound r.lower
  let upper ← readBound r.upper
  return (lower, upper)

end RangeText

end BitEnvelope
