import BitEnvelope.Packed.Hex
import BitEnvelope.Valuation.Basic

/-!
# The text of a valuation

A valuation is shown as its committed and its trial value, followed by the pinned positions if
there are any and by the interval if it restricts the value; all values in hexadecimal.
-/

namespace BitEnvelope.Valuation

def pinsText (v : Valuation) : String :=
  if v.isZero v.pins then "" else " fix:" ++ v.pins.hex

def rangeText (v : Valuation) : String :=
  if v.hasRange then " [" ++ v.lo.hex ++ ", " ++ v.hi.hex ++ "[" else ""

/-- The valuation in one line. -/
def describe (v : Valuation) : String :=
  v.current.hex ++ " ev: " ++ v.trial.hex ++ v.pinsText ++ v.rangeText

end BitEnvelope.Valuation
