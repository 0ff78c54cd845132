import BitEnvelope.Text.Integer
import BitEnvelope.Text.Quoted

/-!
# Errors

What can be wrong with the description of an envelope. An error is a value that names the cause;
its wording is given by `message`.
-/

namespace BitEnvelope

/-- Why an envelope cannot be made or changed as asked. -/
inductive EnvelopeError where
  | invalidWidth (width : Nat)
  /-- A pinned position is not below the width. -/
  | positionOutOfRange (position width : Nat)
  | prefixTooLong (signedPrefix width : Nat)
  /-- The text of an interval bound is not an integer. -/
  | unreadableBound (text : String) (fault : Integer.Fault)
  /-- No value agrees with the pins and lies in the interval with these bounds. -/
  | empty (lo hi : Nat)
deriving DecidableEq, Repr

def EnvelopeError.message : EnvelopeError → String
  | .invalidWidth width => "Invalid bit-width: " ++ Numeral.decimal width
  | .positionOutOfRange position width =>
    "Index out of bounds: index " ++ Numeral.decimal position ++ ", length " ++
      Numeral.decimal width
  | .prefixTooLong signedPrefix width =>
    "Invalid parameter: signed_prefix " ++ Numeral.decimal signedPrefix ++
      " exceeds bit-width " ++ Numeral.decimal width
  | .unreadableBound text fault =>
    "Invalid parameter: range bound " ++ Text.quoted text ++ ": " ++ fault.message
  | .empty lo hi =>
    "Empty envelope: no value consistent with fixed bits in [" ++ Numeral.decimal lo ++ ", " ++
      Numeral.decimal hi ++ "["

end BitEnvelope
