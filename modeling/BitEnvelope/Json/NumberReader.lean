import BitEnvelope.Json.Token
import BitEnvelope.Text.Integer

/-!
# Reading a number

A `NumberReader` reads a JSON number one character at a time. A number is closed by the first
character that cannot continue it. A strict reader refuses a number that is too large for a double:
of the digits it keeps as many as fit in sixty-four bits, with the power of ten that the others
stand for, and multiplies both as doubles. A loose reader, which reads numbers whose value is not
used, accepts any size, but an unfinished number is malformed for it even at the end of the text.
-/

namespace BitEnvelope.Json

-- As in `Word`, `2 ^ b` is the power of the core library.
attribute [local instance (high)] instPowNat

/-- Where a reader stands within a number. -/
inductive NumberPhase where
  | sign
  | zero
  | whole
  | point
  | fraction
  | exponent
  | exponentSign
  | exponentDigits
deriving DecidableEq, Repr

/-- A number that is being read. -/
structure NumberReader where
  /-- Whether the number has to fit in a double. -/
  strict : Bool
  negative : Bool
  phase : NumberPhase
  /-- The integer before the point. -/
  whole : Nat
  /-- The number of the digits that are kept. -/
  kept : Nat
  /-- Whether a digit of this part of the number was not kept. -/
  full : Bool
  /-- The power of ten that `kept` is to be multiplied by, the exponent apart. -/
  scale : Int
  exponentNegative : Bool
  exponent : Nat
deriving DecidableEq, Repr

namespace NumberReader

/-- The double nearest to `n`, of two the one with an even significand, without regard to the
range of doubles. -/
def roundToDouble (n : Nat) : Nat :=
  if n < 2 ^ (53 : Nat) then n
  else
    let unit := 2 ^ (n.log2 - 52)
    let q := n / unit
    let r := n % unit
    (if unit < 2 * r || (2 * r == unit && q % 2 == 1) then q + 1 else q) * unit

/-- The power of ten of the number, exponent included. -/
def power (r : NumberReader) : Int :=
  if r.exponentNegative then r.scale - r.exponent else r.scale + r.exponent

/-- The number is too large for a double: its product rounds to the first power of two beyond the
range or more. -/
def outOfRange (r : NumberReader) : Bool :=
  r.kept != 0 && decide (0 ≤ r.power) &&
    (decide (308 < r.power) ||
      decide (2 ^ (1024 : Nat) - 2 ^ (970 : Nat) ≤
        roundToDouble r.kept * roundToDouble (10 ^ r.power.toNat)))

/-- The value if the number is an integer from zero to `2 ^ 64 - 1` without sign, fraction and
exponent. -/
def size? (r : NumberReader) : Option UInt64 :=
  match r.phase with
  | .zero | .whole =>
    if !r.negative && r.whole < 2 ^ (64 : Nat) then some (UInt64.ofNat r.whole) else none
  | _ => none

/-- The number may end here. -/
def complete (r : NumberReader) : Bool :=
  match r.phase with
  | .zero | .whole | .fraction | .exponentDigits => true
  | .sign | .point | .exponent | .exponentSign => false

def pushWhole (r : NumberReader) (d : Nat) : NumberReader :=
  let phase : NumberPhase := if r.phase = .sign ∧ d = 0 then .zero else .whole
  let r := { r with phase, whole := 10 * r.whole + d }
  if r.full || 2 ^ (64 : Nat) ≤ 10 * r.kept + d then { r with full := true, scale := r.scale + 1 }
  else { r with kept := 10 * r.kept + d }

def pushFraction (r : NumberReader) (d : Nat) : NumberReader :=
  let r := { r with phase := .fraction }
  if r.full || 2 ^ (64 : Nat) ≤ 10 * r.kept + d then { r with full := true }
  else { r with kept := 10 * r.kept + d, scale := r.scale - 1 }

def pushExponent (r : NumberReader) (d : Nat) : NumberReader :=
  { r with phase := .exponentDigits, exponent := 10 * r.exponent + d }

def startFraction (r : NumberReader) : NumberReader := { r with phase := .point, full := false }

def startExponent (r : NumberReader) : NumberReader := { r with phase := .exponent }

def isExponentLetter (c : Char) : Bool := c == 'e' || c == 'E'

/-- Reads one character: the reader after it, or nothing if the number is closed before it. -/
def feed (r : NumberReader) (c : Char) : Except Fault (Option NumberReader) :=
  match r.phase, Integer.digit? c with
  | .sign, some d => .ok (some (r.pushWhole d))
  | .sign, none => .error .malformed
  | .zero, some _ => .error .malformed
  | .whole, some d => .ok (some (r.pushWhole d))
  | .zero, none | .whole, none =>
    if c == '.' then .ok (some r.startFraction)
    else if isExponentLetter c then .ok (some r.startExponent)
    else .ok none
  | .point, some d | .fraction, some d => .ok (some (r.pushFraction d))
  | .point, none => .error .malformed
  | .fraction, none => if isExponentLetter c then .ok (some r.startExponent) else .ok none
  | .exponent, some d | .exponentSign, some d | .exponentDigits, some d =>
    .ok (some (r.pushExponent d))
  | .exponent, none =>
    if c == '+' then .ok (some { r with phase := .exponentSign })
    else if c == '-' then .ok (some { r with phase := .exponentSign, exponentNegative := true })
    else .error .malformed
  | .exponentSign, none => .error .malformed
  | .exponentDigits, none => .ok none

/-- The reader before a first character that is a digit or a minus sign. -/
def blank (strict : Bool) : NumberReader :=
  { strict, negative := false, phase := .sign, whole := 0, kept := 0, full := false, scale := 0,
    exponentNegative := false, exponent := 0 }

/-- The reader after a first character that starts a number. -/
def start? (strict : Bool) (c : Char) : Option NumberReader :=
  if c == '-' then some { blank strict with negative := true }
  else (Integer.digit? c).map (blank strict).pushWhole

/-- The token of a number that is closed. -/
def close (r : NumberReader) : Except Fault Token :=
  if r.strict && r.outOfRange then .error .malformed else .ok (.number r.size?)

def finish (r : NumberReader) : Except Fault Token :=
  if r.complete then r.close
  else .error (if r.strict then .cut else .malformed)

end NumberReader

end BitEnvelope.Json
