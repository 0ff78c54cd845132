import BitEnvelope.Text.Numeral

/-!
# Integers in decimal

An integer is written as a sign, which may be missing, and decimal digits. Underscores may stand
anywhere after the first digit and mean nothing. A second sign is never read.
-/

namespace BitEnvelope.Integer

/-- Why a text is not an integer. -/
inductive Fault where
  /-- Nothing follows the sign. -/
  | empty
  /-- A character is no digit where one has to stand. -/
  | invalidDigit
deriving DecidableEq, Repr

def Fault.message : Fault → String
  | .empty => "cannot parse integer from empty string"
  | .invalidDigit => "invalid digit found in string"

def digit? (c : Char) : Option Nat :=
  if c.isDigit then some (c.toNat - '0'.toNat) else none

/-- The number that the digits go on to, after digits that stand for `n`. -/
def readDigits (n : Nat) : List Char → Except Fault Nat
  | [] => .ok n
  | '_' :: cs => readDigits n cs
  | c :: cs =>
    match digit? c with
    | some d => readDigits (10 * n + d) cs
    | none => .error .invalidDigit

/-- The text without the sign `sign` in front, unless a plus sign follows it. -/
def dropSign (sign : Char) : List Char → List Char
  | c :: cs => if c == sign && cs.head? != some '+' then cs else c :: cs
  | [] => []

/-- The magnitude of an integer, which may have a plus sign. -/
def readMagnitude (cs : List Char) : Except Fault Nat :=
  match dropSign '+' cs with
  | [] => .error .empty
  | '_' :: _ => .error .invalidDigit
  | ds => readDigits 0 ds

def read : List Char → Except Fault Int
  | '-' :: cs => (readMagnitude (dropSign '-' ('-' :: cs))).map fun n => -(n : Int)
  | cs => (readMagnitude cs).map Int.ofNat

end BitEnvelope.Integer
