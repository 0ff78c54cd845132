/-!
# Numerals

The digits of a number in a base, most significant first and without leading zeros, so that zero
is the one digit `0`. Bases up to sixteen are written with the digits `0` to `9` and the lower-case
letters `a` to `f`.
-/

namespace BitEnvelope.Numeral

/-- The numeral of `n` in a base of at least two; a number below the base is one digit. -/
def digits (base n : Nat) : List Char :=
  if _h : 2 ≤ base ∧ base ≤ n then
    digits base (n / base) ++ [(n % base).digitChar]
  else
    [n.digitChar]
termination_by n
decreasing_by exact Nat.div_lt_self (by omega) (by omega)

/-- The digits of `n` after as many zeros as bring them to `count` characters. -/
def padded (count base n : Nat) : List Char :=
  let ds := digits base n
  List.replicate (count - ds.length) '0' ++ ds

def decimal (n : Nat) : String := String.ofList (digits 10 n)

/-- The hexadecimal numeral of a natural number, in lower case. -/
def hexadecimal (n : Nat) : String := String.ofList (digits 16 n)

/-- The decimal numeral of an integer, with a minus sign if it is negative. -/
def integer : Int → String
  | .ofNat n => decimal n
  | .negSucc n => String.ofList ('-' :: digits 10 (n + 1))

end BitEnvelope.Numeral
