import BitEnvelope.Packed.Basic
import BitEnvelope.Text.Numeral

/-!
# The text of a packed value

A value is shown in hexadecimal, word by word from the top: zero words at the top are left out,
the first word shown has no leading zeros, and each word below it takes eight digits. Bits of the
top word that belong to no value are not shown.
-/

namespace BitEnvelope.Packed

/-- The words that carry the value, most significant first, without the stray bits of the top
word. -/
def shownWords (x : Packed) : List Word :=
  match (x.words.take x.wordCount).reverse with
  | [] => []
  | top :: rest => (top &&& x.mask) :: rest

/-- The digits of a value given by its words, most significant first. -/
def hexDigits (ws : List Word) : List Char :=
  match ws.dropWhile (· == 0) with
  | [] => ['0']
  | w :: rest => Numeral.digits 16 w.toNat ++ rest.flatMap fun v => Numeral.padded 8 16 v.toNat

def hex (x : Packed) : String := String.ofList (hexDigits x.shownWords)

end BitEnvelope.Packed
