import BitEnvelope.Text.Graphic
import BitEnvelope.Text.Numeral

/-!
# Quoted texts

A quoted text stands between double quotes and shows every character of a text in one line. A
quote and a backslash follow a backslash, four control characters have a letter of their own, and
every other character that is not graphic is given by its code point in hexadecimal.
-/

namespace BitEnvelope.Text

/-- How one character is written in a quoted text. -/
def quoteChar (c : Char) : List Char :=
  match c with
  | '\x00' => ['\\', '0']
  | '\t' => ['\\', 't']
  | '\r' => ['\\', 'r']
  | '\n' => ['\\', 'n']
  | '\\' => ['\\', '\\']
  | '"' => ['\\', '"']
  | c => if isGraphic c then [c] else ['\\', 'u', '\x7b'] ++ Numeral.digits 16 c.toNat ++ ['\x7d']

/-- The text between double quotes, with what cannot be shown escaped. -/
def quoted (text : String) : String :=
  String.ofList ('"' :: text.toList.flatMap quoteChar ++ ['"'])

end BitEnvelope.Text
