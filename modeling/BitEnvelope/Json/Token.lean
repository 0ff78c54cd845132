/-!
# Tokens

The tokens of a JSON text and what can be wrong with such a text. A text is read character by
character, and the first fault that is met decides.
-/

namespace BitEnvelope.Json

/-- What is wrong with a text. -/
inductive Fault where
  /-- The text ends too early. -/
  | cut
  /-- The text is not JSON, or something follows its value. -/
  | malformed
  /-- The text is JSON so far, but a value has the wrong kind, or a member is missing or given
  twice. -/
  | mismatch
deriving DecidableEq, Repr

/-- A token with its content. -/
inductive Token where
  /-- An opening brace. -/
  | openRecord
  /-- A closing brace. -/
  | closeRecord
  /-- An opening bracket. -/
  | openList
  /-- A closing bracket. -/
  | closeList
  | comma
  | colon
  | text (content : String)
  /-- A number; `size` is its value if it is an integer from zero to `2 ^ 64 - 1` written without
  sign, fraction and exponent. -/
  | number (size : Option UInt64)
  /-- A truth value, or `null`. -/
  | word (flag : Option Bool)
deriving DecidableEq, Repr

/-- The characters that may stand between tokens. -/
def isSpace (c : Char) : Bool := c == ' ' || c == '\t' || c == '\n' || c == '\r'

/-- The token that one punctuation character stands for. -/
def punctuation? : Char → Option Token
  | '{' => some .openRecord
  | '}' => some .closeRecord
  | '[' => some .openList
  | ']' => some .closeList
  | ',' => some .comma
  | ':' => some .colon
  | _ => none

/-- The letters after the first one of a word, and what the word means. -/
def word? : Char → Option (List Char × Option Bool)
  | 't' => some (['r', 'u', 'e'], some true)
  | 'f' => some (['a', 'l', 's', 'e'], some false)
  | 'n' => some (['u', 'l', 'l'], none)
  | _ => none

end BitEnvelope.Json
