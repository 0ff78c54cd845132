import BitEnvelope.Json.Token

/-!
# Reading a string

A `TextReader` reads what follows the opening quote of a JSON string, one character at a time. A
character below `U+0020` has to be escaped. An escape `\u` is followed by the digits of a UTF-16
unit, for which four bytes of the text are taken; a code point above `U+FFFF` takes two such
escapes, a high and a low unit. A strict reader refuses a unit without its partner; a loose one,
which reads strings whose content is not used, does not look at units.
-/

namespace BitEnvelope.Json

/-- Where a reader stands within a string. -/
inductive TextPhase where
  | plain
  | escaped
  /-- In the bytes of a unit, the latest character first; `high` is the unit that waits for this
  one. -/
  | unit (high : Option Nat) (seen : List Char)
  /-- Before the backslash of the escape that the high unit needs. -/
  | lowBackslash (high : Nat)
  /-- Before the letter of the escape that the high unit needs. -/
  | lowLetter (high : Nat)
deriving DecidableEq, Repr

/-- A string that is being read. -/
structure TextReader where
  /-- Whether units have to be paired. -/
  strict : Bool
  /-- The content so far, the latest character first. -/
  content : List Char
  phase : TextPhase
deriving DecidableEq, Repr

/-- What a character brings about: the string goes on, or it is closed. -/
inductive TextStep where
  | more (r : TextReader)
  | closed (content : String)
deriving DecidableEq, Repr

namespace TextReader

def start (strict : Bool) : TextReader := { strict, content := [], phase := .plain }

def push (r : TextReader) (c : Char) : TextReader :=
  { r with content := c :: r.content, phase := .plain }

/-- The character that a letter after a backslash stands for. -/
def escape? : Char → Option Char
  | '"' => some '"'
  | '\\' => some '\\'
  | '/' => some '/'
  | 'b' => some '\x08'
  | 'f' => some '\x0c'
  | 'n' => some '\n'
  | 'r' => some '\r'
  | 't' => some '\t'
  | _ => none

def hexDigit? (c : Char) : Option Nat :=
  if '0' ≤ c ∧ c ≤ '9' then some (c.toNat - '0'.toNat)
  else if 'a' ≤ c ∧ c ≤ 'f' then some (c.toNat - 'a'.toNat + 10)
  else if 'A' ≤ c ∧ c ≤ 'F' then some (c.toNat - 'A'.toNat + 10)
  else none

/-- The value of hexadecimal digits, the last one first. -/
def hexValue? : List Char → Option Nat
  | [] => some 0
  | c :: cs => do return (← hexDigit? c) + 16 * (← hexValue? cs)

def byteSize : List Char → Nat
  | [] => 0
  | c :: cs => c.utf8Size + byteSize cs

/-- The unit is the second one of a pair. -/
def isLow (unit : Nat) : Bool := 0xdc00 ≤ unit && unit ≤ 0xdfff

/-- The unit is the first one of a pair. -/
def isHigh (unit : Nat) : Bool := 0xd800 ≤ unit && unit ≤ 0xdbff

/-- The code point of a pair of units. -/
def pairValue (high low : Nat) : Nat := 0x10000 + (high - 0xd800) * 0x400 + (low - 0xdc00)

/-- The reader after a unit, for which `high` was waiting or none. -/
def takeUnit (r : TextReader) (high : Option Nat) (unit : Nat) : Except Fault TextReader :=
  if !r.strict then .ok { r with phase := .plain }
  else
    match high with
    | some high =>
      if isLow unit then .ok (r.push (Char.ofNat (pairValue high unit))) else .error .malformed
    | none =>
      if isLow unit then .error .malformed
      else if isHigh unit then .ok { r with phase := .lowBackslash unit }
      else .ok (r.push (Char.ofNat unit))

/-- The reader after one more character of the bytes of a unit. -/
def feedUnit (r : TextReader) (high : Option Nat) (seen : List Char) : Except Fault TextReader :=
  if byteSize seen < 4 then .ok { r with phase := .unit high seen }
  else
    match hexValue? seen with
    | some unit => r.takeUnit high unit
    | none => .error .malformed

def feed (r : TextReader) (c : Char) : Except Fault TextStep :=
  match r.phase with
  | .plain =>
    if c == '"' then .ok (.closed (String.ofList r.content.reverse))
    else if c == '\\' then .ok (.more { r with phase := .escaped })
    else if c.toNat < 0x20 then .error .malformed
    else .ok (.more (r.push c))
  | .escaped =>
    if c == 'u' then .ok (.more { r with phase := .unit none [] })
    else
      match escape? c with
      | some e => .ok (.more (r.push e))
      | none => .error .malformed
  | .unit high seen => (r.feedUnit high (c :: seen)).map .more
  | .lowBackslash high =>
    if c == '\\' then .ok (.more { r with phase := .lowLetter high }) else .error .malformed
  | .lowLetter high =>
    if c == 'u' then .ok (.more { r with phase := .unit (some high) [] }) else .error .malformed

end TextReader

end BitEnvelope.Json
