import BitEnvelope.Config.Basic

/-!
# Writing a configuration as JSON

The text has one value or bracket to a line, two spaces of indentation for each level, and the
members of a record in a fixed order. An empty list is written as two brackets. In strings, quotes,
backslashes and the characters below `U+0020` are escaped, and all others stand for themselves.
-/

namespace BitEnvelope.Config

namespace Printer

/-- The escape of a character below `U+0020`: a letter if it has one, else its code point. -/
def controlEscape (c : Char) : List Char :=
  match c with
  | '\x08' => ['\\', 'b']
  | '\t' => ['\\', 't']
  | '\n' => ['\\', 'n']
  | '\x0c' => ['\\', 'f']
  | '\r' => ['\\', 'r']
  | c => ['\\', 'u'] ++ Numeral.padded 4 16 c.toNat

def escape (c : Char) : List Char :=
  if c == '"' then ['\\', '"']
  else if c == '\\' then ['\\', '\\']
  else if c.toNat < 0x20 then controlEscape c
  else [c]

def text (s : String) : List Char := '"' :: s.toList.flatMap escape ++ ['"']

def size (n : UInt64) : List Char := Numeral.digits 10 n.toNat

def flag (b : Bool) : List Char :=
  if b then ['t', 'r', 'u', 'e'] else ['f', 'a', 'l', 's', 'e']

/-- A new line at a level of indentation. -/
def line (level : Nat) : List Char := '\n' :: List.replicate (2 * level) ' '

/-- Values between brackets, each on a line of its own at the level after `level`. -/
def block (left right : Char) (level : Nat) : List (List Char) → List Char
  | [] => [left, right]
  | first :: rest =>
    left :: (line (level + 1) ++ first ++
      rest.flatMap (fun item => ',' :: (line (level + 1) ++ item)) ++ line level ++ [right])

def list (level : Nat) (items : List (List Char)) : List Char := block '[' ']' level items

def record (level : Nat) (members : List (String × List Char)) : List Char :=
  block '{' '}' level (members.map fun m => text m.1 ++ [':', ' '] ++ m.2)

/-- A pinned position, in a list of level one. -/
def pin (p : Pin) : List Char :=
  record 2 [("index", size p.index), ("value", flag p.value)]

/-- An interval, in a list of level one. -/
def range (r : RangeText) : List Char :=
  record 2 [("lo", text r.lower), ("hi", text r.upper)]

def document (c : Config) : List Char :=
  record 0
    [("version", text c.version),
     ("bw", size c.width),
     ("signed_prefix", size c.signedPrefix),
     ("fixed", list 1 (c.pins.map pin)),
     ("ranges", list 1 (c.ranges.map range))]

end Printer

/-- The JSON text of a configuration. -/
def toJson (c : Config) : String := String.ofList (Printer.document c)

end BitEnvelope.Config
