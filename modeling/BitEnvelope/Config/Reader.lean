import BitEnvelope.Config.Decoder
import BitEnvelope.Json.NumberReader
import BitEnvelope.Json.TextReader

/-!
# Reading a configuration from JSON

A `Reader` runs over the characters of a JSON text once. It puts characters together to tokens and
hands these to a decoder. A token that cannot stand where it starts is refused at its first
character; one that has the wrong kind for its place is refused after its last one.
-/

namespace BitEnvelope.Config

open Json (Fault Token TextReader NumberReader)

/-- The token that is being read. -/
inductive Lexeme where
  | none
  | text (r : TextReader)
  | number (r : NumberReader)
  /-- A word, of which the letters `left` are due. -/
  | word (left : List Char) (flag : Option Bool)
deriving DecidableEq, Repr

/-- What has been read of a text. -/
structure Reader where
  lexeme : Lexeme
  /-- What the tokens before it have given. -/
  decoder : Decoder
deriving DecidableEq, Repr

namespace Reader

def start : Reader := { lexeme := .none, decoder := .start }

/-- Hands a complete token to the decoder. -/
def emit (r : Reader) (t : Token) : Except Fault Reader :=
  (r.decoder.take t).map fun decoder => { lexeme := .none, decoder }

/-- Reads the first character of a token, or one between tokens. -/
def feedFirst (r : Reader) (c : Char) : Except Fault Reader :=
  if Json.isSpace c then .ok r
  else
    match Json.punctuation? c with
    | some t => r.emit t
    | none =>
      if c == '"' then
        if r.decoder.wantsValue || r.decoder.wantsKey then
          .ok { r with lexeme := .text (.start r.decoder.strict) }
        else .error .malformed
      else if r.decoder.wantsValue then
        match NumberReader.start? r.decoder.strict c, Json.word? c with
        | some n, _ => .ok { r with lexeme := .number n }
        | none, some (left, flag) => .ok { r with lexeme := .word left flag }
        | none, none => .error .malformed
      else .error .malformed

def feed (r : Reader) (c : Char) : Except Fault Reader :=
  match r.lexeme with
  | .none => r.feedFirst c
  | .text t => do
    match ← t.feed c with
    | .more t => return { r with lexeme := .text t }
    | .closed content => r.emit (.text content)
  | .number n => do
    match ← n.feed c with
    | some n => return { r with lexeme := .number n }
    | none => (← r.emit (← n.close)).feedFirst c
  | .word [] flag => do (← r.emit (.word flag)).feedFirst c
  | .word (d :: left) flag =>
    if c != d then .error .malformed
    else if left.isEmpty then r.emit (.word flag)
    else .ok { r with lexeme := .word left flag }

def feedAll (r : Reader) (cs : List Char) : Except Fault Reader := cs.foldlM feed r

/-- The configuration after the last character. -/
def finish (r : Reader) : Except Fault Config := do
  let r ←
    match r.lexeme with
    | .number n => r.emit (← n.finish)
    | _ => pure r
  match r.lexeme, r.decoder.config? with
  | .none, some c => return c
  | _, _ => throw .cut

end Reader

/-- The configuration that a JSON text describes. -/
def ofJson (text : String) : Except Fault Config := do
  (← Reader.start.feedAll text.toList).finish

end BitEnvelope.Config
