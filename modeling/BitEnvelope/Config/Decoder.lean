import BitEnvelope.Config.Basic
import BitEnvelope.Json.Token

/-!
# From tokens to a configuration

A `Decoder` takes the tokens of a JSON text one by one. It knows which places of the text hold
which value of a configuration, and it skips the values of members it does not know. Wherever a
record is expected it may also be written as the list of its values in a fixed order, whose last
ones may be missing if they have defaults.

The records of a configuration do not nest in themselves, so one flat `Draft` holds all values that
have been read and are not yet part of a list.
-/

namespace BitEnvelope.Config

open Json (Fault Token)

/-- A kind of record. -/
inductive Record where
  | document
  | pin
  | range
deriving DecidableEq, Repr

/-- What a value in the text is for. -/
inductive Slot where
  | record (r : Record)
  | pins
  | ranges
  | version
  | width
  | signedPrefix
  | index
  | value
  | lower
  | upper
  /-- Nothing: the value is skipped. -/
  | extra
deriving DecidableEq, Repr

/-- The values of a record in the order in which a list gives them. -/
def Record.slots : Record → List Slot
  | .document => [.version, .width, .signedPrefix, .pins, .ranges]
  | .pin => [.index, .value]
  | .range => [.lower, .upper]

def Slot.name? : Slot → Option String
  | .version => some "version"
  | .width => some "bw"
  | .signedPrefix => some "signed_prefix"
  | .pins => some "fixed"
  | .ranges => some "ranges"
  | .index => some "index"
  | .value => some "value"
  | .lower => some "lo"
  | .upper => some "hi"
  | .record _ | .extra => none

/-- What the member of a given name holds. -/
def Record.slot (r : Record) (name : String) : Slot :=
  (r.slots.find? fun s => s.name? == some name).getD .extra

/-- An enclosing value that is still open. -/
inductive Frame where
  /-- A record written with names. -/
  | members (r : Record)
  /-- A record written as a list; `left` are its values after the one that is due or was read
  last. -/
  | elements (r : Record) (left : List Slot)
  /-- A list of records of one kind. -/
  | items (r : Record)
  | skippedList
  | skippedRecord
deriving DecidableEq, Repr

/-- Which tokens may come next. -/
inductive Place where
  | value (s : Slot)
  /-- A value, or the end of a list that has none yet. -/
  | valueOrClose (s : Slot)
  | key
  /-- The name of a member, or the end of a record that has none yet. -/
  | keyOrClose
  /-- The colon after the name of a member. -/
  | colon (s : Slot)
  /-- A comma or the end of the enclosing value. -/
  | separator
  | done
deriving DecidableEq, Repr

/-- The values that have been read. -/
structure Draft where
  version : Option String
  width : Option UInt64
  signedPrefix : Option UInt64
  pins : Option (List Pin)
  ranges : Option (List RangeText)
  /-- The position of the pin that is being read. -/
  index : Option UInt64
  /-- The value of the pin that is being read. -/
  value : Option Bool
  /-- The lower bound of the interval that is being read. -/
  lower : Option String
  /-- The upper bound of the interval that is being read. -/
  upper : Option String
deriving DecidableEq, Repr

namespace Draft

def blank : Draft :=
  { version := none, width := none, signedPrefix := none, pins := none, ranges := none,
    index := none, value := none, lower := none, upper := none }

/-- The value of a slot has been read. -/
def has (d : Draft) : Slot → Bool
  | .version => d.version.isSome
  | .width => d.width.isSome
  | .signedPrefix => d.signedPrefix.isSome
  | .pins => d.pins.isSome
  | .ranges => d.ranges.isSome
  | .index => d.index.isSome
  | .value => d.value.isSome
  | .lower => d.lower.isSome
  | .upper => d.upper.isSome
  | .record _ | .extra => false

/-- Forgets the values of a record that is about to be read. -/
def clear (d : Draft) : Record → Draft
  | .document => d
  | .pin => { d with index := none, value := none }
  | .range => { d with lower := none, upper := none }

/-- Takes the value of a slot that holds neither a record nor a list. -/
def put (d : Draft) : Slot → Token → Except Fault Draft
  | .version, .text t => .ok { d with version := some t }
  | .width, .number (some n) => .ok { d with width := some n }
  | .signedPrefix, .number (some n) => .ok { d with signedPrefix := some n }
  | .index, .number (some n) => .ok { d with index := some n }
  | .value, .word (some b) => .ok { d with value := some b }
  | .lower, .text t => .ok { d with lower := some t }
  | .upper, .text t => .ok { d with upper := some t }
  | .extra, _ => .ok d
  | _, _ => .error .mismatch

/-- The draft after the opening bracket of the list that a slot holds. -/
def openList (d : Draft) : Slot → Draft
  | .pins => { d with pins := some [] }
  | .ranges => { d with ranges := some [] }
  | _ => d

/-- The draft after the end of a record: the record joins the list it belongs to. Values without
a default have to be there. -/
def complete (d : Draft) (r : Record) : Except Fault Draft :=
  match r with
  | .document => if d.width.isSome then .ok d else .error .mismatch
  | .pin =>
    match d.index, d.value with
    | some index, some value => .ok { d with pins := some (d.pins.getD [] ++ [{ index, value }]) }
    | _, _ => .error .mismatch
  | .range =>
    match d.lower, d.upper with
    | some lower, some upper =>
      .ok { d with ranges := some (d.ranges.getD [] ++ [{ lower, upper }]) }
    | _, _ => .error .mismatch

/-- The configuration that has been read; what is missing has its default. -/
def config? (d : Draft) : Option Config :=
  d.width.map fun width =>
    { version := d.version.getD Release.version
      width
      signedPrefix := d.signedPrefix.getD 0
      pins := d.pins.getD []
      ranges := d.ranges.getD [] }

end Draft

/-- What has been read, and what may come next. -/
structure Decoder where
  place : Place
  /-- The values that are open, innermost first. -/
  frames : List Frame
  draft : Draft
deriving DecidableEq, Repr

namespace Decoder

def start : Decoder := { place := .value (.record .document), frames := [], draft := .blank }

def wantsValue (d : Decoder) : Bool :=
  match d.place with
  | .value _ | .valueOrClose _ => true
  | _ => false

def wantsKey (d : Decoder) : Bool :=
  match d.place with
  | .key | .keyOrClose => true
  | _ => false

/-- What comes next is used, so it is read strictly. -/
def strict (d : Decoder) : Bool :=
  match d.place with
  | .value s | .valueOrClose s => s != .extra
  | _ => d.frames.head? != some .skippedRecord

def afterValue (d : Decoder) : Decoder :=
  { d with place := if d.frames.isEmpty then .done else .separator }

def enter (d : Decoder) (f : Frame) (p : Place) : Decoder :=
  { d with frames := f :: d.frames, place := p }

def leave (d : Decoder) : Decoder := afterValue { d with frames := d.frames.tail }

def leaveRecord (d : Decoder) (r : Record) : Except Fault Decoder := do
  let draft ← d.draft.complete r
  return leave { d with draft }

def enterElements (d : Decoder) (r : Record) : Decoder :=
  match r.slots with
  | [] => d.enter (.elements r []) .separator
  | s :: left => { d with draft := d.draft.clear r }.enter (.elements r left) (.valueOrClose s)

def enterItems (d : Decoder) (s : Slot) (r : Record) : Decoder :=
  { d with draft := d.draft.openList s }.enter (.items r) (.valueOrClose (.record r))

def takeValue (d : Decoder) (s : Slot) (t : Token) : Except Fault Decoder :=
  match t, s with
  | .openRecord, .record r =>
    .ok ({ d with draft := d.draft.clear r }.enter (.members r) .keyOrClose)
  | .openRecord, .extra => .ok (d.enter .skippedRecord .keyOrClose)
  | .openRecord, _ => .error .mismatch
  | .openList, .record r => .ok (d.enterElements r)
  | .openList, .pins => .ok (d.enterItems .pins .pin)
  | .openList, .ranges => .ok (d.enterItems .ranges .range)
  | .openList, .extra => .ok (d.enter .skippedList (.valueOrClose .extra))
  | .openList, _ => .error .mismatch
  | .text _, _ | .number _, _ | .word _, _ => do
    let draft ← d.draft.put s t
    return afterValue { d with draft }
  | .closeRecord, _ | .closeList, _ | .comma, _ | .colon, _ => .error .malformed

/-- Takes the name of a member. A member that has been read must not come again. -/
def takeKey (d : Decoder) (name : String) : Except Fault Decoder :=
  match d.frames with
  | .members r :: _ =>
    let s := r.slot name
    if d.draft.has s then .error .mismatch else .ok { d with place := .colon s }
  | _ => .ok { d with place := .colon .extra }

def takeComma (d : Decoder) : Except Fault Decoder :=
  match d.frames with
  | .members _ :: _ | .skippedRecord :: _ => .ok { d with place := .key }
  | .elements r (s :: left) :: rest =>
    .ok { d with frames := .elements r left :: rest, place := .value s }
  | .items r :: _ => .ok { d with place := .value (.record r) }
  | .skippedList :: _ => .ok { d with place := .value .extra }
  | .elements _ [] :: _ | [] => .error .malformed

def closeRecord (d : Decoder) : Except Fault Decoder :=
  match d.frames with
  | .members r :: _ => d.leaveRecord r
  | .skippedRecord :: _ => .ok d.leave
  | _ => .error .malformed

def closeList (d : Decoder) : Except Fault Decoder :=
  match d.frames with
  | .elements r _ :: _ => d.leaveRecord r
  | .items _ :: _ | .skippedList :: _ => .ok d.leave
  | _ => .error .malformed

def take (d : Decoder) (t : Token) : Except Fault Decoder :=
  match d.place, t with
  | .valueOrClose _, .closeList => d.closeList
  | .value s, t | .valueOrClose s, t => d.takeValue s t
  | .key, .text name | .keyOrClose, .text name => d.takeKey name
  | .keyOrClose, .closeRecord => d.closeRecord
  | .colon s, .colon => .ok { d with place := .value s }
  | .separator, .comma => d.takeComma
  | .separator, .closeRecord => d.closeRecord
  | .separator, .closeList => d.closeList
  | _, _ => .error .malformed

def config? (d : Decoder) : Option Config :=
  if d.place = .done then d.draft.config? else none

end Decoder

end BitEnvelope.Config
