import BitEnvelope.Config.Basic

/-!
# The binary form of a configuration

Values follow each other without separators. A size takes eight bytes, least significant first; a
truth value one byte, zero or one; a string its size in bytes and its UTF-8 form; a list its length
and its values. A reader takes what it needs from the front of the data and hands back the rest, so
bytes after the configuration are ignored.
-/

namespace BitEnvelope.Config

namespace Binary

/-- What is wrong with the data. -/
inductive Fault where
  | short
  /-- A string is not UTF-8. -/
  | invalidText
  /-- The byte of a truth value is neither zero nor one. -/
  | invalidFlag
deriving DecidableEq, Repr

/-! ## Writing -/

/-- The number `m` modulo `256 ^ n` in `n` bytes, least significant first. -/
def bytes : Nat → Nat → List UInt8
  | 0, _ => []
  | n + 1, m => UInt8.ofNat m :: bytes n (m / 256)

def size (n : UInt64) : List UInt8 := bytes 8 n.toNat

def flag (b : Bool) : List UInt8 := [if b then 1 else 0]

def text (s : String) : List UInt8 :=
  size (UInt64.ofNat s.utf8ByteSize) ++ s.toUTF8.data.toList

def list {α : Type} (item : α → List UInt8) (xs : List α) : List UInt8 :=
  size (UInt64.ofNat xs.length) ++ xs.flatMap item

def pin (p : Pin) : List UInt8 := size p.index ++ flag p.value

def range (r : RangeText) : List UInt8 := text r.lower ++ text r.upper

/-! ## Reading -/

/-- Takes a value from the front of the data. -/
abbrev Reader (α : Type) := List UInt8 → Except Fault (α × List UInt8)

/-- The number that bytes stand for, least significant first. -/
def ofBytes : List UInt8 → Nat
  | [] => 0
  | b :: bs => b.toNat + 256 * ofBytes bs

def readBytes (n : Nat) : Reader (List UInt8) := fun bs =>
  let front := bs.take n
  if front.length = n then .ok (front, bs.drop n) else .error .short

def readSize : Reader UInt64 := fun bs => do
  let (front, bs) ← readBytes 8 bs
  return (UInt64.ofNat (ofBytes front), bs)

def readFlag : Reader Bool
  | [] => .error .short
  | 0 :: bs => .ok (false, bs)
  | 1 :: bs => .ok (true, bs)
  | _ => .error .invalidFlag

def readText : Reader String := fun bs => do
  let (n, bs) ← readSize bs
  let (front, bs) ← readBytes n.toNat bs
  match String.fromUTF8? ⟨front.toArray⟩ with
  | some s => return (s, bs)
  | none => throw .invalidText

def readMany {α : Type} (item : Reader α) : Nat → Reader (List α)
  | 0, bs => .ok ([], bs)
  | n + 1, bs => do
    let (x, bs) ← item bs
    let (xs, bs) ← readMany item n bs
    return (x :: xs, bs)

def readList {α : Type} (item : Reader α) : Reader (List α) := fun bs => do
  let (n, bs) ← readSize bs
  readMany item n.toNat bs

def readPin : Reader Pin := fun bs => do
  let (index, bs) ← readSize bs
  let (value, bs) ← readFlag bs
  return ({ index, value }, bs)

def readRange : Reader RangeText := fun bs => do
  let (lower, bs) ← readText bs
  let (upper, bs) ← readText bs
  return ({ lower, upper }, bs)

def readConfig : Reader Config := fun bs => do
  let (version, bs) ← readText bs
  let (width, bs) ← readSize bs
  let (signedPrefix, bs) ← readSize bs
  let (pins, bs) ← readList readPin bs
  let (ranges, bs) ← readList readRange bs
  return ({ version, width, signedPrefix, pins, ranges }, bs)

end Binary

/-- The binary form of a configuration. -/
def toBinary (c : Config) : List UInt8 :=
  Binary.text c.version ++ Binary.size c.width ++ Binary.size c.signedPrefix ++
    Binary.list Binary.pin c.pins ++ Binary.list Binary.range c.ranges

/-- The configuration at the front of the data. -/
def ofBinary (bs : List UInt8) : Except Binary.Fault Config :=
  (Binary.readConfig bs).map Prod.fst

end BitEnvelope.Config
