import BitEnvelope.Words.Basic

/-!
# Packed values

A `Packed` value has a width in bits and a storage of words. The first `wordCount` words carry the
value; the storage beyond them is headroom, where carries and double-width products go. Bits of
the top word at or above the width belong to no value, but they can be set: who writes them has
to drop them.

The storage is read as zero beyond its end and a write beyond its end changes nothing, so every
operation is total. Two views describe an operation: `bit`, and `toNat`, which is the number in
the words that carry the value.
-/

namespace BitEnvelope

attribute [local instance (high)] instPowNat

/-- A value of `width` bits in a storage of words, least significant word first. -/
structure Packed where
  width : Nat
  /-- The storage, headroom included. -/
  words : List Word
deriving DecidableEq, Repr

namespace Packed

/-- How many words carry the value. -/
def wordCount (x : Packed) : Nat := Word.count x.width

/-- The bits of the top word that belong to the value. -/
def mask (x : Packed) : Word := Word.topMask x.width

def capacity (x : Packed) : Nat := 32 * x.words.length

/-- How many words a storage for `width` bits has at least. `storageBits` counts its bits in a number
of sixty-four bits, as far as that goes. -/
def storageFor (width : Nat) : Nat := 2 * max (Word.count width) 1

def blank (width : Nat) : Packed :=
  { width, words := List.replicate (storageFor width) 0 }

/-! ## Words and bits -/

/-- The word at place `i`, zero beyond the storage. -/
def word (x : Packed) (i : Nat) : Word := x.words.getD i 0

def setWord (x : Packed) (i : Nat) (w : Word) : Packed :=
  { x with words := x.words.set i w }

/-- Bit `i` of the storage, clear beyond it. -/
def bit (x : Packed) (i : Nat) : Bool := (x.word (i / 32)).getLsbD (i % 32)

def setBit (x : Packed) (i : Nat) (b : Bool) : Packed :=
  { x with words := x.words.modify (i / 32) (·.withBit (i % 32) b) }

/-- Every bit at one of the positions `is` becomes what `f` says for it. -/
def setBits (x : Packed) (is : List Nat) (f : Nat → Bool) : Packed :=
  is.foldl (fun y i => y.setBit i (f i)) x

/-- Every bit from position `lo` up to but not including `hi` becomes `b`. -/
def fill (x : Packed) (lo hi : Nat) (b : Bool) : Packed :=
  x.setBits (List.range' lo (hi - lo)) fun _ => b

/-- Word `i` becomes `f i w`, where `w` is the word before, for the first `n` words. -/
def mapWords (x : Packed) (n : Nat) (f : Nat → Word → Word) : Packed :=
  { x with words := x.words.mapIdx fun i w => if i < n then f i w else w }

/-- The words `ws` over the first words of the storage. -/
def write (x : Packed) (ws : List Word) : Packed :=
  { x with words := Words.overwrite x.words ws }

/-- The first `n` words of `src` over those of `dst`. -/
def copyFrom (dst : Packed) (n : Nat) (src : Packed) : Packed :=
  dst.write (src.words.take n)

/-! ## Numbers -/

/-- The number in the first `n` words. -/
def natOfFirst (x : Packed) (n : Nat) : Nat := Words.toNat (x.words.take n)

/-- The number in the words that carry the value, stray bits of the top word included. -/
def toNat (x : Packed) : Nat := x.natOfFirst x.wordCount

/-- The number `m` modulo `2 ^ width`, in `width` bits. -/
def ofNat (width m : Nat) : Packed :=
  (blank width).write (Words.ofNat (Word.count width) (m % 2 ^ width))

/-- The order of the numbers in the words that carry the values. Both values have the same number
of such words. -/
def compare (x y : Packed) : Ordering :=
  Words.compare (x.words.take x.wordCount) (y.words.take y.wordCount)

def lt (x y : Packed) : Bool := (x.compare y).isLT

def le (x y : Packed) : Bool := (x.compare y).isLE

def same (x y : Packed) : Bool := (x.compare y).isEq

/-! ## Set bits -/

/-- The lowest set bit of the value, or the width if there is none. -/
def lowestOne (x : Packed) : Nat :=
  ((List.range x.width).find? x.bit).getD x.width

/-- The highest set bit of the value, or the width if there is none. -/
def highestOne (x : Packed) : Nat :=
  ((List.range x.width).reverse.find? x.bit).getD x.width

/-- How many bits of the words that carry the value are set, stray bits of the top word
included. -/
def onesCount (x : Packed) : Nat :=
  (List.range (32 * x.wordCount)).countP x.bit

end Packed

end BitEnvelope
