import BitEnvelope.Packed.Basic

/-!
# Envelopes

An `Envelope` says which values one variable may take: some bit positions are pinned, and the
value lies in a half-open interval of numbers below `2 ^ width`. The pinned values are the bits
that the committed value has at the pinned positions, so the committed value is part of the
envelope. The interval from `lo` to `hi` is read in three ways:

* if `lo` and `hi` are equal, every value is in range;
* if `lo` is less, the values from `lo` up to but not including `hi`;
* if `lo` is greater, the interval wraps around: the values at or above `lo` and those below `hi`.

The positions of the top word at or above the width are pinned to zero, so a value that agrees
with the pins has no bit there.
-/

namespace BitEnvelope

attribute [local instance (high)] instPowNat

/-- What restricts the value of one variable. -/
structure Envelope where
  width : Nat
  current : Packed
  /-- The pinned positions. -/
  pins : Packed
  /-- The first value of the interval. -/
  lo : Packed
  /-- The value after the last one of the interval. -/
  hi : Packed
  /-- How many top bits are to be equal to the sign bit. -/
  signedPrefix : Nat
deriving DecidableEq, Repr

namespace Envelope

/-- How many words carry a value. -/
def wordCount (e : Envelope) : Nat := Word.count e.width

/-- The bits of the top word that belong to a value. -/
def mask (e : Envelope) : Word := Word.topMask e.width

def top (e : Envelope) : Nat := e.wordCount - 1

/-- How many bytes hold a value. -/
def byteCount (e : Envelope) : Nat := (e.width + 7) / 8

/-- Zero, in the width of the envelope. -/
def scratch (e : Envelope) : Packed := Packed.blank e.width

def sign (e : Envelope) : Bool := e.current.bit (e.width - 1)

/-! ## Stray bits -/

/-- The top word of `x` has a bit at or above the width. -/
def hasOverflow (e : Envelope) (x : Packed) : Bool :=
  x.word e.top &&& ~~~e.mask != 0

/-- Clears the bits of the top word at or above the width. -/
def dropOverflow (e : Envelope) (x : Packed) : Packed :=
  x.setWord e.top (x.word e.top &&& e.mask)

/-! ## Membership -/

/-- Position `i` is not pinned. -/
def isFree (e : Envelope) (i : Nat) : Bool := !e.pins.bit i

/-- The interval restricts the value. -/
def hasRange (e : Envelope) : Bool := !e.lo.same e.hi

/-- `x` lies in the interval. -/
def inRange (e : Envelope) (x : Packed) : Bool :=
  match e.lo.compare e.hi with
  | .eq => true
  | .lt => e.lo.le x && x.lt e.hi
  | .gt => e.lo.le x || x.lt e.hi

/-- `x` has the pinned value at every pinned position. -/
def agrees (e : Envelope) (x : Packed) : Bool :=
  (List.range e.wordCount).all fun i =>
    e.pins.word i &&& (x.word i ^^^ e.current.word i) == 0

/-- `x` agrees with the pins and lies in the interval. -/
def admits (e : Envelope) (x : Packed) : Bool :=
  e.agrees x && e.inRange x

/-- The committed value has no stray bit and lies in the interval. -/
def wellFormed (e : Envelope) : Bool :=
  !e.hasOverflow e.current && e.inRange e.current

/-- The sign prefix takes the value `k`, or the whole width if that is less. -/
def limitSign (e : Envelope) (k : Nat) : Envelope :=
  { e with signedPrefix := min k e.width }

/-! ## Patterns -/

/-- All bits of `x` below the width are clear. -/
def isZero (e : Envelope) (x : Packed) : Bool :=
  (List.range e.top).all (fun i => x.word i == 0) && x.word e.top &&& e.mask == 0

/-- All bits of `x` below the width are set. -/
def isOnes (e : Envelope) (x : Packed) : Bool :=
  (List.range e.top).all (fun i => x.word i == BitVec.allOnes 32) &&
    e.mask &&& ~~~x.word e.top == 0

/-- The words of `x` that carry the value hold the number one. -/
def isOne (e : Envelope) (x : Packed) : Bool :=
  (List.range e.wordCount).all fun i => x.word i == if i = 0 then 1 else 0

/-! ## Writing values -/

/-- Zero over the words of `out` that carry the value. -/
def setZero (e : Envelope) (out : Packed) : Packed :=
  out.write (List.replicate e.wordCount 0)

/-- The largest value over the words of `out` that carry the value. -/
def setOnes (e : Envelope) (out : Packed) : Packed :=
  e.dropOverflow (out.write (List.replicate e.wordCount (BitVec.allOnes 32)))

/-- The word `w` as a value, over the words of `out` that carry the value. -/
def setSmall (e : Envelope) (out : Packed) (w : Word) : Packed :=
  out.write (w :: List.replicate e.top 0)

/-- The number `m` modulo `2 ^ width` over the words of `out` that carry the value. -/
def setNat (e : Envelope) (out : Packed) (m : Nat) : Packed :=
  out.write (Words.ofNat e.wordCount (m % 2 ^ e.width))

/-- Position `i` is pinned to the opposite of `b`. -/
def forbids (e : Envelope) (i : Nat) (b : Bool) : Bool :=
  !e.isFree i && e.current.bit i != b

/-- The bits of `x` from position `lo` up to but not including `hi` become `b`, if no pin says
otherwise. -/
def fill? (e : Envelope) (x : Packed) (lo hi : Nat) (b : Bool) : Option Packed :=
  if (List.range' lo (hi - lo)).any (e.forbids · b) then none else some (x.fill lo hi b)

/-- The number `m` modulo `2 ^ width` as a value of the envelope's width. -/
def encode (e : Envelope) (m : Nat) : Packed := e.setNat e.scratch m

end Envelope

end BitEnvelope
