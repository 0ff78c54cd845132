import BitEnvelope.Checked.Packed
import BitEnvelope.Envelope.Basic

/-!
# Packed values changed in place

A program holds packed values and changes them in place. An `Edit` is one such change, as a value, so
what a program has done to a packed value is its `Origin` and a list of edits. An edit outside the
storage ends the list. Widths are numbers of sixty-four bits, and so is the count of the bits that
a storage needs.

Numbers are written bit by bit, and a bit is written without a branch: its place is found by a shift
and a mask, and the word takes the exclusive or with what is to change in it.
-/

namespace BitEnvelope

/-- Bit `i` of `w` becomes `b`. Of the positions in which `w` differs from the word that has `b`
everywhere, position `i` is turned over. -/
def Word.assign (w : Word) (i : Nat) (b : Bool) : Word :=
  let target := 0#32 - (BitVec.ofBool b).setWidth 32
  w ^^^ ((target ^^^ w) &&& (1#32 <<< i))

namespace Packed

/-- Bit `i` of the storage becomes `b`. -/
def assign (x : Packed) (i : Nat) (b : Bool) : Packed :=
  x.setWord (i >>> 5) ((x.word (i >>> 5)).assign (i &&& 31) b)

/-- Every bit at one of the positions `is` becomes what `f` says for it. -/
def assignBits (x : Packed) (is : List Nat) (f : Nat → Bool) : Packed :=
  is.foldl (fun y i => y.assign i (f i)) x

/-! ## Widths -/

/-- How many bits a storage for `width` bits has at least, counted in sixty-four bits. The count of
the words and the product wrap around for the greatest widths. -/
def storageBits (width : UInt64) : UInt64 := 2 * max ((width + 31) / 32) 1 * 32

/-- Reads the storage with another width. It grows by zero words if the new width needs it. -/
def setWidth (x : Packed) (width : UInt64) : Packed where
  width := width.toNat
  words := x.words ++ List.replicate ((storageBits width).toNat / 32 - x.words.length) 0

/-- Zero in `width` bits, from a storage without words. -/
def fresh (width : UInt64) : Packed := setWidth ⟨0, []⟩ width

/-- How a packed value is made. -/
inductive Origin where
  | blank (width : UInt64)
  /-- The low bits of a number of sixty-four bits. -/
  | ofUInt64 (width : UInt64) (n : UInt64)
deriving DecidableEq

def Origin.make : Origin → Except Misuse Packed
  | .blank width => .ok (fresh width)
  | .ofUInt64 width n => do
    Misuse.outsideStorage.unless (decide (min width.toNat 64 ≤ (fresh width).capacity))
    return (fresh width).assignBits (List.range (min width.toNat 64)) n.toNat.testBit

/-! ## Edits -/

/-- A change of a packed value in place. -/
inductive Edit where
  /-- Reads the storage with another width. -/
  | setWidth (width : UInt64)
  | assign (i : Nat) (b : Bool)
  | setWord (i : Nat) (w : Word)
  /-- Takes over the first `n` words of `src`. -/
  | copyFrom (n : Nat) (src : Packed)
deriving DecidableEq, Repr

def Edit.run (x : Packed) : Edit → Except Misuse Packed
  | .setWidth width => .ok (x.setWidth width)
  | .assign i b => do
    Misuse.outsideStorage.unless (decide (i < x.capacity))
    return x.assign i b
  | .setWord i w => x.checkedSetWord i w
  | .copyFrom n src => x.checkedCopyFrom n src

/-- Carries out the edits in their order. -/
def runEdits (x : Packed) (edits : List Edit) : Except Misuse Packed :=
  edits.foldlM Edit.run x

/-- What becomes of a value that is made and then edited. -/
def history (o : Origin) (edits : List Edit) : Except Misuse Packed := do
  runEdits (← o.make) edits

end Packed

/-- The number `m` modulo `2 ^ width`, written bit by bit over the bits of `out` below the width. The
bits of the top word at or above it are cleared. -/
def Envelope.assignNat (e : Envelope) (out : Packed) (m : Nat) : Packed :=
  e.dropOverflow (out.assignBits (List.range e.width) m.testBit)

end BitEnvelope
