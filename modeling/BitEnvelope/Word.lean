/-!
# Words

Values are stored in words of thirty-two bits. This module fixes how many words a value of a
given width takes, which bits of its top word belong to it, and how one bit of a word is written.
-/

namespace BitEnvelope

-- In a definition `2 ^ b` is the power of the core library, also where a library with powers of its
-- own is in scope. The type of a literal exponent is written out for the same reason.
attribute [local instance (high)] instPowNat

/-- The unit of storage: thirty-two bits. -/
abbrev Word := BitVec 32

namespace Word

/-- How many words hold `width` bits. -/
def count (width : Nat) : Nat := (width + 31) / 32

/-- The word whose `b` low bits are set. -/
def low (b : Nat) : Word := BitVec.ofNat 32 (2 ^ b - 1)

/-- The bits of the top word of a value of `width` bits that belong to the value. -/
def topMask (width : Nat) : Word :=
  if width % 32 = 0 then BitVec.allOnes 32 else low (width % 32)

/-- Bit `i` of `w` becomes `b`; the other bits stay. -/
def withBit (w : Word) (i : Nat) (b : Bool) : Word :=
  if b then w ||| (1#32 <<< i) else w &&& ~~~(1#32 <<< i)

/-- The position of the highest set bit, if there is one. -/
def highest? (w : Word) : Option Nat :=
  if w = 0 then none else some w.toNat.log2

theorem getLsbD_low (b i : Nat) : (low b).getLsbD i = (decide (i < 32) && decide (i < b)) := by
  simp [low, BitVec.getLsbD_ofNat, Nat.testBit_two_pow_sub_one]

/-- The word whose bit `i` alone is set. -/
theorem getLsbD_one_shiftLeft {i : Nat} (h : i < 32) (j : Nat) :
    (1#32 <<< i).getLsbD j = decide (j = i) := by
  rw [BitVec.getLsbD_shiftLeft, BitVec.getLsbD_one, Bool.eq_iff_iff]
  simp only [Bool.and_eq_true, Bool.not_eq_true', decide_eq_true_eq, decide_eq_false_iff_not]
  omega

theorem getLsbD_withBit {w : Word} {i : Nat} (h : i < 32) (b : Bool) (j : Nat) :
    (w.withBit i b).getLsbD j = if j = i then b else w.getLsbD j := by
  have one := getLsbD_one_shiftLeft h j
  cases b
  · simp only [withBit, Bool.false_eq_true, if_false, BitVec.getLsbD_and, BitVec.getLsbD_not, one]
    by_cases hj : j = i
    · simp [hj]
    · by_cases hl : j < 32
      · simp [hj, hl]
      · simp [hj, BitVec.getLsbD_of_ge w j (Nat.le_of_not_lt hl)]
  · simp only [withBit, if_true, BitVec.getLsbD_or, one]
    by_cases hj : j = i <;> simp [hj]

/-- Writing a bit that is there changes nothing. -/
theorem withBit_getLsbD (w : Word) {i : Nat} (h : i < 32) : w.withBit i (w.getLsbD i) = w := by
  refine BitVec.eq_of_getLsbD_eq fun j _ => ?_
  rw [getLsbD_withBit h]
  split
  · rename_i hji
    rw [hji]
  · rfl

/-- A bit that is written and then put back leaves the word as it was. -/
theorem withBit_withBit_getLsbD {w : Word} {i : Nat} (h : i < 32) (b : Bool) :
    (w.withBit i b).withBit i (w.getLsbD i) = w := by
  apply BitVec.eq_of_getLsbD_eq
  intro j _
  rw [getLsbD_withBit h, getLsbD_withBit h]
  by_cases hj : j = i
  · rw [if_pos hj, hj]
  · rw [if_neg hj, if_neg hj]

end Word

end BitEnvelope
