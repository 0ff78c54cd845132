import BitEnvelope.Packed.Lemmas
import Mathlib.Data.Nat.Bitwise

/-!
# Packed values as numbers

`Spans` says that a storage holds a given number of bits, `IsValue` that no bit above them is set.
For such values, the bits of the storage are the bits of the number, a write of words is read back
bit by bit, and comparisons are comparisons of numbers. The shape of a value is its width and the
length of its storage; no operation on values changes it.
-/

namespace BitEnvelope

namespace Packed

def shape (x : Packed) : Nat × Nat := (x.width, x.words.length)

/-- The storage of `x` holds `width` bits. -/
structure Spans (x : Packed) (width : Nat) : Prop where
  width_eq : x.width = width
  count_le : Word.count width ≤ x.words.length

/-- `x` is a value of `width` bits: no bit above them is set in the words that carry the value. -/
structure IsValue (x : Packed) (width : Nat) : Prop extends x.Spans width where
  toNat_lt : x.toNat < 2 ^ width

variable {x y : Packed} {w : Nat}

/-! ## Shapes -/

@[simp] theorem shape_setBit (x : Packed) (i : Nat) (b : Bool) :
    (x.setBit i b).shape = x.shape := by
  simp [shape]

@[simp] theorem shape_setWord (x : Packed) (i : Nat) (v : Word) :
    (x.setWord i v).shape = x.shape := by
  simp [shape]

@[simp] theorem shape_setBits (x : Packed) (is : List Nat) (f : Nat → Bool) :
    (x.setBits is f).shape = x.shape := by
  simp [shape]

@[simp] theorem shape_mapWords (x : Packed) (n : Nat) (f : Nat → Word → Word) :
    (x.mapWords n f).shape = x.shape := by
  simp [shape]

@[simp] theorem shape_write (x : Packed) (ws : List Word) : (x.write ws).shape = x.shape := by
  simp [shape]

@[simp] theorem shape_copyFrom (x : Packed) (n : Nat) (y : Packed) :
    (x.copyFrom n y).shape = x.shape := by
  simp [shape]

theorem Spans.of_shape (h : y.shape = x.shape) (hx : x.Spans w) : y.Spans w := by
  obtain ⟨hwidth, hlength⟩ := Prod.mk.inj h
  exact ⟨hwidth.trans hx.width_eq, by rw [hlength]; exact hx.count_le⟩

/-- Whether `Q` holds of a value is a matter of its shape. -/
def OfShape (Q : Packed → Prop) : Prop := ∀ x y : Packed, y.shape = x.shape → Q x → Q y

theorem ofShape_spans : OfShape fun x => x.Spans w := by
  intro x y hshape hx
  exact hx.of_shape hshape

theorem ofShape_true : OfShape fun _ => True := by
  intro x y hshape h
  exact trivial

/-! ## Bits of the storage and of the number -/

/-- Writing a bit changes no other one, also beyond the storage. -/
theorem bit_setBit_of_ne {x : Packed} {i j : Nat} (h : j ≠ i) (b : Bool) :
    (x.setBit i b).bit j = x.bit j := by
  by_cases hi : i < x.capacity
  · rw [bit_setBit x hi, if_neg h]
  · have hlength : x.words.length ≤ i / 32 := by
      unfold capacity at hi
      omega
    rw [bit, bit, word, word, setBit, List.modify_eq_self hlength]

theorem bit_setBits_of_notMem {x : Packed} {is : List Nat} {j : Nat} (h : j ∉ is)
    (f : Nat → Bool) : (x.setBits is f).bit j = x.bit j := by
  induction is generalizing x with
  | nil => rfl
  | cons i is ih =>
      obtain ⟨hi, his⟩ := List.ne_and_not_mem_of_not_mem_cons h
      exact (ih his).trans (bit_setBit_of_ne hi (f i))

/-- A bit in the storage is read back as it was written, wherever the other positions lie. -/
theorem bit_setBits_of_mem {x : Packed} {is : List Nat} {j : Nat} (hj : j < x.capacity)
    (h : j ∈ is) (f : Nat → Bool) : (x.setBits is f).bit j = f j := by
  induction is generalizing x with
  | nil => cases h
  | cons i is ih =>
      have hj' : j < (x.setBit i (f i)).capacity := by rwa [capacity, length_setBit]
      by_cases his : j ∈ is
      · exact ih hj' his
      · obtain rfl := (List.mem_cons.mp h).resolve_right his
        refine (bit_setBits_of_notMem his f).trans ?_
        rw [bit_setBit x hj, if_pos rfl]

theorem lt_capacity_of_bit {x : Packed} {i : Nat} (h : x.bit i = true) : i < x.capacity := by
  by_contra hge
  have hlength : x.words.length ≤ i / 32 := by
    unfold capacity at hge
    omega
  rw [bit, x.word_of_length_le hlength] at h
  exact absurd h (by simp)

theorem bit_of_capacity_le {x : Packed} {i : Nat} (h : x.capacity ≤ i) : x.bit i = false :=
  Bool.eq_false_of_not_eq_true fun hbit => Nat.not_lt.mpr h (lt_capacity_of_bit hbit)

/-- Two storages of one shape are equal if all their bits are. -/
theorem eq_of_bit_eq (hshape : x.shape = y.shape) (h : ∀ i, x.bit i = y.bit i) : x = y := by
  obtain ⟨w, ws⟩ := x
  obtain ⟨w', ws'⟩ := y
  obtain ⟨hwidth, hlength⟩ := Prod.mk.inj hshape
  refine congr (congrArg Packed.mk hwidth) (List.ext_getElem hlength fun k hk hk' => ?_)
  refine BitVec.eq_of_getLsbD_eq fun j hj => ?_
  have hdiv : (32 * k + j) / 32 = k := by omega
  have hmod : (32 * k + j) % 32 = j := by omega
  have hbit := h (32 * k + j)
  rw [bit, bit, word, word, hdiv, hmod, List.getD_eq_getElem _ _ hk, List.getD_eq_getElem _ _ hk']
    at hbit
  exact hbit

/-- Written at the same positions, two storages of one shape are equal if their other bits are. -/
theorem setBits_eq_setBits {is js : List Nat} (hshape : x.shape = y.shape)
    (hmem : ∀ i, i ∈ is ↔ i ∈ js) (h : ∀ i, i ∉ is → x.bit i = y.bit i) (f : Nat → Bool) :
    x.setBits is f = y.setBits js f := by
  have hcapacity : x.capacity = y.capacity := congrArg (32 * ·) (congrArg Prod.snd hshape)
  refine eq_of_bit_eq (by rw [shape_setBits, shape_setBits, hshape]) fun i => ?_
  by_cases hi : i ∈ is
  · by_cases hstored : i < x.capacity
    · rw [bit_setBits_of_mem hstored hi,
        bit_setBits_of_mem (hcapacity ▸ hstored) ((hmem i).mp hi)]
    · have hge := Nat.le_of_not_lt hstored
      rw [bit_of_capacity_le, bit_of_capacity_le]
      · rwa [capacity, length_setBits, ← capacity, ← hcapacity]
      · rwa [capacity, length_setBits]
  · rw [bit_setBits_of_notMem hi, bit_setBits_of_notMem fun hj => hi ((hmem i).mpr hj), h i hi]

namespace Spans

variable (hx : x.Spans w)
include hx

theorem wordCount_eq : x.wordCount = Word.count w := by
  rw [wordCount, hx.width_eq]

theorem toNat_eq : x.toNat = x.natOfFirst (Word.count w) := by
  rw [toNat, hx.wordCount_eq]

theorem lt_capacity {i : Nat} (h : i < 32 * Word.count w) : i < x.capacity :=
  Nat.lt_of_lt_of_le h (Nat.mul_le_mul_left 32 hx.count_le)

theorem testBit_toNat (i : Nat) :
    x.toNat.testBit i = (decide (i < 32 * Word.count w) && x.bit i) := by
  rw [hx.toNat_eq, testBit_natOfFirst]

/-- A number is below `2 ^ w` if no bit of its words is set at or above `w`. -/
theorem toNat_lt_of_bit (h : ∀ i, w ≤ i → i < 32 * Word.count w → x.bit i = false) :
    x.toNat < 2 ^ w := by
  apply Nat.lt_pow_two_of_testBit
  intro i hi
  rw [hx.testBit_toNat]
  by_cases hc : i < 32 * Word.count w
  · simp [h i hi hc]
  · simp [hc]

end Spans

/-- Every bit of a value lies in a word that carries it. -/
theorem lt_words_of_lt {i : Nat} (h : i < w) : i < 32 * Word.count w := by
  simp only [Word.count]
  omega

theorem width_le_capacity (h : Word.count w ≤ x.words.length) : w ≤ x.capacity := by
  simp only [Word.count] at h
  unfold capacity
  omega

/-- Writing the lowest bits of a storage leaves the others alone. -/
theorem bit_setBits_range {n : Nat} (hn : n ≤ x.capacity) (f : Nat → Bool) (i : Nat) :
    (x.setBits (List.range n) f).bit i = if i < n then f i else x.bit i := by
  have hstored : ∀ j ∈ List.range n, j < x.capacity :=
    fun j hj => Nat.lt_of_lt_of_le (List.mem_range.mp hj) hn
  rw [bit_setBits x hstored]
  simp only [List.mem_range]

namespace IsValue

variable (hx : x.IsValue w)
include hx

theorem testBit_eq {i : Nat} (h : i < 32 * Word.count w) : x.toNat.testBit i = x.bit i := by
  simp [hx.toSpans.testBit_toNat, h]

theorem testBit_of_lt {i : Nat} (h : i < w) : x.toNat.testBit i = x.bit i :=
  hx.testBit_eq (lt_words_of_lt h)

theorem testBit_of_le {i : Nat} (h : w ≤ i) : x.toNat.testBit i = false :=
  Nat.testBit_lt_two_pow (Nat.lt_of_lt_of_le hx.toNat_lt (Nat.pow_le_pow_right (by decide) h))

theorem bit_of_le {i : Nat} (h : w ≤ i) (hc : i < 32 * Word.count w) : x.bit i = false := by
  rw [← hx.testBit_eq hc, hx.testBit_of_le h]

end IsValue

theorem bit_blank (w i : Nat) : (blank w).bit i = false := by
  have hword : (blank w).word (i / 32) = 0 := by
    unfold word blank
    rw [List.getD_eq_getElem?_getD, List.getElem?_replicate]
    split <;> rfl
  rw [bit, hword]
  exact BitVec.getLsbD_zero

theorem isValue_blank (w : Nat) : (blank w).IsValue w := by
  have hspans : (blank w).Spans w := ⟨rfl, by rw [length_blank, storageFor]; omega⟩
  exact ⟨hspans, hspans.toNat_lt_of_bit fun i _ _ => bit_blank w i⟩

theorem toNat_blank (w : Nat) : (blank w).toNat = 0 := by
  apply Nat.eq_of_testBit_eq
  intro i
  rw [(isValue_blank w).toSpans.testBit_toNat, bit_blank, Bool.and_false, Nat.zero_testBit]

/-! ## Writes -/

theorem bit_mapWords {n i : Nat} (h : i / 32 < x.words.length) (f : Nat → Word → Word) :
    (x.mapWords n f).bit i =
      if i / 32 < n then (f (i / 32) (x.word (i / 32))).getLsbD (i % 32) else x.bit i := by
  rw [bit, word_mapWords x h]
  split <;> rfl

/-- The words written over the first ones of a storage, read as a number. -/
theorem natOfFirst_write {ws : List Word} {n : Nat} (hn : n ≤ ws.length)
    (hfit : ws.length ≤ x.words.length) :
    (x.write ws).natOfFirst n = Words.toNat (ws.take n) := by
  rw [natOfFirst, write, Words.overwrite_eq_append hfit, List.take_append_of_le_length hn]

namespace Spans

variable (hx : x.Spans w)
include hx

/-- Words that are written over all of those that carry the value are the number. -/
theorem toNat_write {ws : List Word} (h : ws.length = Word.count w) :
    (x.write ws).toNat = Words.toNat ws := by
  have hfit : ws.length ≤ x.words.length := h ▸ hx.count_le
  rw [(hx.of_shape (shape_write x ws)).toNat_eq, natOfFirst_write h.ge hfit,
    List.take_of_length_le h.le]

theorem toNat_copyFrom (hy : y.Spans w) : (x.copyFrom (Word.count w) y).toNat = y.toNat := by
  rw [copyFrom, hx.toNat_write, hy.toNat_eq, natOfFirst]
  rw [List.length_take, Nat.min_eq_left hy.count_le]

theorem isValue_copyFrom (hy : y.IsValue w) : (x.copyFrom (Word.count w) y).IsValue w :=
  ⟨hx.of_shape (shape_copyFrom x _ y), by rw [hx.toNat_copyFrom hy.toSpans]; exact hy.toNat_lt⟩

end Spans

/-! ## Order -/

namespace Spans

variable (hx : x.Spans w) (hy : y.Spans w)
include hx hy

theorem compare_eq : x.compare y = Ord.compare x.toNat y.toNat :=
  compare_eq_compare_toNat (hx.wordCount_eq.trans hy.wordCount_eq.symm)
    (by rw [hx.wordCount_eq]; exact hx.count_le) (by rw [hy.wordCount_eq]; exact hy.count_le)

theorem lt_iff : x.lt y = true ↔ x.toNat < y.toNat := by
  rw [lt, hx.compare_eq hy, Ordering.isLT_iff_eq_lt, Nat.compare_eq_lt]

theorem le_iff : x.le y = true ↔ x.toNat ≤ y.toNat := by
  rw [le, hx.compare_eq hy, Nat.isLE_compare]

theorem same_iff : x.same y = true ↔ x.toNat = y.toNat := by
  rw [same, hx.compare_eq hy, Ordering.isEq_iff_eq_eq, Nat.compare_eq_eq]

end Spans

end Packed

end BitEnvelope
