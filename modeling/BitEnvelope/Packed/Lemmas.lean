import BitEnvelope.Packed.Basic

/-!
# Laws of packed values

What each operation does to the width, to the storage, and to the views `word`, `bit` and `toNat`.
The number in the first words has the bits of the storage below them, and comparisons of two
values with the same number of words are comparisons of their numbers.
-/

namespace BitEnvelope.Packed

attribute [local instance (high)] instPowNat

variable (x y : Packed)

/-! ## Width and storage -/

@[simp] theorem width_blank (w : Nat) : (blank w).width = w := rfl

@[simp] theorem width_setWord (i : Nat) (w : Word) : (x.setWord i w).width = x.width := rfl

@[simp] theorem width_setBit (i : Nat) (b : Bool) : (x.setBit i b).width = x.width := rfl

@[simp] theorem width_mapWords (n : Nat) (f : Nat → Word → Word) :
    (x.mapWords n f).width = x.width := rfl

@[simp] theorem width_write (ws : List Word) : (x.write ws).width = x.width := rfl

@[simp] theorem width_copyFrom (n : Nat) : (x.copyFrom n y).width = x.width := rfl

@[simp] theorem length_blank (w : Nat) : (blank w).words.length = storageFor w := by
  simp [blank]

@[simp] theorem length_setWord (i : Nat) (w : Word) :
    (x.setWord i w).words.length = x.words.length := by
  simp [setWord]

@[simp] theorem length_setBit (i : Nat) (b : Bool) :
    (x.setBit i b).words.length = x.words.length := by
  simp [setBit]

@[simp] theorem length_mapWords (n : Nat) (f : Nat → Word → Word) :
    (x.mapWords n f).words.length = x.words.length := by
  simp [mapWords]

@[simp] theorem length_write (ws : List Word) : (x.write ws).words.length = x.words.length := by
  simp [write]

@[simp] theorem length_copyFrom (n : Nat) : (x.copyFrom n y).words.length = x.words.length := by
  simp [copyFrom]

@[simp] theorem width_setBits (is : List Nat) (f : Nat → Bool) :
    (x.setBits is f).width = x.width := by
  induction is generalizing x with
  | nil => rfl
  | cons i is ih => exact (ih (x.setBit i (f i))).trans rfl

@[simp] theorem length_setBits (is : List Nat) (f : Nat → Bool) :
    (x.setBits is f).words.length = x.words.length := by
  induction is generalizing x with
  | nil => rfl
  | cons i is ih => exact (ih (x.setBit i (f i))).trans (length_setBit x i (f i))

/-! ## Words and bits -/

theorem word_setWord {i : Nat} (h : i < x.words.length) (w : Word) (j : Nat) :
    (x.setWord i w).word j = if j = i then w else x.word j := by
  by_cases hj : j = i
  · simp [word, setWord, hj, h]
  · simp [word, setWord, hj, List.getElem?_set_ne (Ne.symm hj)]

/-- Writing back the word that a place holds changes nothing. -/
@[simp] theorem setWord_word (i : Nat) : x.setWord i (x.word i) = x := by
  obtain ⟨w, ws⟩ := x
  by_cases h : i < ws.length
  · simp [word, setWord, h]
  · simp [setWord, List.set_eq_of_length_le (Nat.le_of_not_lt h)]

theorem word_mapWords {n i : Nat} (h : i < x.words.length) (f : Nat → Word → Word) :
    (x.mapWords n f).word i = if i < n then f i (x.word i) else x.word i := by
  simp [word, mapWords, h]

theorem word_of_length_le {i : Nat} (h : x.words.length ≤ i) : x.word i = 0 := by
  simp [word, h]

/-- Writing a bit changes that bit and no other. -/
theorem bit_setBit {i : Nat} (h : i < x.capacity) (b : Bool) (j : Nat) :
    (x.setBit i b).bit j = if j = i then b else x.bit j := by
  have hi : i / 32 < x.words.length := by
    simp only [capacity] at h
    omega
  have hm : i % 32 < 32 := Nat.mod_lt _ (by decide)
  by_cases hw : j / 32 = i / 32
  · have hj : j / 32 < x.words.length := hw ▸ hi
    have : (x.setBit i b).word (j / 32) = (x.word (j / 32)).withBit (i % 32) b := by
      simp [word, setBit, hw, hi]
    rw [bit, this, Word.getLsbD_withBit hm]
    by_cases hji : j = i
    · simp [hji]
    · have : j % 32 ≠ i % 32 := by omega
      rw [if_neg this, if_neg hji, bit]
  · have hji : j ≠ i := fun h => hw (h ▸ rfl)
    have : (x.setBit i b).word (j / 32) = x.word (j / 32) := by
      simp [word, setBit, Ne.symm hw]
    rw [bit, this, if_neg hji, bit]

/-- Writing several bits changes those bits and no others. -/
theorem bit_setBits {is : List Nat} (h : ∀ i ∈ is, i < x.capacity) (f : Nat → Bool) (j : Nat) :
    (x.setBits is f).bit j = if j ∈ is then f j else x.bit j := by
  induction is generalizing x with
  | nil => simp [setBits]
  | cons i is ih =>
    have hi := h i List.mem_cons_self
    have hrest : ∀ k ∈ is, k < (x.setBit i (f i)).capacity := by
      intro k hk
      simpa [capacity] using h k (List.mem_cons_of_mem _ hk)
    have := ih (x.setBit i (f i)) hrest
    simp only [setBits, List.foldl_cons] at this ⊢
    rw [this, bit_setBit x hi]
    by_cases hj : j = i
    · simp [hj]
    · simp [hj]

theorem setBits_congr {is : List Nat} {f g : Nat → Bool} (h : ∀ i ∈ is, f i = g i) :
    x.setBits is f = x.setBits is g := by
  induction is generalizing x with
  | nil => rfl
  | cons i is ih =>
    change (x.setBit i (f i)).setBits is f = (x.setBit i (g i)).setBits is g
    rw [h i List.mem_cons_self]
    exact ih (x.setBit i (g i)) fun j hj => h j (List.mem_cons_of_mem i hj)

theorem setBits_append (is js : List Nat) (f : Nat → Bool) :
    x.setBits (is ++ js) f = (x.setBits is f).setBits js f :=
  List.foldl_append

/-- Writing a bit that is there changes nothing. -/
theorem setBit_bit (i : Nat) : x.setBit i (x.bit i) = x := by
  obtain ⟨w, ws⟩ := x
  refine congrArg (Packed.mk w) (List.ext_getElem (by simp) fun j hj hj' => ?_)
  rw [List.getElem_modify]
  split
  · rename_i hij
    subst hij
    have hword : (Packed.mk w ws).word (i / 32) = ws[i / 32] := by simp [word, hj']
    have hbit : (Packed.mk w ws).bit i = ws[i / 32].getLsbD (i % 32) := by rw [bit, hword]
    exact (congrArg (ws[i / 32].withBit (i % 32)) hbit).trans
      (Word.withBit_getLsbD _ (Nat.mod_lt i (by decide)))
  · rfl

/-- Writing bits that are there changes nothing. -/
theorem setBits_eq_self {is : List Nat} {f : Nat → Bool} (h : ∀ i ∈ is, x.bit i = f i) :
    x.setBits is f = x := by
  induction is with
  | nil => rfl
  | cons i is ih =>
    change (x.setBit i (f i)).setBits is f = x
    rw [← h i List.mem_cons_self, setBit_bit]
    exact ih fun j hj => h j (List.mem_cons_of_mem i hj)

/-- Writing a bit and putting the old one back restores the whole storage. -/
theorem setBit_setBit_bit (i : Nat) (b : Bool) : (x.setBit i b).setBit i (x.bit i) = x := by
  obtain ⟨w, ws⟩ := x
  refine congrArg (Packed.mk w) (List.ext_getElem (by simp) fun j hj hj' => ?_)
  by_cases hi : i / 32 = j
  · subst hi
    have hword : (Packed.mk w ws).word (i / 32) = ws[i / 32] := by simp [word, hj']
    have hbit : (Packed.mk w ws).bit i = ws[i / 32].getLsbD (i % 32) := by rw [bit, hword]
    simp [setBit, hbit, Word.withBit_withBit_getLsbD (Nat.mod_lt i (by decide))]
  · simp [setBit, hi]

/-! ## Numbers -/

/-- The bits of the number in the first words are those of the storage. -/
theorem testBit_natOfFirst (n i : Nat) :
    (x.natOfFirst n).testBit i = (decide (i < 32 * n) && x.bit i) := by
  rw [natOfFirst, Words.testBit_toNat, bit, word]
  by_cases h : i / 32 < n
  · have hn : i < 32 * n := by omega
    simp [h, hn]
  · have hn : ¬ i < 32 * n := by omega
    rw [List.getD_eq_getElem?_getD, List.getElem?_take, if_neg h]
    simp [hn]

theorem natOfFirst_lt (n : Nat) : x.natOfFirst n < 2 ^ (32 * n) := by
  apply Nat.lt_pow_two_of_testBit
  intro i hi
  simp [testBit_natOfFirst, Nat.not_lt.2 hi]

/-- The number of a value written from a number. -/
theorem toNat_ofNat (w m : Nat) : (ofNat w m).toNat = m % 2 ^ w := by
  have hlen : Word.count w ≤ storageFor w := by
    simp only [storageFor]
    omega
  have hw : w ≤ 32 * Word.count w := by
    simp only [Word.count]
    omega
  have hwords : (ofNat w m).words.take (Word.count w)
      = Words.ofNat (Word.count w) (m % 2 ^ w) := by
    rw [ofNat, write, Words.overwrite_eq_append (by simpa using hlen)]
    simp
  show Words.toNat ((ofNat w m).words.take (Word.count w)) = m % 2 ^ w
  rw [hwords, Words.toNat_ofNat]
  apply Nat.mod_eq_of_lt
  exact Nat.lt_of_lt_of_le (Nat.mod_lt _ (Nat.two_pow_pos w)) (Nat.pow_le_pow_right (by decide) hw)

/-! ## Order -/

variable {x y}

/-- Values with the same number of words, all of them in storage, are ordered as their numbers. -/
theorem compare_eq_compare_toNat (h : x.wordCount = y.wordCount)
    (hx : x.wordCount ≤ x.words.length) (hy : y.wordCount ≤ y.words.length) :
    x.compare y = Ord.compare x.toNat y.toNat :=
  Words.compare_eq_compare_toNat (by
    rw [List.length_take, List.length_take, Nat.min_eq_left hx, Nat.min_eq_left hy, h])

theorem lt_iff_toNat_lt (h : x.wordCount = y.wordCount)
    (hx : x.wordCount ≤ x.words.length) (hy : y.wordCount ≤ y.words.length) :
    x.lt y = true ↔ x.toNat < y.toNat := by
  rw [lt, compare_eq_compare_toNat h hx hy, Ordering.isLT_iff_eq_lt, Nat.compare_eq_lt]

theorem le_iff_toNat_le (h : x.wordCount = y.wordCount)
    (hx : x.wordCount ≤ x.words.length) (hy : y.wordCount ≤ y.words.length) :
    x.le y = true ↔ x.toNat ≤ y.toNat := by
  rw [le, compare_eq_compare_toNat h hx hy, Nat.isLE_compare]

theorem same_iff_toNat_eq (h : x.wordCount = y.wordCount)
    (hx : x.wordCount ≤ x.words.length) (hy : y.wordCount ≤ y.words.length) :
    x.same y = true ↔ x.toNat = y.toNat := by
  rw [same, compare_eq_compare_toNat h hx hy, Ordering.isEq_iff_eq_eq, Nat.compare_eq_eq]

end BitEnvelope.Packed
