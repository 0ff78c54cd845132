import BitEnvelope.Packed.InPlace
import BitEnvelope.Proofs.Envelope.Modular
import BitEnvelope.Proofs.Fallible
import Mathlib.Algebra.BigOperators.Group.Finset.Basic

/-!
# Bits, words and numbers of a packed value

A bit that is written in place is the bit that is read at its position, and no other one changes. What
is written bit by bit is the number that the words then hold, and the number in the first words is the
sum of their bits at their places. No edit shrinks a storage, and each leaves it large enough for its
width.
-/

namespace BitEnvelope

/-- What an operation answers after a check of its arguments is the result of the operation. -/
theorem Misuse.eq_of_unless {α : Type} {m : Misuse} {right : Bool} {a b : α}
    (h : (do m.unless right; return a) = Except.ok b) : a = b := by
  cases right with
  | false => cases h
  | true => exact Except.ok.inj h

/-! ## Bits of a word -/

theorem Word.assign_eq_withBit (w : Word) {i : Nat} (hi : i < 32) (b : Bool) :
    w.assign i b = w.withBit i b := by
  have htarget : ∀ j < 32, (0#32 - (BitVec.ofBool b).setWidth 32).getLsbD j = b := by
    intro j hj
    cases b with
    | false =>
        rw [show 0#32 - (BitVec.ofBool false).setWidth 32 = 0#32 from rfl]
        exact BitVec.getLsbD_zero
    | true =>
        rw [show 0#32 - (BitVec.ofBool true).setWidth 32 = BitVec.allOnes 32 from rfl,
          BitVec.getLsbD_allOnes]
        exact decide_eq_true hj
  refine BitVec.eq_of_getLsbD_eq fun j hj => ?_
  rw [getLsbD_withBit hi, assign, BitVec.getLsbD_xor, BitVec.getLsbD_and, BitVec.getLsbD_xor,
    htarget j hj, getLsbD_one_shiftLeft hi]
  -- At position `i` the bit of `w` is added twice; elsewhere nothing is added.
  by_cases hji : j = i
  · rw [if_pos hji, decide_eq_true hji, Bool.and_true, Bool.xor_comm b, ← Bool.xor_assoc,
      Bool.xor_self, Bool.false_xor]
  · rw [if_neg hji, decide_eq_false hji, Bool.and_false, Bool.xor_false]

namespace Packed

variable {x y : Packed} {e : Envelope}

/-! ## Bits of the storage -/

theorem assign_eq_setBit (x : Packed) (i : Nat) (b : Bool) : x.assign i b = x.setBit i b := by
  have hword : i >>> 5 = i / 32 := Nat.shiftRight_eq_div_pow i 5
  have hplace : i &&& 31 = i % 32 := Nat.and_two_pow_sub_one_eq_mod i 5
  have hlt : i % 32 < 32 := Nat.mod_lt i (by decide)
  rw [assign, hword, hplace, Word.assign_eq_withBit _ hlt, setWord, setBit, word]
  refine congrArg (Packed.mk x.width) ?_
  by_cases hi : i / 32 < x.words.length
  · rw [List.modify_eq_set_getElem?, List.getElem?_eq_getElem hi, List.getD_eq_getElem _ _ hi]
    rfl
  · have hle := Nat.le_of_not_lt hi
    rw [List.set_eq_of_length_le hle, List.modify_eq_self hle]

theorem assignBits_eq_setBits (x : Packed) (is : List Nat) (f : Nat → Bool) :
    x.assignBits is f = x.setBits is f := by
  simp only [assignBits, setBits, assign_eq_setBit]

/-! ## Numbers -/

/-- A number modulo a power of two is the sum of its bits below. -/
theorem mod_two_pow_eq_sum (n k : Nat) :
    n % 2 ^ k = ∑ i ∈ Finset.range k, (n.testBit i).toNat * 2 ^ i := by
  induction k with
  | zero => simp [Nat.mod_one]
  | succ k ih =>
      rw [Finset.sum_range_succ, ← ih, Nat.mod_pow_succ, Nat.toNat_testBit, Nat.mul_comm]

/-- The number in the first words is the sum of their bits at their places. -/
theorem natOfFirst_eq_sum_bit (x : Packed) (n : Nat) :
    x.natOfFirst n = ∑ i ∈ Finset.range (32 * n), (x.bit i).toNat * 2 ^ i := by
  rw [← Nat.mod_eq_of_lt (x.natOfFirst_lt n), mod_two_pow_eq_sum]
  refine Finset.sum_congr rfl fun i hi => ?_
  rw [testBit_natOfFirst, decide_eq_true (Finset.mem_range.mp hi), Bool.true_and]

theorem bit_setNat (hx : e.wordCount ≤ x.words.length) (m i : Nat) :
    (e.setNat x m).bit i =
      if i < 32 * e.wordCount then (m % 2 ^ e.width).testBit i else x.bit i := by
  have hlength := Words.length_ofNat e.wordCount (m % 2 ^ e.width)
  split
  · rename_i hi
    rw [← Envelope.natOfFirst_setNat hx, testBit_natOfFirst, decide_eq_true hi, Bool.true_and]
  · rename_i hi
    have hhead : (e.setNat x m).headroom e.width = x.headroom e.width :=
      headroom_write hlength.le hx
    exact bit_eq_of_headroom_eq hhead (Nat.le_of_not_lt hi)

/-- Writing a number bit by bit is writing its words. -/
theorem assignNat_eq_setNat (hx : e.wordCount ≤ x.words.length) (m : Nat) :
    e.assignNat x m = e.setNat x m := by
  have hstored : e.wordCount ≤ (x.setBits (List.range e.width) m.testBit).words.length := by
    rwa [length_setBits]
  rw [Envelope.assignNat, assignBits_eq_setBits]
  refine eq_of_bit_eq ?_ fun i => ?_
  · rw [Envelope.shape_dropOverflow, shape_setBits, Envelope.shape_setNat]
  · rw [bit_setNat hx, Nat.testBit_mod_two_pow]
    split
    · rename_i hi
      -- Of the words that carry a value, what is not written is dropped.
      rw [Envelope.bit_dropOverflow_of_stored hstored hi, bit_setBits_range (width_le_capacity hx)]
      by_cases hw : i < e.width <;> simp [hw]
    · rename_i hi
      have hw : ¬ i < e.width := fun hw => hi (lt_words_of_lt hw)
      rw [bit_eq_of_headroom_eq (w := e.width) Envelope.headroom_dropOverflow (Nat.le_of_not_lt hi),
        bit_setBits_range (width_le_capacity hx), if_neg hw]

/-! ## Widths -/

theorem length_setWidth (x : Packed) (width : UInt64) :
    (x.setWidth width).words.length =
      max x.words.length ((storageBits width).toNat / 32) := by
  rw [setWidth, List.length_append, List.length_replicate]
  omega

theorem length_fresh (width : UInt64) :
    (fresh width).words.length = (storageBits width).toNat / 32 :=
  (length_setWidth _ width).trans (Nat.zero_max _)

theorem toNat_max (a b : UInt64) : (max a b).toNat = max a.toNat b.toNat := by
  change (if a ≤ b then b else a).toNat = if a.toNat ≤ b.toNat then b.toNat else a.toNat
  exact apply_ite UInt64.toNat _ _ _

/-- The bits of the storage are counted modulo `2 ^ 64`, and so is the count of the words. -/
theorem toNat_storageBits (width : UInt64) :
    (storageBits width).toNat =
      2 * max ((width.toNat + 31) % 2 ^ 64 / 32) 1 % 2 ^ 64 * 32 % 2 ^ 64 := by
  rw [storageBits, UInt64.toNat_mul, UInt64.toNat_mul, toNat_max, UInt64.toNat_div,
    UInt64.toNat_add]
  rfl

/-- A storage is made large enough for its width if and only if its bits can be counted: from a width
of `2 ^ 63 - 31` on it has too few words. -/
theorem storageFor_le_length_fresh_iff (width : UInt64) :
    storageFor width.toNat ≤ (fresh width).words.length ↔ width.toNat + 31 < 2 ^ 63 := by
  have hlt := width.toNat_lt
  rw [length_fresh, toNat_storageBits, storageFor, Word.count]
  omega

theorem storageBits_of_lt {width : UInt64} (h : width.toNat + 31 < 2 ^ 63) :
    (storageBits width).toNat / 32 = storageFor width.toNat := by
  rw [toNat_storageBits, storageFor, Word.count]
  omega

/-- Reading a storage with another width adds words that are zero. -/
theorem word_setWidth (x : Packed) (width : UInt64) (i : Nat) :
    (x.setWidth width).word i = x.word i := by
  simp only [word, setWidth, List.getD_eq_getElem?_getD]
  rcases Nat.lt_or_ge i x.words.length with hi | hi
  · rw [List.getElem?_append_left hi]
  · rw [List.getElem?_append_right hi, List.getElem?_eq_none hi, List.getElem?_replicate]
    split
    · rfl
    · rfl

theorem bit_setWidth (x : Packed) (width : UInt64) (i : Nat) :
    (x.setWidth width).bit i = x.bit i := by
  rw [bit, word_setWidth, bit]

theorem fresh_eq_blank {width : UInt64} (h : width.toNat + 31 < 2 ^ 63) :
    fresh width = blank width.toNat := by
  rw [fresh, setWidth, blank, storageBits_of_lt h]
  rfl

/-- The low bits of a number of sixty-four bits are the number modulo `2 ^ width`. -/
theorem make_ofUInt64 {width : UInt64} (h : width.toNat + 31 < 2 ^ 63) (n : UInt64) :
    (Origin.ofUInt64 width n).make = .ok (ofNat width.toNat n.toNat) := by
  have hblank : Word.count width.toNat ≤ (blank width.toNat).words.length :=
    (isValue_blank width.toNat).toSpans.count_le
  have hwidth := width_le_capacity hblank
  have hmin : min width.toNat 64 ≤ (blank width.toNat).capacity :=
    Nat.le_trans (Nat.min_le_left _ _) hwidth
  rw [Origin.make, fresh_eq_blank h, decide_eq_true hmin, assignBits_eq_setBits]
  refine congrArg Except.ok (eq_of_bit_eq ?_ fun i => ?_)
  · rw [shape_setBits, ofNat, shape_write]
  · have hnumber : (ofNat width.toNat n.toNat).bit i =
        if i < 32 * Word.count width.toNat then (n.toNat % 2 ^ width.toNat).testBit i
        else (blank width.toNat).bit i :=
      bit_setNat (e := (Valuation.blank width.toNat).toEnvelope) hblank n.toNat i
    rw [hnumber, bit_setBits_range hmin, bit_blank, Nat.testBit_mod_two_pow]
    by_cases hw : i < width.toNat
    · have hwords : i < 32 * Word.count width.toNat := lt_words_of_lt hw
      -- The bits from sixty-four on are not written, and the number has none there.
      by_cases h64 : i < 64
      · simp [hw, h64, hwords]
      · have hclear : n.toNat.testBit i = false :=
          Nat.testBit_lt_two_pow (Nat.lt_of_lt_of_le n.toNat_lt
            (Nat.pow_le_pow_right (by decide) (Nat.le_of_not_lt h64)))
        simp [hclear]
    · simp [hw]

/-! ## Edits -/

/-- The storage is large enough for the width, if its bits can be counted. -/
def Stored (x : Packed) : Prop :=
  x.width + 31 < 2 ^ 63 → storageFor x.width ≤ x.words.length

theorem Stored.of_shape (hx : x.Stored) (h : y.shape = x.shape) : y.Stored := by
  obtain ⟨hwidth, hlength⟩ := Prod.mk.inj h
  rw [Stored, hwidth, hlength]
  exact hx

theorem stored_setWidth (x : Packed) (width : UInt64) : (x.setWidth width).Stored := by
  intro h
  rw [length_setWidth, storageBits_of_lt h]
  exact Nat.le_max_right _ _

theorem stored_make {o : Origin} (h : o.make = .ok x) : x.Stored := by
  cases o with
  | blank width =>
      rw [← Except.ok.inj h]
      exact stored_setWidth _ width
  | ofUInt64 width n =>
      rw [← Misuse.eq_of_unless h, assignBits_eq_setBits]
      exact (stored_setWidth _ width).of_shape (shape_setBits _ _ _)

/-- An edit reads the storage with another width or changes neither width nor length. -/
theorem setWidth_or_shape_eq {edit : Edit} (h : edit.run x = .ok y) :
    (∃ width, x.setWidth width = y) ∨ y.shape = x.shape := by
  cases edit with
  | setWidth width => exact .inl ⟨width, Except.ok.inj h⟩
  | assign i b =>
      rw [← Misuse.eq_of_unless h, assign_eq_setBit]
      exact .inr (shape_setBit x i b)
  | setWord i w =>
      rw [← Misuse.eq_of_unless h]
      exact .inr (shape_setWord x i w)
  | copyFrom n src =>
      rw [← Misuse.eq_of_unless h]
      exact .inr (shape_copyFrom x n src)

/-- An edit leaves a storage large enough and does not shrink it. -/
theorem Stored.edit {edit : Edit} (hx : x.Stored) (h : edit.run x = .ok y) :
    y.Stored ∧ x.words.length ≤ y.words.length := by
  rcases setWidth_or_shape_eq h with ⟨width, rfl⟩ | hshape
  · exact ⟨stored_setWidth x width, by rw [length_setWidth]; exact Nat.le_max_left _ _⟩
  · exact ⟨hx.of_shape hshape, (congrArg Prod.snd hshape).ge⟩

/-- What every edit keeps is kept by a list of them. -/
theorem Stored.runEdits {edits : List Edit} (hx : x.Stored) (h : runEdits x edits = .ok y) :
    y.Stored ∧ x.words.length ≤ y.words.length := by
  refine foldlM_ok_induction (P := fun z => z.Stored ∧ x.words.length ≤ z.words.length)
    (fun z edit z' hz hstep => ?_) ⟨hx, Nat.le_refl _⟩ h
  obtain ⟨hstored, hle⟩ := hz.1.edit hstep
  exact ⟨hstored, Nat.le_trans hz.2 hle⟩

theorem stored_history {o : Origin} {edits : List Edit} (h : history o edits = .ok x) :
    x.Stored := by
  obtain ⟨y, hy, hrun⟩ := bind_eq_ok.mp h
  exact ((stored_make hy).runEdits hrun).1

/-! ## The views of a value -/

theorem run_assign {i : Nat} (hi : i < x.capacity) (b : Bool) :
    (Edit.assign i b).run x = .ok (x.setBit i b) := by
  rw [Edit.run, decide_eq_true hi, assign_eq_setBit]
  rfl

theorem checkedNatOfFirst_eq {n : Nat} (hn : n ≤ x.words.length) :
    x.checkedNatOfFirst n = .ok (x.natOfFirst n) := by
  rw [checkedNatOfFirst, decide_eq_true hn]
  rfl

/-- After any edits of a value, its storage is large enough, if the bits that its width needs can be
counted in sixty-four bits, and no later edit shrinks it. The number in the first words is the sum of
their bits at their places. A bit that is written in place is read back and no other one changes.
Another width changes no stored bit, and the words it adds are zero. What is written bit by bit over a
storage is the number modulo `2 ^ width`, whatever the storage held. -/
theorem views_agree {o : Origin} {edits : List Edit} (h : history o edits = .ok x) :
    ((x.width + 31 < 2 ^ 63 → storageFor x.width ≤ x.words.length) ∧
        ∀ later y, runEdits x later = .ok y → x.words.length ≤ y.words.length) ∧
      (∀ n ≤ x.words.length, x.checkedNatOfFirst n =
        .ok (∑ i ∈ Finset.range (32 * n), (x.bit i).toNat * 2 ^ i)) ∧
      (∀ i < x.capacity, ∀ b, (Edit.assign i b).run x = .ok (x.setBit i b) ∧
        (x.setBit i b).bit i = b ∧ ∀ j, j ≠ i → (x.setBit i b).bit j = x.bit j) ∧
      (∀ width : UInt64, (Edit.setWidth width).run x = .ok (x.setWidth width) ∧
        (x.setWidth width).width = width.toNat ∧
        (∀ i, (x.setWidth width).bit i = x.bit i) ∧
        ∀ w ∈ (x.setWidth width).words.drop x.words.length, w = 0) ∧
      ∀ (e : Envelope) (dst : Packed) (m : Nat), e.wordCount ≤ dst.words.length →
        e.assignNat dst m = e.setNat dst m ∧
          (e.assignNat dst m).natOfFirst e.wordCount = m % 2 ^ e.width := by
  have hstored := stored_history h
  refine ⟨⟨hstored, fun later y hy => (hstored.runEdits hy).2⟩, fun n hn => ?_, fun i hi b => ?_,
    fun width => ⟨rfl, rfl, bit_setWidth x width, fun w hw => ?_⟩, fun e dst m hdst => ?_⟩
  · rw [checkedNatOfFirst_eq hn, natOfFirst_eq_sum_bit]
  · refine ⟨run_assign hi b, ?_, fun j hj => bit_setBit_of_ne hj b⟩
    rw [bit_setBit x hi, if_pos rfl]
  · rw [setWidth, List.drop_left] at hw
    exact List.eq_of_mem_replicate hw
  · have hwritten := assignNat_eq_setNat hdst m
    exact ⟨hwritten, by rw [hwritten, Envelope.natOfFirst_setNat hdst]⟩

/-- Eight bits that were forty-eight in between. The storage stays as long as it was made then. -/
theorem views_agree_shortened :
    let edits : List Edit := [.setWidth 48, .assign 40 true, .setWord 3 9, .copyFrom 1 ⟨8, [7]⟩,
      .setWidth 8]
    let x : Packed := ⟨8, [7, 256, 0, 9]⟩
    history (.ofUInt64 8 0x1a5) edits = .ok x ∧
      storageFor x.width ≤ x.words.length ∧
      x.checkedNatOfFirst 2 = .ok (∑ i ∈ Finset.range 64, (x.bit i).toNat * 2 ^ i) ∧
      (Edit.assign 97 true).run x = .ok (x.setBit 97 true) ∧ (x.setBit 97 true).bit 96 = true ∧
      ∀ w ∈ (x.setWidth 70).words.drop 4, w = 0 := by
  intro edits x
  have hrun : history (.ofUInt64 8 0x1a5) edits = .ok x := by decide
  obtain ⟨⟨hstored, -⟩, hsum, hassign, hwidth, -⟩ := views_agree hrun
  obtain ⟨hset, -, hothers⟩ := hassign 97 (by decide) true
  obtain ⟨-, -, -, hzero⟩ := hwidth 70
  exact ⟨hrun, hstored (by decide), hsum 2 (by decide), hset,
    (hothers 96 (by decide)).trans (by decide), hzero⟩

end Packed

end BitEnvelope
