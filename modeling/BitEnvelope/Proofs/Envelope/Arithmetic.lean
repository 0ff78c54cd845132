import BitEnvelope.Envelope.Arithmetic
import BitEnvelope.Proofs.BitOrder
import BitEnvelope.Proofs.Envelope.Regular
import Mathlib.Data.List.Find

/-!
# Counting down

What `decrement` writes and what `isZero` tests, as numbers: the number before a value modulo
`2 ^ width`, and whether the value is zero. The borrow runs from bit to bit and stops at the lowest set
one; below it, what it has written are ones.
-/

namespace BitEnvelope.Envelope

variable {e : Envelope} {x : Packed}

/-- Along the positions from `k` on, the lowest set bit is cleared and the bits below it are set, or
all are set if there is none. -/
theorem borrowAlong_range' (k n : Nat) (x : Packed) :
    borrowAlong (List.range' k n) x = match (List.range' k n).find? x.bit with
      | some q => (x.setBits (List.range' k (q - k)) fun _ => true).setBit q false
      | none => x.setBits (List.range' k n) fun _ => true := by
  induction n generalizing k x with
  | zero => rfl
  | succ n ih =>
      rw [List.range'_succ, borrowAlong, List.find?_cons]
      cases hbit : x.bit k with
      | true =>
          dsimp only
          rw [if_pos rfl, Nat.sub_self]
          rfl
      | false =>
          -- Bit `k` has been set, but what is looked for lies above it.
          have hfind : (List.range' (k + 1) n).find? (x.setBit k true).bit =
              (List.range' (k + 1) n).find? x.bit := by
            refine List.find?_congr fun i hi => ?_
            have hki : k < i := (List.mem_range'_1.mp hi).1
            exact Packed.bit_setBit_of_ne (Nat.ne_of_gt hki) true
          rw [if_neg Bool.false_ne_true, ih, hfind]
          cases hq : (List.range' (k + 1) n).find? x.bit with
          | none => rfl
          | some q =>
              have hle : k + 1 ≤ q := (List.mem_range'_1.mp (List.mem_of_find?_eq_some hq)).1
              have hsplit : q - k = q - (k + 1) + 1 := by omega
              dsimp only
              rw [hsplit, List.range'_succ]
              rfl

/-- The borrow stops at the lowest set bit, if there is one. -/
theorem decrement_eq (e : Envelope) (x : Packed) :
    e.decrement x = match (List.range e.width).find? x.bit with
      | some q => (x.setBits (List.range q) fun _ => true).setBit q false
      | none => x.setBits (List.range e.width) fun _ => true := by
  simp only [decrement, List.range_eq_range']
  exact borrowAlong_range' 0 e.width x

@[simp] theorem shape_decrement (e : Envelope) (x : Packed) :
    (e.decrement x).shape = x.shape := by
  rw [decrement_eq]
  split <;> simp

theorem decrement_toNat_of_lowest {q : Nat} (hx : x.IsValue e.width) (hq : q < e.width)
    (hset : x.bit q = true) (hlow : ∀ j, j < q → x.bit j = false) :
    ((x.setBits (List.range q) fun _ => true).setBit q false).toNat + 1 = x.toNat := by
  have hqc := Packed.lt_words_of_lt hq
  have hstored : q ≤ x.capacity := Nat.le_of_lt (hx.toSpans.lt_capacity hqc)
  have hy := hx.toSpans.of_shape (Packed.shape_setBits x (List.range q) fun _ => true)
  have hz := hy.of_shape (Packed.shape_setBit _ q false)
  have hbit := Packed.bit_setBit (x.setBits (List.range q) fun _ => true)
    (hy.lt_capacity hqc) false
  have hrange := Packed.bit_setBits_range hstored fun _ => true
  apply add_one_eq_of_testBit (q := q)
  · rw [hx.testBit_eq hqc, hset]
  · intro j hj
    rw [hx.testBit_eq (Nat.lt_trans hj hqc), hlow j hj]
  · rw [hz.testBit_toNat, hbit]
    simp
  · intro j hj
    rw [hz.testBit_toNat, hbit, hrange]
    simp [Nat.lt_trans hj hqc, Nat.ne_of_lt hj, hj]
  · intro j hj
    rw [hz.testBit_toNat, hbit, hrange, hx.toSpans.testBit_toNat]
    simp [Nat.ne_of_gt hj, Nat.not_lt.mpr (Nat.le_of_lt hj)]

theorem toNat_setBits_range (hx : x.IsValue e.width) :
    (x.setBits (List.range e.width) fun _ => true).toNat = 2 ^ e.width - 1 := by
  have hstored := Packed.width_le_capacity hx.toSpans.count_le
  have hy := hx.toSpans.of_shape (Packed.shape_setBits x (List.range e.width) fun _ => true)
  apply Nat.eq_of_testBit_eq
  intro i
  rw [hy.testBit_toNat, Packed.bit_setBits_range hstored, Nat.testBit_two_pow_sub_one]
  by_cases hi : i < e.width
  · simp [hi, Packed.lt_words_of_lt hi]
  · by_cases hc : i < 32 * Word.count e.width
    · simp [hi, hc, hx.bit_of_le (Nat.le_of_not_lt hi) hc]
    · simp [hi, hc]

/-- Counting down is subtraction of one modulo `2 ^ width`. -/
theorem toNat_decrement (hx : x.IsValue e.width) :
    (e.decrement x).toNat = (x.toNat + 2 ^ e.width - 1) % 2 ^ e.width := by
  have hlt := hx.toNat_lt
  have hpos := Nat.two_pow_pos e.width
  rw [decrement_eq]
  split
  · rename_i q hq
    rw [List.find?_range_eq_some] at hq
    obtain ⟨hset, hmem, hlow⟩ := hq
    have hsucc := decrement_toNat_of_lowest hx (List.mem_range.mp hmem) hset
      (fun j hj => by simpa using hlow j hj)
    rw [show x.toNat + 2 ^ e.width - 1 = x.toNat - 1 + 2 ^ e.width by omega,
      Nat.add_mod_right, Nat.mod_eq_of_lt (by omega)]
    omega
  · rename_i hnone
    rw [List.find?_range_eq_none] at hnone
    have hzero : x.toNat = 0 := by
      apply Nat.eq_of_testBit_eq
      intro i
      rw [Nat.zero_testBit]
      by_cases hi : i < e.width
      · rw [hx.testBit_of_lt hi]
        simpa using hnone i hi
      · exact hx.testBit_of_le (Nat.le_of_not_lt hi)
    rw [toNat_setBits_range hx, hzero, Nat.zero_add, Nat.mod_eq_of_lt (by omega)]

theorem isZero_iff (hx : x.IsValue e.width) (hw : 0 < e.width) :
    e.isZero x = true ↔ x.toNat = 0 := by
  have hcount : e.top + 1 = Word.count e.width := by
    simp only [top, wordCount, Word.count]
    omega
  simp only [isZero, Bool.and_eq_true, List.all_eq_true, List.mem_range, beq_iff_eq]
  constructor
  · rintro ⟨hlow, htop⟩
    apply Nat.eq_of_testBit_eq
    intro i
    rw [Nat.zero_testBit]
    by_cases hi : i < e.width
    · have hc := Packed.lt_words_of_lt hi
      rw [hx.testBit_eq hc, Packed.bit]
      by_cases hk : i / 32 < e.top
      · rw [hlow _ hk]
        exact BitVec.getLsbD_zero
      · have hk : i / 32 = e.top := by omega
        have hmask : (Word.topMask e.width).getLsbD (i % 32) = true := by
          rw [Word.getLsbD_topMask]
          simp only [Bool.and_eq_true, decide_eq_true_eq]
          simp only [Word.count] at hcount
          omega
        have hword := congrArg (BitVec.getLsbD · (i % 32)) htop
        rw [hk]
        simpa [mask, hmask] using hword
    · exact hx.testBit_of_le (Nat.le_of_not_lt hi)
  · intro hzero
    have hword : ∀ k, k < Word.count e.width → x.word k = 0 := by
      intro k hk
      apply BitVec.eq_of_getLsbD_eq
      intro j hj
      have hbit := hx.testBit_eq (i := 32 * k + j) (by omega)
      rw [hzero, Nat.zero_testBit, Packed.bit, show (32 * k + j) / 32 = k by omega,
        show (32 * k + j) % 32 = j by omega] at hbit
      rw [← hbit]
      exact BitVec.getLsbD_zero.symm
    exact ⟨fun k hk => hword k (by omega), by rw [hword e.top (by omega)]; exact BitVec.zero_and⟩

end BitEnvelope.Envelope
