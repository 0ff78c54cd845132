import BitEnvelope.Proofs.Envelope.Narrow
import BitEnvelope.Proofs.Envelope.Search

/-!
# The ends of an envelope

`least` searches upward from zero and `greatest` downward from the largest value of the width. In an
envelope that has a value both find one, so what stands for the ends of an envelope without values
is never used. The sign prefix is made equal afterwards, which changes nothing where there is no
sign prefix.
-/

namespace BitEnvelope

theorem Words.toNat_replicate_allOnes (n : Nat) :
    Words.toNat (List.replicate n (BitVec.allOnes 32)) = 2 ^ (32 * n) - 1 := by
  induction n with
  | zero => rfl
  | succ n ih =>
      have hpos := Nat.two_pow_pos (32 * n)
      rw [List.replicate_succ, Words.toNat, ih, BitVec.toNat_allOnes, Nat.mul_succ, Nat.pow_add]
      omega

namespace Envelope

variable {e : Envelope} {x out : Packed}

@[simp] theorem shape_setOnes (e : Envelope) (x : Packed) : (e.setOnes x).shape = x.shape :=
  (shape_dropOverflow e _).trans (Packed.shape_write x _)

theorem toNat_setOnes (hx : x.Spans e.width) : (e.setOnes x).toNat = 2 ^ e.width - 1 := by
  rw [setOnes, toNat_dropOverflow (hx.of_shape (Packed.shape_write x _)),
    hx.toNat_write (by simp [wordCount]), Words.toNat_replicate_allOnes]
  apply Nat.eq_of_testBit_eq
  intro i
  rw [Nat.testBit_mod_two_pow, Nat.testBit_two_pow_sub_one, Nat.testBit_two_pow_sub_one]
  by_cases hi : i < e.width
  · simp [hi, wordCount, Packed.lt_words_of_lt hi]
  · simp [hi]

theorem extendSign_of_signedPrefix_eq_zero (hsign : e.signedPrefix = 0) (x : Packed) :
    e.extendSign x = x := by
  rw [extendSign, if_pos hsign]

namespace Regular

variable (he : e.Regular) (hout : out.Spans e.width) {n : Nat} (hn : e.Allows n)
include he hout hn

/-- The search from zero upward finds the least value of the envelope. -/
theorem exists_isLeast :
    ∃ x, (e.ceilCompletion? (e.setZero out)).bind e.raise? = some x ∧
      e.least out = e.extendSign x ∧ x.shape = out.shape ∧ IsLeast {n | e.Allows n} x.toNat := by
  have hzero := hout.of_shape (shape_setZero e out)
  have hnat := toNat_setZero hout
  have hvalue : (e.setZero out).IsValue e.width := ⟨hzero, hnat ▸ Nat.two_pow_pos e.width⟩
  have hfinds := (he.finds_bind_raise hvalue).congr (t := {n | e.Allows n})
    fun m => and_iff_left (hnat ▸ Nat.zero_le m)
  obtain ⟨x, hx, hleast⟩ := hfinds.exists_eq_some hn
  obtain ⟨y, hy, hraise⟩ := Option.bind_eq_some_iff.mp hx
  refine ⟨x, hx, by rw [least, hx, Option.getD_some], ?_, hleast⟩
  exact (shape_of_raise? hraise).trans ((shape_of_ceilCompletion? hy).trans (shape_setZero e out))

/-- The search from the largest value of the width downward finds the greatest value of the
envelope. -/
theorem exists_isGreatest :
    ∃ x, (e.floorCompletion? (e.setOnes out)).bind e.lower? = some x ∧
      e.greatest out = e.extendSign x ∧ x.shape = out.shape ∧
        IsGreatest {n | e.Allows n} x.toNat := by
  have hones := hout.of_shape (shape_setOnes e out)
  have hnat := toNat_setOnes hout
  have hfinds := (he.finds_bind_lower hones).congr (t := {n | e.Allows n})
    fun m => and_iff_left_of_imp fun hm => hnat ▸ Nat.le_sub_one_of_lt hm.1
  obtain ⟨x, hx, hgreatest⟩ := hfinds.exists_eq_some hn
  obtain ⟨y, hy, hlower⟩ := Option.bind_eq_some_iff.mp hx
  refine ⟨x, hx, by rw [greatest, hx, Option.getD_some], ?_, hgreatest⟩
  exact (shape_of_lower? hlower).trans
    ((shape_of_floorCompletion? hy).trans (shape_setOnes e out))

end Regular

end Envelope

end BitEnvelope
