import BitEnvelope.Proofs.Envelope.Arithmetic
import BitEnvelope.Proofs.Valuation.Distance

/-!
# Arithmetic that goes bit by bit

Counting down clears the lowest set bit and sets the bits below it; it agrees with the subtraction of
one, which hands a borrow from word to word. A shift to the right reads the bits of the committed value
from a position on and writes nothing but the bits of the destination below the width.
-/

namespace BitEnvelope

namespace Envelope

variable {e : Envelope} {x one out : Packed} {k : Nat}

/-- Counting down writes the difference from one. -/
theorem toNat_decrement_eq_sub (hx : x.IsValue e.width) (hspans : one.Spans e.width)
    (hone : one.toNat = 1) (hout : out.Spans e.width) :
    ((e.decrement x).toNat : Int) = ((x.toNat : Int) - 1) % 2 ^ e.width ∧
      (e.decrement x).toNat = (e.sub x one out).toNat := by
  have hcast : ((x.toNat + 2 ^ e.width - 1 : Nat) : Int) = (x.toNat : Int) - 1 + 2 ^ e.width := by
    rw [Nat.cast_sub (Nat.le_add_left_of_le (Nat.two_pow_pos e.width))]
    push_cast
    ring
  have hint : ((e.decrement x).toNat : Int) = ((x.toNat : Int) - 1) % 2 ^ e.width := by
    rw [toNat_decrement hx, Int.natCast_emod, hcast, Nat.cast_pow, Nat.cast_ofNat,
      Int.add_emod_right]
  have hsub := natCast_toNat_sub hx.toSpans hspans hout
  rw [hone] at hsub
  exact ⟨hint, Int.ofNat.inj (hint.trans hsub.symm)⟩

/-! ## Shifts -/

theorem bit_shiftRight (hout : e.wordCount ≤ out.words.length) (i : Nat) :
    (e.shiftRight k out).bit i =
      if i < e.width then decide (i + k < e.width) && e.current.bit (i + k) else out.bit i := by
  rw [shiftRight, Packed.bit_setBits_range (Packed.width_le_capacity hout)]

theorem Regular.shiftRight_mod (he : e.Regular) (hout : e.wordCount ≤ out.words.length) :
    (e.shiftRight k out).natOfFirst e.wordCount % 2 ^ e.width = e.current.toNat / 2 ^ k := by
  apply Nat.eq_of_testBit_eq
  intro i
  rw [Nat.testBit_mod_two_pow, Nat.testBit_div_two_pow, Packed.testBit_natOfFirst,
    bit_shiftRight hout]
  by_cases hi : i < e.width
  · have hwords : i < 32 * e.wordCount := Packed.lt_words_of_lt hi
    by_cases hk : i + k < e.width
    · simp [hi, hwords, hk, he.current.testBit_of_lt hk]
    · simp [hi, hwords, hk, he.current.testBit_of_le (Nat.le_of_not_lt hk)]
  · simp [hi, he.current.testBit_of_le (show e.width ≤ i + k by omega)]

end Envelope

variable {width : Nat} {v : Valuation} {x one difference : Packed}

/-- In every valuation that mutations lead to, counting down writes the number before a value modulo
`2 ^ width`, as the subtraction of one does. A shift to the right by `k` writes the committed value
divided by `2 ^ k` over the bits of the destination below the width, whatever they were, and leaves the
others alone. -/
theorem Reachable.decrement_and_shiftRight (h : Reachable width v) (hx : x.IsValue width)
    (hspans : one.Spans width) (hone : one.toNat = 1) (hdifference : difference.Spans width) :
    (((v.decrement x).toNat : Int) = ((x.toNat : Int) - 1) % 2 ^ width ∧
        (v.decrement x).toNat = (v.sub x one difference).toNat) ∧
      ∀ (k : Nat) (out : Packed), v.wordCount ≤ out.words.length →
        (v.shiftRight k out).natOfFirst v.wordCount % 2 ^ width = v.current.toNat / 2 ^ k ∧
          ∀ i, width ≤ i → (v.shiftRight k out).bit i = out.bit i := by
  have hv := h.sound
  obtain rfl := hv.width_eq
  refine ⟨Envelope.toNat_decrement_eq_sub hx hspans hone hdifference, fun k out hout => ?_⟩
  refine ⟨hv.regular.shiftRight_mod hout, fun i hi => ?_⟩
  rw [Envelope.bit_shiftRight hout, if_neg (Nat.not_lt.mpr hi)]

/-- Forty bits, of which the lowest of the upper word alone is set. -/
def Valuation.middleOfForty : Valuation :=
  (Mutation.commit.run
    ((Mutation.writeBit 32 true).run (blank 40) (Draws.start [] 0)).2.1 (Draws.start [] 0)).2.1

/-- Zero counts down to the greatest number of forty bits, and the committed value shifted by one lies
in the lower word. -/
theorem Reachable.decrement_and_shiftRight_forty :
    let v := Valuation.middleOfForty
    let zero := Packed.blank 40
    let difference : Packed := ⟨40, [3, 3]⟩
    let out : Packed := ⟨8, [7, 0xffff00]⟩
    Reachable 40 v ∧ v.current.toNat = 2 ^ 32 ∧ (v.encode 1).toNat = 1 ∧
      ((v.decrement zero).toNat : Int) = 2 ^ 40 - 1 ∧
      (v.decrement zero).toNat = (v.sub zero (v.encode 1) difference).toNat ∧
      (v.shiftRight 1 out).natOfFirst 2 % 2 ^ 40 = 2 ^ 31 ∧ (v.shiftRight 1 out).bit 40 = true := by
  intro v zero difference out
  have hv : Reachable 40 v := .run (.run .blank (.writeBit 32 true) trivial _) .commit trivial _
  have hone : (v.encode 1).toNat = 1 := by decide
  have hspans : (v.encode 1).Spans 40 := ⟨rfl, by decide⟩
  have hdifference : difference.Spans 40 := ⟨rfl, by decide⟩
  have hcurrent : v.current.toNat = 2 ^ 32 := by decide
  have hcount : v.wordCount = 2 := by decide
  obtain ⟨⟨hless, hsame⟩, hshift⟩ :=
    hv.decrement_and_shiftRight (Packed.isValue_blank 40) hspans hone hdifference
  obtain ⟨hvalue, hrest⟩ := hshift 1 out (by decide)
  rw [Packed.toNat_blank] at hless
  rw [hcount, hcurrent] at hvalue
  exact ⟨hv, hcurrent, hone, hless.trans (by decide), hsame, hvalue.trans (by decide),
    (hrest 40 (Nat.le_refl 40)).trans (by decide)⟩

end BitEnvelope
