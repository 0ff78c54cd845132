import BitEnvelope.Proofs.Envelope.Regular

/-!
# Pinning a position

To pin a position writes it to the pins and its value to the committed value, which may then lie
outside the interval. A pin that contradicts no earlier one selects: of the values of the envelope,
those stay that have the pinned bit.
-/

namespace BitEnvelope.Envelope

/-- The envelope with position `i` pinned to `b`, before it is tightened. -/
def pinned (e : Envelope) (i : Nat) (b : Bool) : Envelope :=
  { e with pins := e.pins.setBit i true, current := e.current.setBit i b }

namespace Regular

variable {e : Envelope} (he : e.Regular) {i : Nat} (hi : i < e.width) (b : Bool)
include he hi

/-- The position is pinned, and no other one is. -/
theorem isFree_pinned (j : Nat) : (e.pinned i b).isFree j = (e.isFree j && j != i) := by
  have hcap := he.pins.lt_capacity (Packed.lt_words_of_lt hi)
  change (!(e.pins.setBit i true).bit j) = (!e.pins.bit j && j != i)
  rw [Packed.bit_setBit e.pins hcap]
  by_cases hji : j = i
  · simp [hji]
  · simp [hji]

theorem bit_current_pinned (j : Nat) :
    (e.pinned i b).current.bit j = if j = i then b else e.current.bit j :=
  Packed.bit_setBit e.current (he.current.toSpans.lt_capacity (Packed.lt_words_of_lt hi)) b j

/-- Pinning a position below the width keeps an envelope regular, whatever the interval. -/
theorem pin : (e.pinned i b).Regular := by
  have hspans := he.current.toSpans.of_shape (Packed.shape_setBit e.current i b)
  refine ⟨⟨hspans, hspans.toNat_lt_of_bit fun j hj hjc => ?_⟩,
    he.pins.of_shape (Packed.shape_setBit e.pins i true), he.lo, he.hi, fun j hj hjc => ?_⟩
  · have hne : j ≠ i := Nat.ne_of_gt (Nat.lt_of_lt_of_le hi hj)
    exact (he.bit_current_pinned hi b j).trans ((if_neg hne).trans (he.current.bit_of_le hj hjc))
  · rw [he.isFree_pinned hi, he.overflow j hj hjc, Bool.false_and]

/-- A pin that is written to a completion too holds in it. -/
theorem completes_pin {x : Packed} (hx : x.Spans e.width) (hc : e.Completes x.toNat) :
    (e.pinned i b).Completes (x.setBit i b).toNat := by
  have hy := hx.of_shape (Packed.shape_setBit x i b)
  rw [← he.agrees_iff hx, agrees_iff_bit] at hc
  rw [← (he.pin hi b).agrees_iff hy, agrees_iff_bit]
  intro j hj hpin
  rw [he.bit_current_pinned hi, Packed.bit_setBit x (hx.lt_capacity (Packed.lt_words_of_lt hi))]
  by_cases hji : j = i
  · rw [if_pos hji, if_pos hji]
  · rw [he.isFree_pinned hi, bne_iff_ne.mpr hji, Bool.and_true] at hpin
    rw [if_neg hji, if_neg hji, hc j hj hpin]

/-- The completions of the pins that have the new bit are those of the pins and the new one. -/
theorem completes_pinned_iff {b : Bool} (hpins : e.forbids i b = false) (n : Nat) :
    (e.pinned i b).Completes n ↔ e.Completes n ∧ n.testBit i = b := by
  constructor
  · rintro ⟨hlt, hpinned⟩
    refine ⟨⟨hlt, fun j hj hpin => ?_⟩, ?_⟩
    · have hset : (e.pinned i b).isFree j = false := by
        rw [he.isFree_pinned hi, hpin, Bool.false_and]
      rw [hpinned j hj hset, he.bit_current_pinned hi]
      split
      · rename_i hji
        rw [forbids, ← hji, hpin, Bool.not_false, Bool.true_and, bne_eq_false_iff_eq] at hpins
        exact hpins.symm
      · rfl
    · have hset : (e.pinned i b).isFree i = false := by
        rw [he.isFree_pinned hi, bne_self_eq_false, Bool.and_false]
      rw [hpinned i hi hset, he.bit_current_pinned hi, if_pos rfl]
  · rintro ⟨⟨hlt, hpinned⟩, hbit⟩
    refine ⟨hlt, fun j hj hpin => ?_⟩
    rw [he.bit_current_pinned hi]
    split
    · rename_i hji
      rw [hji, hbit]
    · rename_i hji
      rw [he.isFree_pinned hi, bne_iff_ne.mpr hji, Bool.and_true] at hpin
      exact hpinned j hj hpin

/-- A pin that contradicts no earlier one selects the values that have the pinned bit. -/
theorem allows_pinned_iff {b : Bool} (hpins : e.forbids i b = false) (n : Nat) :
    (e.pinned i b).Allows n ↔ e.Allows n ∧ n.testBit i = b := by
  rw [allows_iff, allows_iff, he.completes_pinned_iff hi hpins, and_right_comm]
  rfl

end Regular

end BitEnvelope.Envelope
