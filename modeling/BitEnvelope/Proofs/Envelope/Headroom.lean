import BitEnvelope.Proofs.Envelope.Narrow
import BitEnvelope.Proofs.Envelope.Pinned
import BitEnvelope.Proofs.Packed.Headroom

/-!
# The headroom of an envelope

What is written to the committed value, to the pins and to the bounds is written over the words
that carry them: the search for a completion stops at the highest of these words. So a headroom that
is clear stays clear when an envelope is pinned, narrowed or tightened.
-/

namespace BitEnvelope

namespace Envelope

variable {e : Envelope} {x y : Packed}

/-! ## Completions -/

theorem headroom_applyPins : (e.applyPins x).headroom e.width = x.headroom e.width :=
  Packed.headroom_mapWords (Nat.le_refl _) _

theorem headroom_dropOverflow : (e.dropOverflow x).headroom e.width = x.headroom e.width := by
  rcases Nat.eq_zero_or_pos e.width with hzero | hpos
  · have hmask : e.mask = BitVec.allOnes 32 := by
      rw [mask, Word.topMask, hzero]
      rfl
    rw [dropOverflow, hmask, BitVec.and_allOnes, Packed.setWord_word]
  · refine Packed.headroom_setWord ?_ _
    change Word.count e.width - 1 < Word.count e.width
    unfold Word.count
    omega

theorem headroom_resetFreeBelow {b : Bool} {p : Nat} (hp : p < 32 * e.wordCount) :
    (e.resetFreeBelow b p x).headroom e.width = x.headroom e.width := by
  have hwords : p / 32 + 1 ≤ Word.count e.width := by
    unfold wordCount at hp
    omega
  cases b with
  | false => exact Packed.headroom_mapWords hwords _
  | true => exact Packed.headroom_mapWords hwords _

theorem headroom_of_nearestCompletion? {b : Bool} (h : e.nearestCompletion? b x = some y) :
    y.headroom e.width = x.headroom e.width := by
  rw [nearestCompletion?] at h
  cases hd : e.divergence? x with
  | none =>
      simp only [hd, Option.some.injEq] at h
      rw [h]
  | some p =>
      have hp := (getLsbD_of_findSome?_highest hd).1
      simp only [hd] at h
      split at h
      · cases h
        exact (headroom_resetFreeBelow hp).trans headroom_applyPins
      · obtain ⟨q, hq, rfl⟩ := Option.map_eq_some_iff.mp h
        have hqc := Packed.lt_words_of_lt (freeAbove?_eq_some hq).2.1
        rw [headroom_resetFreeBelow hqc, Packed.headroom_setBit hqc]
        exact headroom_applyPins

theorem headroom_of_ceilCompletion? (h : e.ceilCompletion? x = some y) :
    y.headroom e.width = x.headroom e.width :=
  headroom_of_nearestCompletion? (e.ceilCompletion?_eq x ▸ h)

/-! ## Narrowing -/

theorem headroom_setZero (hx : x.Spans e.width) :
    (e.setZero x).headroom e.width = x.headroom e.width :=
  Packed.headroom_write (by simp [wordCount]) hx.count_le

theorem headroom_setNat (hx : x.Spans e.width) (m : Nat) :
    (e.setNat x m).headroom e.width = x.headroom e.width :=
  Packed.headroom_write (by simp [wordCount]) hx.count_le

/-- The number of a value, written over a storage with the same headroom, is the value. -/
theorem setNat_toNat (hx : x.Spans e.width) (hy : y.IsValue e.width)
    (hhead : x.headroom e.width = y.headroom e.width) : e.setNat x y.toNat = y := by
  have hspans := hx.of_shape (shape_setNat e x y.toNat)
  refine hspans.eq_of_toNat_eq hy.toSpans ((headroom_setNat hx _).trans hhead) ?_
  rw [toNat_setNat hx, Nat.mod_eq_of_lt hy.toNat_lt]

theorem headroom_raisedLo (hlo : e.lo.Spans e.width) :
    e.raisedLo.headroom e.width = e.lo.headroom e.width := by
  rw [raisedLo]
  cases h : e.ceilCompletion? e.lo with
  | none => exact headroom_setZero hlo
  | some y => exact headroom_of_ceilCompletion? h

theorem headroom_of_relocate? (hcurrent : e.current.Spans e.width) (h : e.relocate? = some x) :
    x.headroom e.width = e.current.headroom e.width := by
  simp only [relocate?] at h
  split at h
  · cases h
    rfl
  · rcases Option.or_eq_some_iff.mp h with hlo | ⟨-, hzero⟩
    · obtain ⟨hfound, -⟩ := Option.filter_eq_some_iff.mp hlo
      exact (headroom_of_ceilCompletion? hfound).trans hcurrent.headroom_copyFrom
    · obtain ⟨hfound, -⟩ := Option.filter_eq_some_iff.mp hzero
      split at hfound
      · cases hfound
        exact headroom_applyPins.trans (headroom_setZero hcurrent)
      · cases hfound

/-- The words that an envelope stores beyond those that carry its values are clear. -/
structure ClearHeadroom (e : Envelope) : Prop where
  current : e.current.headroom e.width = (Packed.blank e.width).headroom e.width
  pins : e.pins.headroom e.width = (Packed.blank e.width).headroom e.width
  lo : e.lo.headroom e.width = (Packed.blank e.width).headroom e.width
  hi : e.hi.headroom e.width = (Packed.blank e.width).headroom e.width

namespace ClearHeadroom

variable (h : e.ClearHeadroom)
include h

theorem tighten (he : e.Regular) {e' : Envelope} (hok : e.tighten = .ok e') :
    e'.ClearHeadroom := by
  cases hrange : e.hasRange with
  | true =>
      obtain ⟨x, hx, rfl⟩ := (tighten_eq_ok_iff hrange).mp hok
      exact {
        current := (headroom_of_relocate? he.current.toSpans hx).trans h.current
        pins := h.pins
        lo := (headroom_raisedLo he.lo.toSpans).trans h.lo
        hi := h.hi }
  | false =>
      rw [tighten_of_not_hasRange hrange] at hok
      cases hok
      exact h

theorem narrowed (he : e.Regular) (l r : Int) : (e.narrowed l r).ClearHeadroom where
  current := h.current
  pins := h.pins
  lo := (headroom_setNat he.lo.toSpans _).trans h.lo
  hi := (headroom_setNat he.hi.toSpans _).trans h.hi

theorem pin {i : Nat} (hi : i < e.width) (b : Bool) : (e.pinned i b).ClearHeadroom where
  current := (Packed.headroom_setBit (Packed.lt_words_of_lt hi) b).trans h.current
  pins := (Packed.headroom_setBit (Packed.lt_words_of_lt hi) true).trans h.pins
  lo := h.lo
  hi := h.hi

/-- Beyond the words that carry a value, no position is pinned. -/
theorem isFree_of_le {i : Nat} (hi : 32 * e.wordCount ≤ i) : e.isFree i = true := by
  rw [isFree, Packed.bit_eq_of_headroom_eq h.pins hi, Packed.bit_blank]
  rfl

end ClearHeadroom

end Envelope

end BitEnvelope
