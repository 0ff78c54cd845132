import BitEnvelope.Checked.Envelope
import BitEnvelope.Proofs.Envelope.Headroom
import BitEnvelope.Proofs.Envelope.Scatter
import BitEnvelope.Proofs.Envelope.Sweep

/-!
# Pins that are kept

A change of a value leaves the pins alone if it writes free positions only. Sweeps, random changes
and the sign prefix do, each by a test of its own, and what leaves the pins alone can be done one
after the other. The positions at or above the width are pinned to zero, so where all pins are kept
there is no stray bit. `variant` needs nothing to start from: it writes every pin itself. `fill?`
writes pinned positions too, but only those that have the written value already.
-/

namespace BitEnvelope

theorem Packed.bit_fill {x : Packed} {lo hi i : Nat} (h : hi ≤ x.capacity) (b : Bool) :
    (x.fill lo hi b).bit i = if lo ≤ i ∧ i < hi then b else x.bit i := by
  have hmem : ∀ j, j ∈ List.range' lo (hi - lo) ↔ lo ≤ j ∧ j < hi := by
    intro j
    rw [List.mem_range'_1]
    omega
  rw [fill, bit_setBits x fun j hj => Nat.lt_of_lt_of_le ((hmem j).mp hj).2 h]
  simp only [hmem]

namespace Envelope

variable {e : Envelope} {x y z : Packed}

/-! ## Changes of free positions -/

/-- At every pinned position, `y` has the bit of `x`. -/
def LeavesPins (e : Envelope) (x y : Packed) : Prop := ∀ i, e.isFree i = false → y.bit i = x.bit i

namespace LeavesPins

theorem refl (x : Packed) : e.LeavesPins x x := fun _ _ => rfl

theorem trans (h : e.LeavesPins x y) (h' : e.LeavesPins y z) : e.LeavesPins x z :=
  fun i hpin => (h' i hpin).trans (h i hpin)

theorem moveFree (b : Bool) (is : List Nat) (x : Packed) : e.LeavesPins x (e.moveFree b is x) :=
  fun _ hpin => bit_moveFree_of_pinned hpin

theorem extendSign (x : Packed) : e.LeavesPins x (e.extendSign x) := by
  rw [extendSign_eq]
  exact moveFree _ _ x

theorem sweep (b : Bool) (goal : Packed → Bool) (is : List Nat) (x : Packed) :
    e.LeavesPins x (e.sweep b goal is x) := by
  obtain ⟨k, -, heq, -⟩ := exists_sweep_eq e b goal is x
  rw [heq]
  exact moveFree b (is.take k) x

theorem lowerUntil (goal : Packed → Bool) (x : Packed) : e.LeavesPins x (e.lowerUntil goal x) :=
  (sweep false goal _ x).trans (extendSign _)

theorem raiseUntil (goal : Packed → Bool) (x : Packed) : e.LeavesPins x (e.raiseUntil goal x) :=
  (sweep true goal _ x).trans (extendSign _)

theorem setBit {i : Nat} (hfree : e.isFree i = true) (b : Bool) (x : Packed) :
    e.LeavesPins x (x.setBit i b) := by
  intro j hpin
  refine Packed.bit_setBit_of_ne (fun hji => ?_) b
  rw [hji, hfree] at hpin
  cases hpin

theorem flipBits {is : List Nat} (hfree : ∀ i ∈ is, e.isFree i = true) (x : Packed) (d : Draws) :
    e.LeavesPins x (d.flipBits is x).1 := by
  intro j hpin
  refine Draws.bit_flipBits_of_notMem fun hmem => ?_
  rw [hfree j hmem] at hpin
  cases hpin

theorem scatterBelow (x : Packed) (d : Draws) : e.LeavesPins x (e.scatterBelow x d).1 := by
  by_cases hnone : e.freeOnes x = []
  · rw [scatterBelow_of_freeOnes_eq_nil hnone]
    exact refl x
  · obtain ⟨p, hp, d', heq⟩ := exists_scatterBelow_eq hnone d
    have hbelow : ∀ i ∈ (List.range p).filter e.isFree, e.isFree i = true :=
      fun i hi => (List.mem_filter.mp hi).2
    rw [heq]
    exact ((setBit (mem_freeOnes.mp hp).2.2 false x).trans (flipBits hbelow _ d')).trans
      (extendSign _)

end LeavesPins

/-- What is drawn is set where the position is free, and nothing is cleared. -/
theorem exists_bit_setDrawn (e : Envelope) (x : Packed) (ws : List Word) (i : Nat) :
    ∃ drawn : Bool,
      (x.mapWords e.wordCount fun i w => w ||| (ws.getD i 0 &&& ~~~e.pins.word i)).bit i =
        (x.bit i || (drawn && e.isFree i)) := by
  by_cases hstored : i / 32 < x.words.length
  · rw [Packed.bit_mapWords hstored]
    split
    · refine ⟨(ws.getD (i / 32) 0).getLsbD (i % 32), ?_⟩
      rw [BitVec.getLsbD_or, BitVec.getLsbD_and, BitVec.getLsbD_not,
        decide_eq_true (Nat.mod_lt i (by decide)), Bool.true_and]
      rfl
    · exact ⟨false, (Bool.or_false _).symm⟩
  · have hbeyond : x.capacity ≤ i := by
      unfold Packed.capacity
      omega
    refine ⟨false, ?_⟩
    rw [Packed.bit_of_capacity_le hbeyond, Packed.bit_of_capacity_le]
    · rfl
    · rwa [Packed.capacity, Packed.length_mapWords]

/-- Without a sign prefix, nothing is cleared. -/
theorem bit_scatterAbove_of_bit (hsign : e.signedPrefix = 0) {i : Nat} (h : x.bit i = true)
    (d : Draws) : (e.scatterAbove x d).1.bit i = true := by
  obtain ⟨drawn, hbit⟩ := e.exists_bit_setDrawn x (d.take e.wordCount).1 i
  change (e.extendSign _).bit i = true
  rw [extendSign_of_signedPrefix_eq_zero hsign]
  rw [hbit, h, Bool.true_or]

theorem LeavesPins.scatterAbove (x : Packed) (d : Draws) :
    e.LeavesPins x (e.scatterAbove x d).1 := by
  refine trans (fun i hpin => ?_) (extendSign _)
  obtain ⟨drawn, hbit⟩ := e.exists_bit_setDrawn x (d.take e.wordCount).1 i
  rw [hbit, hpin, Bool.and_false, Bool.or_false]

/-! ## Values that keep the pins -/

/-- The value `x` has the pinned bit at every pinned position, and no bit at or above the width is
set in the words that carry a value. -/
structure KeepsPins (e : Envelope) (x : Packed) : Prop where
  pinned : ∀ i, e.isFree i = false → x.bit i = e.current.bit i
  clear : ∀ i, e.width ≤ i → i < 32 * e.wordCount → x.bit i = false

/-- The tests on words say the same: no position beyond the words that carry a value is pinned. -/
theorem ClearHeadroom.keepsPins_iff (hclear : e.ClearHeadroom) :
    e.KeepsPins x ↔ e.agrees x = true ∧ e.hasOverflow x = false := by
  rw [agrees_iff_bit, hasOverflow_eq_false_iff_bit]
  constructor
  · rintro ⟨hpinned, hstray⟩
    exact ⟨fun i _ hpin => hpinned i hpin, hstray⟩
  · rintro ⟨hpinned, hstray⟩
    refine ⟨fun i hpin => hpinned i (Nat.lt_of_not_le fun hle => ?_) hpin, hstray⟩
    rw [hclear.isFree_of_le hle] at hpin
    cases hpin

namespace Regular

variable (he : e.Regular)
include he

/-- Every pin implies that no bit at or above the width is set: these positions are pinned. -/
theorem keepsPins_of_bit_eq (h : ∀ i, e.isFree i = false → x.bit i = e.current.bit i) :
    e.KeepsPins x := by
  refine ⟨h, fun i hi hc => ?_⟩
  rw [h i (he.overflow i hi hc), he.current.bit_of_le hi hc]

/-- What leaves the pins alone sets no bit at or above the width: no bit is free there. -/
theorem isValue_of_leavesPins (hx : x.IsValue e.width) (hy : y.Spans e.width)
    (h : e.LeavesPins x y) : y.IsValue e.width := by
  refine ⟨hy, hy.toNat_lt_of_bit fun i hi hc => ?_⟩
  rw [h i (he.overflow i hi hc), hx.bit_of_le hi hc]

theorem keepsPins_of_leavesPins (hx : e.KeepsPins x) (h : e.LeavesPins x y) : e.KeepsPins y :=
  he.keepsPins_of_bit_eq fun i hpin => (h i hpin).trans (hx.pinned i hpin)

/-- A filled range agrees with the pins if no pin forbids it. -/
theorem keepsPins_fill (hx : e.KeepsPins x) {lo hi : Nat} {b : Bool} (hhi : hi ≤ x.capacity)
    (h : ∀ i, lo ≤ i → i < hi → e.isFree i = false → e.current.bit i = b) :
    e.KeepsPins (x.fill lo hi b) := by
  refine he.keepsPins_of_bit_eq fun i hpin => ?_
  rw [Packed.bit_fill hhi]
  split
  · rename_i hrange
    exact (h i hrange.1 hrange.2 hpin).symm
  · exact hx.pinned i hpin

/-- A random completion has every pin, whatever the destination held. -/
theorem keepsPins_variant (hclear : e.ClearHeadroom) {out : Packed}
    (hout : e.wordCount ≤ out.words.length) (d : Draws) : e.KeepsPins (e.variant out d).1 := by
  refine he.keepsPins_of_bit_eq fun i hpin => ?_
  have hi : i < 32 * e.wordCount := by
    refine Nat.lt_of_not_le fun hle => ?_
    rw [hclear.isFree_of_le hle] at hpin
    cases hpin
  let drawn : Packed := out.mapWords e.wordCount
    fun i _ => (d.take e.wordCount).1.getD i 0 &&& ~~~e.pins.word i
  have hdrawn : e.wordCount ≤ drawn.words.length := by
    rwa [Packed.length_mapWords]
  have hextended : e.wordCount ≤ (e.extendSign (e.applyPins drawn)).words.length := by
    have hshape := (e.shape_extendSign (e.applyPins drawn)).trans (e.shape_applyPins drawn)
    rwa [(Prod.mk.inj hshape).2]
  have hpinned : (e.extendSign (e.applyPins drawn)).bit i = e.current.bit i := by
    rw [LeavesPins.extendSign _ i hpin, bit_applyPins_of_stored hdrawn hi, hpin]
    rfl
  change (e.dropOverflow (e.extendSign (e.applyPins drawn))).bit i = _
  rw [bit_dropOverflow_of_stored hextended hi, hpinned]
  by_cases hlt : i < e.width
  · rw [decide_eq_true hlt, Bool.true_and]
  · rw [he.current.bit_of_le (Nat.le_of_not_lt hlt) hi, Bool.and_false]

end Regular

/-! ## Filled ranges -/

theorem fill?_eq_none_iff {lo hi : Nat} {b : Bool} : e.fill? x lo hi b = none ↔
    ∃ i, (lo ≤ i ∧ i < hi) ∧ e.isFree i = false ∧ e.current.bit i ≠ b := by
  have hany : (List.range' lo (hi - lo)).any (e.forbids · b) = true ↔
      ∃ i, (lo ≤ i ∧ i < hi) ∧ e.isFree i = false ∧ e.current.bit i ≠ b := by
    rw [List.any_eq_true]
    refine exists_congr fun i => and_congr ?_ ?_
    · rw [List.mem_range'_1]
      omega
    · rw [forbids, Bool.and_eq_true, Bool.not_eq_true', bne_iff_ne]
  rw [fill?, ← hany]
  split
  · rename_i h
    exact iff_of_true rfl h
  · rename_i h
    exact iff_of_false (Option.some_ne_none _) h

theorem eq_fill_of_fill?_eq_some {lo hi : Nat} {b : Bool} (h : e.fill? x lo hi b = some y) :
    y = x.fill lo hi b := by
  rw [fill?] at h
  split at h
  · cases h
  · exact (Option.some.inj h).symm

/-- Within the storages, no position is looked up that is not there. -/
theorem checkedFill?_eq {lo hi : Nat} (b : Bool) (hpins : hi ≤ e.pins.capacity)
    (hx : hi ≤ x.capacity) : e.checkedFill? x lo hi b = .ok (e.fill? x lo hi b) := by
  rw [checkedFill?, Nat.min_eq_left hpins, decide_eq_true (.inr (Nat.le_min.mpr ⟨hpins, hx⟩)),
    fill?]
  split
  · rfl
  · rfl

end Envelope

end BitEnvelope
