import BitEnvelope.Envelope.Scatter
import BitEnvelope.Envelope.Sweep
import BitEnvelope.Proofs.Envelope.Narrow

/-!
# Changes of the free bits

Whatever the draws are and whatever a sweep runs toward, a change of the free bits keeps the shape
of a value, so the result can be compared with the bounds again. A completion of the pins stays one
if no pinned bit is written, or only with the pinned value. Sweeps and the sign prefix have in common
that they move free bits to one value; this is `moveFree`. The scan of the sign prefix may write a bit
twice, but in the end all of its free bits have one value, which the pins and the sign decide.
-/

namespace BitEnvelope

theorem Draws.shape_flipBits (is : List Nat) (x : Packed) (d : Draws) :
    (d.flipBits is x).1.shape = x.shape := by
  induction is generalizing x d with
  | nil => rfl
  | cons i is ih => exact (ih _ _).trans (Packed.shape_setBit x i _)

namespace Envelope

variable (e : Envelope) (x : Packed) (d : Draws)

/-! ## Moved bits -/

/-- The free bits of `x` at the positions `is`, moved to `b`. -/
def moveFree (b : Bool) (is : List Nat) (x : Packed) : Packed :=
  x.setBits (is.filter e.isFree) fun _ => b

@[simp] theorem shape_moveFree (b : Bool) (is : List Nat) : (e.moveFree b is x).shape = x.shape :=
  Packed.shape_setBits x _ _

theorem moveFree_append (b : Bool) (is js : List Nat) :
    e.moveFree b (is ++ js) x = e.moveFree b js (e.moveFree b is x) := by
  rw [moveFree, List.filter_append, Packed.setBits_append]
  rfl

section Moved

variable {e x} {b : Bool} {is : List Nat} {i : Nat}

theorem bit_moveFree_of_pinned (h : e.isFree i = false) : (e.moveFree b is x).bit i = x.bit i := by
  refine Packed.bit_setBits_of_notMem (fun hmem => ?_) _
  rw [(List.mem_filter.mp hmem).2] at h
  cases h

/-- The bits at the free positions of the list move, and all others stay. -/
theorem bit_moveFree (hx : x.Spans e.width) (his : ∀ i ∈ is, i < e.width) :
    (e.moveFree b is x).bit i = if i ∈ is ∧ e.isFree i = true then b else x.bit i := by
  have hcapacity : ∀ j ∈ is.filter e.isFree, j < x.capacity := by
    intro j hj
    exact hx.lt_capacity (Packed.lt_words_of_lt (his j (List.mem_filter.mp hj).1))
  rw [moveFree, Packed.bit_setBits x hcapacity]
  simp only [List.mem_filter]

theorem testBit_moveFree (hx : x.Spans e.width) (his : ∀ i ∈ is, i < e.width) (hi : i < e.width) :
    (e.moveFree b is x).toNat.testBit i =
      if i ∈ is ∧ e.isFree i = true then b else x.toNat.testBit i := by
  have hmoved := hx.of_shape (shape_moveFree e x b is)
  have hwords := Packed.lt_words_of_lt hi
  rw [hmoved.testBit_toNat, hx.testBit_toNat, decide_eq_true hwords, Bool.true_and, Bool.true_and,
    bit_moveFree hx his]

end Moved

/-! ## The sign prefix -/

/-- A pinned position in `is` has another value than `sign`. -/
def pinnedAgainst (e : Envelope) (sign : Bool) (is : List Nat) (x : Packed) : Bool :=
  is.any fun i => x.bit i != sign && !e.isFree i

/-- The value that the free positions of the sign prefix of `x` take. -/
def prefixValue (e : Envelope) (x : Packed) : Bool :=
  let sign := x.bit (e.width - 1)
  if e.pinnedAgainst sign e.prefixPositions x then !sign else sign

section Prefix

variable {e x} {sign : Bool} {i : Nat} {is : List Nat}

/-- What a free position holds does not matter before it is written. -/
theorem moveFree_setBit (hi : i ∈ is) (hfree : e.isFree i = true) (b c : Bool) :
    e.moveFree b is (x.setBit i c) = e.moveFree b is x := by
  refine Packed.setBits_eq_setBits (Packed.shape_setBit x i c) (fun _ => Iff.rfl) (fun j hj => ?_) _
  refine Packed.bit_setBit_of_ne (fun hji => hj ?_) c
  rw [hji]
  exact List.mem_filter.mpr ⟨hi, hfree⟩

theorem moveFree_reverse (b : Bool) : e.moveFree b is.reverse x = e.moveFree b is x := by
  refine Packed.setBits_eq_setBits rfl (fun i => ?_) (fun _ _ => rfl) _
  rw [List.mem_filter, List.mem_filter, List.mem_reverse]

theorem pinnedAgainst_cons : e.pinnedAgainst sign (i :: is) x =
    ((x.bit i != sign && !e.isFree i) || e.pinnedAgainst sign is x) := rfl

theorem pinnedAgainst_setBit (hfree : e.isFree i = true) (b : Bool) :
    e.pinnedAgainst sign is (x.setBit i b) = e.pinnedAgainst sign is x := by
  refine List.any_congr rfl fun j => ?_
  by_cases hji : j = i
  · rw [hji, hfree, Bool.not_true, Bool.and_false, Bool.and_false]
  · rw [Packed.bit_setBit_of_ne hji]

/-- The scan moves the free bits that it meets to the sign, and those of the whole prefix to the
opposite value once it meets a bit that is pinned to that. -/
theorem unifyPrefix_eq (his : ∀ i ∈ is, i ∈ e.prefixPositions) :
    e.unifyPrefix sign is x =
      if e.pinnedAgainst sign is x then e.moveFree (!sign) e.prefixPositions x
      else e.moveFree sign is x := by
  induction is generalizing x with
  | nil => rfl
  | cons i is ih =>
      have hrest : ∀ j ∈ is, j ∈ e.prefixPositions := fun j hj => his j (List.mem_cons_of_mem i hj)
      rw [unifyPrefix, pinnedAgainst_cons]
      by_cases hbit : x.bit i = sign
      · have hsame : e.moveFree sign (i :: is) x = e.moveFree sign is x := by
          rw [← List.singleton_append, moveFree_append]
          refine congrArg (e.moveFree sign is) (x.setBits_eq_self fun j hj => ?_)
          rwa [List.mem_singleton.mp (List.mem_filter.mp hj).1]
        rw [if_pos hbit, ih hrest, hsame, bne_eq_false_iff_eq.mpr hbit, Bool.false_and,
          Bool.false_or]
      · rw [if_neg hbit, bne_iff_ne.mpr hbit, Bool.true_and]
        cases hfree : e.isFree i with
        | true =>
            have hwritten : e.moveFree sign (i :: is) x = e.moveFree sign is (x.setBit i sign) := by
              rw [moveFree, List.filter_cons_of_pos hfree]
              rfl
            rw [if_pos rfl, ih hrest, pinnedAgainst_setBit hfree, Bool.not_true, Bool.false_or,
              moveFree_setBit (his i List.mem_cons_self) hfree, hwritten]
        | false =>
            rw [if_neg Bool.false_ne_true, Bool.not_false, Bool.true_or, if_pos rfl]
            exact moveFree_reverse _

/-- The scan comes to the same as moving the free bits of the prefix to one value. -/
theorem extendSign_eq : e.extendSign x = e.moveFree (e.prefixValue x) e.prefixPositions x := by
  have hmem : ∀ i ∈ e.prefixPositions.reverse, i ∈ e.prefixPositions :=
    fun i hi => List.mem_reverse.mp hi
  have hagainst : ∀ sign, e.pinnedAgainst sign e.prefixPositions.reverse x =
      e.pinnedAgainst sign e.prefixPositions x := fun sign => List.any_reverse
  rw [extendSign, prefixValue]
  split
  · rename_i hzero
    rw [prefixPositions, hzero]
    rfl
  · rw [unifyPrefix_eq hmem, hagainst, moveFree_reverse]
    split
    · rfl
    · rfl

end Prefix

@[simp] theorem shape_extendSign : (e.extendSign x).shape = x.shape := by
  rw [extendSign_eq]
  exact e.shape_moveFree x _ _

/-! ## Random changes -/

theorem shape_scatterAbove : (e.scatterAbove x d).1.shape = x.shape :=
  (e.shape_extendSign _).trans (Packed.shape_mapWords x _ _)

theorem shape_redrawBelow (chosen : Option Nat) :
    (e.redrawBelow x chosen d).1.shape = x.shape := by
  cases chosen with
  | none => rfl
  | some p =>
      exact (e.shape_extendSign _).trans
        ((Draws.shape_flipBits _ _ _).trans (Packed.shape_setBit x p false))

theorem shape_scatterBelow : (e.scatterBelow x d).1.shape = x.shape := e.shape_redrawBelow x _ _

/-! ## Sweeps -/

variable (goal : Packed → Bool)

theorem shape_sweep (b : Bool) (is : List Nat) : (e.sweep b goal is x).shape = x.shape := by
  induction is generalizing x with
  | nil => rfl
  | cons i is ih =>
      rw [sweep]
      split
      · rfl
      · rw [ih]
        split
        · exact Packed.shape_setBit x i b
        · rfl

theorem shape_sweepDown : (e.sweepDown goal x).shape = x.shape := e.shape_sweep x goal false _

theorem shape_sweepUp : (e.sweepUp goal x).shape = x.shape := e.shape_sweep x goal true _

theorem shape_lowerUntil : (e.lowerUntil goal x).shape = x.shape :=
  (e.shape_extendSign _).trans (e.shape_sweepDown x goal)

theorem shape_raiseUntil : (e.raiseUntil goal x).shape = x.shape :=
  (e.shape_extendSign _).trans (e.shape_sweepUp x goal)

theorem shape_sweepIntoRange (downFirst : Bool) : (e.sweepIntoRange downFirst x).shape = x.shape := by
  rw [sweepIntoRange]
  split
  · exact (e.shape_sweepUp _ _).trans (e.shape_sweepDown x _)
  · split
    · exact (e.shape_sweepUp _ _).trans (e.shape_sweepDown x _)
    · exact (e.shape_sweepDown _ _).trans (e.shape_sweepUp x _)

theorem shape_settle : (e.settle x).shape = x.shape :=
  (e.shape_extendSign _).trans (e.shape_applyPins x)

variable {e x} in
theorem shape_of_repair? {downFirst : Bool} {y : Packed} (h : e.repair? downFirst x = some y) :
    y.shape = x.shape := by
  simp only [repair?] at h
  split at h
  · cases h
    exact e.shape_settle x
  · split at h
    · cases h
      exact (e.shape_extendSign _).trans
        ((e.shape_sweepIntoRange _ downFirst).trans (e.shape_settle x))
    · cases h

/-! ## Pins -/

variable {e x} {y : Packed}

namespace Regular

variable (he : e.Regular)
include he

/-- A completion whose free bits change is a completion again. -/
theorem completes_of_bit_eq (hx : x.Spans e.width) (hy : y.Spans e.width)
    (hc : e.Completes x.toNat)
    (h : ∀ i, i < 32 * e.wordCount → e.isFree i = false → y.bit i = x.bit i) :
    e.Completes y.toNat := by
  rw [← he.agrees_iff hx, agrees_iff_bit] at hc
  rw [← he.agrees_iff hy, agrees_iff_bit]
  intro i hi hpin
  rw [h i hi hpin, hc i hi hpin]

theorem completes_moveFree (hx : x.Spans e.width) (hc : e.Completes x.toNat) (b : Bool)
    (is : List Nat) : e.Completes (e.moveFree b is x).toNat :=
  he.completes_of_bit_eq hx (hx.of_shape (shape_moveFree e x b is)) hc
    fun _ _ hpin => bit_moveFree_of_pinned hpin

theorem completes_extendSign (hx : x.Spans e.width) (hc : e.Completes x.toNat) :
    e.Completes (e.extendSign x).toNat := by
  rw [extendSign_eq]
  exact he.completes_moveFree hx hc _ _

/-- What a repair finds is a value of the envelope. -/
theorem allows_of_repair? (hx : x.Spans e.width) {downFirst : Bool}
    (h : e.repair? downFirst x = some y) : e.Allows y.toNat := by
  have hy := hx.of_shape (shape_of_repair? h)
  simp only [repair?] at h
  split at h
  · rename_i hin
    cases h
    have hpinned := hx.of_shape (shape_applyPins e x)
    have hc := he.completes_extendSign hpinned (he.completes_applyPins hx)
    exact allows_iff.mpr ⟨hc, (he.inRange_iff hy).mp hin⟩
  · split at h
    · rename_i hadmits
      cases h
      exact (he.admits_iff hy).mp hadmits
    · cases h

/-- A bit that no pin forbids can be written to a completion. -/
theorem completes_setBit (hx : x.Spans e.width) (hc : e.Completes x.toNat) {i : Nat} {b : Bool}
    (h : e.forbids i b = false) : e.Completes (x.setBit i b).toNat := by
  have hy := hx.of_shape (Packed.shape_setBit x i b)
  rw [← he.agrees_iff hx, agrees_iff_bit] at hc
  rw [← he.agrees_iff hy, agrees_iff_bit]
  intro j hj hpin
  by_cases hji : j = i
  · subst hji
    rw [forbids, hpin, Bool.not_false, Bool.true_and, bne_eq_false_iff_eq] at h
    rw [Packed.bit_setBit x (hx.lt_capacity hj), if_pos rfl, h]
  · rw [Packed.bit_setBit_of_ne hji, hc j hj hpin]

end Regular

end Envelope

end BitEnvelope
