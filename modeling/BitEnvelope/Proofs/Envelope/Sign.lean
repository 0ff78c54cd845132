import BitEnvelope.Proofs.Envelope.Perturbation

/-!
# The sign prefix of a value

Making the sign prefix equal scans its bits from the top and starts again where a pinned one differs
from the sign. In the end it has moved the free bits of the prefix to one value and written no other
bit. That value is the one that the pinned bits of the prefix show, or the sign if none of them is
pinned. Only where pinned bits show both values does the prefix stay unequal.

Of a value of the envelope it makes a completion of the pins again. The interval is not looked at:
the result is sure to lie in it only where every value does or where there was nothing to write.
-/

namespace BitEnvelope.Envelope

/-- The bits of `n` in the sign prefix are equal. -/
def UniformSign (e : Envelope) (n : Nat) : Prop :=
  ∀ i, e.width - e.signedPrefix ≤ i → i < e.width → n.testBit i = n.testBit (e.width - 1)

instance (e : Envelope) (n : Nat) : Decidable (e.UniformSign n) :=
  decidable_of_iff
    (∀ i < e.width, e.width - e.signedPrefix ≤ i → n.testBit i = n.testBit (e.width - 1))
    ⟨fun h i hle hi => h i hi hle, fun h i hi hle => h i hle hi⟩

variable {e : Envelope} {x : Packed} {i n : Nat}

/-- A prefix of one bit is the sign itself. -/
theorem uniformSign_of_le_one (h : e.signedPrefix ≤ 1) : e.UniformSign n := by
  intro i hle hi
  have hsign : i = e.width - 1 := by omega
  rw [hsign]

section Extend

variable (hk : e.signedPrefix ≤ e.width)
include hk

theorem mem_prefixPositions :
    i ∈ e.prefixPositions ↔ e.width - e.signedPrefix ≤ i ∧ i < e.width := by
  rw [prefixPositions, List.mem_range'_1]
  omega

section Bits

variable (hx : x.Spans e.width)
include hx

/-- The free positions of the prefix take one value, and all other positions keep theirs. -/
theorem bit_extendSign : (e.extendSign x).bit i =
    if (e.width - e.signedPrefix ≤ i ∧ i < e.width) ∧ e.isFree i = true then e.prefixValue x
    else x.bit i := by
  rw [extendSign_eq, bit_moveFree hx fun j hj => ((mem_prefixPositions hk).mp hj).2]
  simp only [mem_prefixPositions hk]

/-- Where all pinned positions of the prefix have the value that the free ones take, the whole
prefix has it. -/
theorem bit_extendSign_of_prefix (hle : e.width - e.signedPrefix ≤ i) (hi : i < e.width)
    (hpinned : e.isFree i = false → x.bit i = e.prefixValue x) :
    (e.extendSign x).bit i = e.prefixValue x := by
  rw [bit_extendSign hk hx]
  split
  · rfl
  · rename_i hout
    exact hpinned (Bool.eq_false_of_not_eq_true fun hfree => hout ⟨⟨hle, hi⟩, hfree⟩)

end Bits

/-- A prefix whose bits are equal is left as it is. -/
theorem extendSign_of_bit_eq
    (h : ∀ i, e.width - e.signedPrefix ≤ i → i < e.width → x.bit i = x.bit (e.width - 1)) :
    e.extendSign x = x := by
  have hbit : ∀ i ∈ e.prefixPositions, x.bit i = x.bit (e.width - 1) := by
    intro i hi
    obtain ⟨hle, hlt⟩ := (mem_prefixPositions hk).mp hi
    exact h i hle hlt
  have hvalue : e.prefixValue x = x.bit (e.width - 1) := by
    refine if_neg fun hany => ?_
    obtain ⟨i, hi, hne⟩ := List.any_eq_true.mp hany
    rw [hbit i hi, bne_self_eq_false, Bool.false_and] at hne
    cases hne
  rw [extendSign_eq]
  refine x.setBits_eq_self fun i hi => ?_
  rw [hvalue, hbit i (List.mem_filter.mp hi).1]

variable (hx : x.IsValue e.width)
include hx

theorem testBit_extendSign (hi : i < e.width) :
    (e.extendSign x).toNat.testBit i =
      if e.width - e.signedPrefix ≤ i ∧ e.isFree i = true then e.prefixValue x
      else x.toNat.testBit i := by
  rw [extendSign_eq,
    testBit_moveFree hx.toSpans (fun j hj => ((mem_prefixPositions hk).mp hj).2) hi]
  simp only [mem_prefixPositions hk, hi, and_true]

theorem extendSign_of_uniformSign (h : e.UniformSign x.toNat) : e.extendSign x = x := by
  refine extendSign_of_bit_eq hk fun i hle hlt => ?_
  rw [← hx.testBit_of_lt hlt, h i hle hlt, hx.testBit_of_lt (by omega)]

end Extend

/-! ## The value of the prefix -/

/-- Position `i` belongs to the sign prefix and is pinned. -/
def PinnedInPrefix (e : Envelope) (i : Nat) : Prop :=
  (e.width - e.signedPrefix ≤ i ∧ i < e.width) ∧ e.isFree i = false

section Value

variable (hk : e.signedPrefix ≤ e.width)
include hk

/-- The sign is overruled if a pinned position of the prefix disagrees with it. -/
theorem prefixValue_eq_not_sign_iff : e.prefixValue x = (!x.bit (e.width - 1)) ↔
    ∃ i, e.PinnedInPrefix i ∧ x.bit i ≠ x.bit (e.width - 1) := by
  have hany : e.pinnedAgainst (x.bit (e.width - 1)) e.prefixPositions x = true ↔
      ∃ i, e.PinnedInPrefix i ∧ x.bit i ≠ x.bit (e.width - 1) := by
    rw [pinnedAgainst, List.any_eq_true]
    simp only [mem_prefixPositions hk, Bool.and_eq_true, bne_iff_ne, Bool.not_eq_true',
      PinnedInPrefix, and_assoc]
    exact exists_congr fun i => and_congr_right fun _ => and_congr_right fun _ => and_comm
  rw [← hany, prefixValue]
  split
  · rename_i h
    exact iff_of_true rfl h
  · rename_i h
    exact iff_of_false (by simp) h

/-- A value that all pinned positions of the prefix have is taken if there is one. -/
theorem prefixValue_of_pinned {b : Bool} (hpins : ∀ j, e.PinnedInPrefix j → x.bit j = b)
    (hi : e.PinnedInPrefix i) : e.prefixValue x = b := by
  by_cases hsign : x.bit (e.width - 1) = b
  · have hkeeps : ¬ e.prefixValue x = (!x.bit (e.width - 1)) := by
      rw [prefixValue_eq_not_sign_iff hk]
      rintro ⟨j, hj, hne⟩
      exact hne ((hpins j hj).trans hsign.symm)
    rw [← hsign]
    simpa using hkeeps
  · have hdiffers : x.bit i ≠ x.bit (e.width - 1) := by
      rw [hpins i hi]
      exact Ne.symm hsign
    rw [(prefixValue_eq_not_sign_iff hk).mpr ⟨i, hi, hdiffers⟩]
    exact (Bool.eq_not_of_ne (Ne.symm hsign)).symm

/-- Without a pin in the prefix, the sign is taken. -/
theorem prefixValue_of_free (hfree : ∀ i, ¬ e.PinnedInPrefix i) :
    e.prefixValue x = x.bit (e.width - 1) := by
  have hkeeps : ¬ e.prefixValue x = (!x.bit (e.width - 1)) := by
    rw [prefixValue_eq_not_sign_iff hk]
    rintro ⟨i, hi, -⟩
    exact hfree i hi
  simpa using hkeeps

/-- If the pinned positions of the prefix do not show two different values, the prefix is made
equal: to the value that they show, or to the sign if none is pinned. All other bits and all
pinned ones stay, and doing it again changes nothing. -/
theorem extendSign_unifies (hx : x.Spans e.width)
    (hpins : ∀ i j, e.PinnedInPrefix i → e.PinnedInPrefix j → x.bit i = x.bit j) :
    (∃ b, (∀ i, e.width - e.signedPrefix ≤ i → i < e.width → (e.extendSign x).bit i = b) ∧
      (∀ i, e.PinnedInPrefix i → x.bit i = b) ∧
      ((∀ i, ¬ e.PinnedInPrefix i) → x.bit (e.width - 1) = b)) ∧
    ((∀ i, i < e.width - e.signedPrefix ∨ e.width ≤ i → (e.extendSign x).bit i = x.bit i) ∧
      ∀ i, e.isFree i = false → (e.extendSign x).bit i = x.bit i) ∧
    e.extendSign (e.extendSign x) = e.extendSign x := by
  have hpinned : ∀ i, e.PinnedInPrefix i → x.bit i = e.prefixValue x := fun i hi =>
    (prefixValue_of_pinned hk (fun j hj => hpins j i hj hi) hi).symm
  have hbit : ∀ i, e.width - e.signedPrefix ≤ i → i < e.width →
      (e.extendSign x).bit i = e.prefixValue x := fun i hle hi =>
    bit_extendSign_of_prefix hk hx hle hi fun hpin => hpinned i ⟨⟨hle, hi⟩, hpin⟩
  refine ⟨⟨e.prefixValue x, hbit, hpinned, fun hfree => (prefixValue_of_free hk hfree).symm⟩,
    ⟨fun i hout => ?_, fun i hpin => ?_⟩, ?_⟩
  · rw [bit_extendSign hk hx, if_neg]
    omega
  · rw [bit_extendSign hk hx, if_neg]
    rw [hpin]
    exact fun h => Bool.false_ne_true h.2
  · apply extendSign_of_bit_eq hk
    intro i hle hi
    rw [hbit i hle hi, hbit (e.width - 1) (by omega) (by omega)]

end Value

/-- Eight bits with a sign prefix of five, of which one is pinned. -/
def pinnedPrefix : Envelope :=
  { width := 8
    current := Packed.blank 8
    pins := ⟨8, [0xffffff10, 0]⟩
    lo := Packed.blank 8
    hi := Packed.blank 8
    signedPrefix := 5 }

/-- In one hundred and eighty-five the pinned bit is set like the sign, so the whole prefix is
set. In one hundred and sixty-nine it is clear, so the sign is cleared with the rest of the
prefix. -/
theorem extendSign_unifies_pinnedPrefix :
    (pinnedPrefix.signedPrefix ≤ pinnedPrefix.width ∧
      (Packed.ofNat 8 185).Spans pinnedPrefix.width ∧
      (Packed.ofNat 8 169).Spans pinnedPrefix.width ∧ ∀ i, pinnedPrefix.PinnedInPrefix i ↔ i = 4) ∧
    ((pinnedPrefix.extendSign (Packed.ofNat 8 185)).toNat = 249 ∧
      (pinnedPrefix.extendSign (Packed.ofNat 8 169)).toNat = 1) ∧
    pinnedPrefix.extendSign (pinnedPrefix.extendSign (Packed.ofNat 8 169)) =
      pinnedPrefix.extendSign (Packed.ofNat 8 169) := by
  have hx : (Packed.ofNat 8 185).Spans pinnedPrefix.width := ⟨rfl, by decide⟩
  have hy : (Packed.ofNat 8 169).Spans pinnedPrefix.width := ⟨rfl, by decide⟩
  have hpin : ∀ i, pinnedPrefix.PinnedInPrefix i ↔ i = 4 := by
    intro i
    have honly : ∀ i < 8, pinnedPrefix.isFree i = false → i = 4 := by decide
    constructor
    · rintro ⟨⟨-, hi⟩, hpin⟩
      exact honly i hi hpin
    · rintro rfl
      exact ⟨by decide, by decide⟩
  have hk : pinnedPrefix.signedPrefix ≤ pinnedPrefix.width := by decide
  obtain ⟨-, -, hagain⟩ := extendSign_unifies hk hy fun i j hi hj => by
    rw [(hpin i).mp hi, (hpin j).mp hj]
  exact ⟨⟨hk, hx, hy, hpin⟩, ⟨by decide, by decide⟩, hagain⟩

/-- The number that `y` holds is the value `m` of the envelope with its sign prefix made equal. -/
structure SignExtended (e : Envelope) (m : Nat) (y : Packed) : Prop where
  bits : ∃ b, ∀ i < e.width, y.toNat.testBit i =
    if e.width - e.signedPrefix ≤ i ∧ e.isFree i = true then b else m.testBit i
  /-- All pins are kept, and there is no stray bit. -/
  completes : e.Completes y.toNat
  /-- So only the interval decides whether it is a value of the envelope. -/
  admits_iff : e.admits y = true ↔ e.inRange y = true
  eq_of_uniformSign : e.UniformSign m → y.toNat = m
  admits : e.hasRange = false ∨ e.UniformSign m → e.admits y = true

theorem Regular.signExtended (he : e.Regular) (hk : e.signedPrefix ≤ e.width)
    (hx : x.Spans e.width) (hm : e.Allows x.toNat) : e.SignExtended x.toNat (e.extendSign x) := by
  have hy := hx.of_shape (e.shape_extendSign x)
  have hvalue : x.IsValue e.width := ⟨hx, hm.1⟩
  have hc := he.completes_extendSign hx (allows_iff.mp hm).1
  have hadmits : e.admits (e.extendSign x) = true ↔ e.inRange (e.extendSign x) = true := by
    rw [admits, (he.agrees_iff hy).mpr hc, Bool.true_and]
  refine ⟨⟨_, fun i hi => testBit_extendSign hk hvalue hi⟩, hc, hadmits, fun h => ?_, ?_⟩
  · rw [extendSign_of_uniformSign hk hvalue h]
  · rintro (hrange | huniform)
    · have heq : e.lo.toNat = e.hi.toNat := by
        by_contra hne
        rw [he.hasRange_iff.mpr hne] at hrange
        cases hrange
      exact hadmits.mpr ((he.inRange_iff hy).mpr (inArc_of_eq heq))
    · rw [extendSign_of_uniformSign hk hvalue huniform]
      exact (he.admits_iff hx).mpr hm

end BitEnvelope.Envelope
