import BitEnvelope.Envelope.Member
import BitEnvelope.Proofs.Packed.Value

/-!
# Regular envelopes

An envelope is regular if its values have its width and the positions above the width are pinned.
The committed value may lie outside the interval, as it does between a change of the interval and
the tightening after it. In a regular envelope the tests on words say what they should of numbers:
`inRange` is membership in the arc from `lo` to `hi`, `agrees` says that a number is a completion
of the pins, and `admits` that it is a value of the envelope.
-/

namespace BitEnvelope

theorem Word.getLsbD_topMask (w i : Nat) :
    (Word.topMask w).getLsbD i = (decide (i < 32) && decide (w % 32 = 0 ∨ i < w % 32)) := by
  rw [Word.topMask]
  split
  · rename_i h
    rw [BitVec.getLsbD_allOnes]
    simp [h]
  · rename_i h
    simp [Word.getLsbD_low, h]

/-- Within the top word, the mask holds the positions below the width. -/
theorem Word.getLsbD_topMask_mod {w i : Nat} (hdiv : i / 32 = Word.count w - 1)
    (hi : i < 32 * Word.count w) : (Word.topMask w).getLsbD (i % 32) = decide (i < w) := by
  have hcount : Word.count w = (w + 31) / 32 := rfl
  rw [getLsbD_topMask, ← Bool.decide_and]
  exact decide_eq_decide.mpr (by omega)

section Arc

variable {lo hi n : Nat}

theorem inArc_of_eq (h : lo = hi) : InArc lo hi n := .inl h

theorem inArc_iff_of_lt (h : lo < hi) : InArc lo hi n ↔ lo ≤ n ∧ n < hi := by
  rw [InArc]
  omega

theorem inArc_iff_of_gt (h : hi < lo) : InArc lo hi n ↔ lo ≤ n ∨ n < hi := by
  rw [InArc]
  omega

end Arc

namespace Envelope

/-- The number `n` is a completion of the pins. -/
def Completes (e : Envelope) (n : Nat) : Prop :=
  n < 2 ^ e.width ∧ e.HasPins n

/-- The values of an envelope have its width, and the positions above it are pinned. -/
structure Regular (e : Envelope) : Prop where
  current : e.current.IsValue e.width
  pins : e.pins.Spans e.width
  lo : e.lo.IsValue e.width
  hi : e.hi.IsValue e.width
  overflow : ∀ i, e.width ≤ i → i < 32 * e.wordCount → e.isFree i = false

variable {e : Envelope} {x : Packed}

theorem allows_iff {n : Nat} :
    e.Allows n ↔ e.Completes n ∧ InArc e.lo.toNat e.hi.toNat n := and_assoc.symm

theorem Completes.lt_of_testBit {n i : Nat} (hn : e.Completes n) (hi : n.testBit i = true) :
    i < e.width := by
  by_contra hle
  have hpow : 2 ^ e.width ≤ 2 ^ i := Nat.pow_le_pow_right (by decide) (Nat.le_of_not_lt hle)
  rw [Nat.testBit_lt_two_pow (Nat.lt_of_lt_of_le hn.1 hpow)] at hi
  cases hi

/-- Two completions differ at free positions only. -/
theorem Completes.testBit_eq_of_pinned {n m i : Nat} (hn : e.Completes n) (hm : e.Completes m)
    (hpin : e.isFree i = false) : n.testBit i = m.testBit i := by
  by_cases hi : i < e.width
  · exact (hn.2 i hi hpin).trans (hm.2 i hi hpin).symm
  · rw [Bool.eq_false_of_not_eq_true (hi ∘ hn.lt_of_testBit),
      Bool.eq_false_of_not_eq_true (hi ∘ hm.lt_of_testBit)]

/-! ## Copies of the words that carry a value -/

theorem toNat_copy {y : Packed} (hx : x.Spans e.width) (hy : y.Spans e.width) :
    (x.copyFrom e.wordCount y).toNat = y.toNat := hx.toNat_copyFrom hy

theorem isValue_copy {y : Packed} (hx : x.Spans e.width) (hy : y.IsValue e.width) :
    (x.copyFrom e.wordCount y).IsValue e.width := hx.isValue_copyFrom hy

/-- Agreement with the pins, bit by bit over the words that carry the value. -/
theorem agrees_iff_bit : e.agrees x = true ↔
    ∀ i, i < 32 * e.wordCount → e.isFree i = false → x.bit i = e.current.bit i := by
  simp only [agrees, List.all_eq_true, List.mem_range, beq_iff_eq]
  constructor
  · intro h i hi hp
    have hword := congrArg (BitVec.getLsbD · (i % 32)) (h (i / 32) (by omega))
    simp only [isFree, Bool.not_eq_false', Packed.bit] at hp
    simpa [Packed.bit, hp] using hword
  · intro h k hk
    apply BitVec.eq_of_getLsbD_eq
    intro j hj
    have hdiv : (32 * k + j) / 32 = k := by omega
    have hmod : (32 * k + j) % 32 = j := by omega
    have hbit := h (32 * k + j) (by omega)
    simp only [isFree, Bool.not_eq_false', Packed.bit, hdiv, hmod] at hbit
    cases hp : (e.pins.word k).getLsbD j with
    | false => simp [hp]
    | true => simp [hp, hbit hp]

namespace Regular

variable (he : e.Regular)
include he

/-- Of the words that carry a value, the free positions lie below the width. -/
theorem lt_of_isFree {i : Nat} (hi : i < 32 * e.wordCount) (hfree : e.isFree i = true) :
    i < e.width := by
  by_contra hge
  rw [he.overflow i (Nat.le_of_not_lt hge) hi] at hfree
  cases hfree

theorem completes_current : e.Completes e.current.toNat := by
  refine ⟨he.current.toNat_lt, fun i hi _ => ?_⟩
  exact he.current.testBit_of_lt hi

/-! ## The interval -/

theorem hasRange_iff : e.hasRange = true ↔ e.lo.toNat ≠ e.hi.toNat := by
  rw [hasRange, Bool.not_eq_true', ← Bool.not_eq_true,
    he.lo.toSpans.same_iff he.hi.toSpans]

theorem compare_bounds : e.lo.compare e.hi = compare e.lo.toNat e.hi.toNat :=
  he.lo.toSpans.compare_eq he.hi.toSpans

theorem inRange_iff (hx : x.Spans e.width) :
    e.inRange x = true ↔ InArc e.lo.toNat e.hi.toNat x.toNat := by
  have hlo := he.lo.toSpans.le_iff hx
  have hhi := hx.lt_iff he.hi.toSpans
  rw [inRange, he.compare_bounds]
  rcases Nat.lt_trichotomy e.lo.toNat e.hi.toNat with hlt | heq | hgt
  · rw [Nat.compare_eq_lt.mpr hlt, inArc_iff_of_lt hlt]
    exact (Bool.and_eq_true _ _).to_iff.trans (and_congr hlo hhi)
  · rw [Nat.compare_eq_eq.mpr heq]
    exact iff_of_true rfl (inArc_of_eq heq)
  · rw [Nat.compare_eq_gt.mpr hgt, inArc_iff_of_gt hgt]
    exact (Bool.or_eq_true _ _).to_iff.trans (or_congr hlo hhi)

/-! ## The pins -/

theorem agrees_iff (hx : x.Spans e.width) : e.agrees x = true ↔ e.Completes x.toNat := by
  rw [agrees_iff_bit]
  constructor
  · intro h
    refine ⟨hx.toNat_lt_of_bit fun i hi hc => ?_, fun i hi hp => ?_⟩
    · rw [h i hc (he.overflow i hi hc), he.current.bit_of_le hi hc]
    · have hc := Packed.lt_words_of_lt hi
      rw [hx.testBit_toNat, h i hc hp]
      simp [hc]
  · intro h i hc hp
    have hv : x.IsValue e.width := ⟨hx, h.1⟩
    by_cases hi : i < e.width
    · rw [← hv.testBit_eq hc]
      exact h.2 i hi hp
    · have hi := Nat.le_of_not_lt hi
      rw [hv.bit_of_le hi hc, he.current.bit_of_le hi hc]

/-- The envelope admits a value if and only if its number is a value of the envelope. -/
theorem admits_iff (hx : x.Spans e.width) : e.admits x = true ↔ e.Allows x.toNat := by
  rw [admits, Bool.and_eq_true, he.agrees_iff hx, he.inRange_iff hx, allows_iff]

end Regular

/-! ## Stray bits -/

theorem hasOverflow_eq_false_iff_word : e.hasOverflow x = false ↔
    ∀ j, j < 32 → (x.word e.top).getLsbD j = true → e.width % 32 = 0 ∨ j < e.width % 32 := by
  simp only [hasOverflow, bne_eq_false_iff_eq]
  constructor
  · intro h j hj hb
    have hword := congrArg (BitVec.getLsbD · j) h
    simpa only [BitVec.getLsbD_and, BitVec.getLsbD_not, mask, Word.getLsbD_topMask, hb, hj,
      BitVec.ofNat_eq_ofNat, BitVec.getLsbD_zero, decide_true, Bool.true_and,
      Bool.not_eq_false', decide_eq_true_eq] using hword
  · intro h
    apply BitVec.eq_of_getLsbD_eq
    intro j hj
    cases hb : (x.word e.top).getLsbD j with
    | false => simp [hb]
    | true => simp [hb, hj, mask, Word.getLsbD_topMask, h j hj hb]

/-- Above the width, every position of the words that carry a value is one of the top word. -/
theorem hasOverflow_eq_false_iff_bit : e.hasOverflow x = false ↔
    ∀ i, e.width ≤ i → i < 32 * e.wordCount → x.bit i = false := by
  have htop : e.top = (e.width + 31) / 32 - 1 := rfl
  have hcount : e.wordCount = (e.width + 31) / 32 := rfl
  rw [hasOverflow_eq_false_iff_word]
  constructor
  · intro h i hi hc
    have hdiv : i / 32 = e.top := by omega
    have hmod : ¬ (e.width % 32 = 0 ∨ i % 32 < e.width % 32) := by omega
    rw [← Bool.not_eq_true, Packed.bit, hdiv]
    exact fun hb => hmod (h (i % 32) (Nat.mod_lt i (by decide)) hb)
  · intro h j hj hb
    by_contra hout
    have hdiv : (32 * e.top + j) / 32 = e.top := by omega
    have hmod : (32 * e.top + j) % 32 = j := by omega
    have hclear := h (32 * e.top + j) (by omega) (by omega)
    rw [Packed.bit, hdiv, hmod, hb] at hclear
    cases hclear

theorem hasOverflow_eq_false_iff (hx : x.Spans e.width) :
    e.hasOverflow x = false ↔ x.toNat < 2 ^ e.width := by
  rw [hasOverflow_eq_false_iff_bit]
  constructor
  · intro h
    exact hx.toNat_lt_of_bit h
  · intro h i hi hc
    have hv : x.IsValue e.width := ⟨hx, h⟩
    exact hv.bit_of_le hi hc

@[simp] theorem shape_dropOverflow (e : Envelope) (x : Packed) :
    (e.dropOverflow x).shape = x.shape :=
  Packed.shape_setWord x _ _

theorem bit_dropOverflow_of_stored (hx : e.wordCount ≤ x.words.length) {i : Nat}
    (hi : i < 32 * e.wordCount) : (e.dropOverflow x).bit i = (decide (i < e.width) && x.bit i) := by
  have hcount : e.wordCount = (e.width + 31) / 32 := rfl
  have htop : e.top = e.wordCount - 1 := rfl
  have hstored : e.top < x.words.length := by omega
  rw [Packed.bit, dropOverflow, Packed.word_setWord x hstored]
  split
  · rename_i hdiv
    rw [BitVec.getLsbD_and, mask, Word.getLsbD_topMask_mod hdiv hi, Bool.and_comm, Packed.bit, hdiv]
  · rename_i hdiv
    have hi : i < e.width := by omega
    rw [decide_eq_true hi, Bool.true_and, Packed.bit]

theorem bit_dropOverflow (hx : x.Spans e.width) {i : Nat} (hi : i < 32 * e.wordCount) :
    (e.dropOverflow x).bit i = (decide (i < e.width) && x.bit i) :=
  bit_dropOverflow_of_stored hx.count_le hi

/-- Dropping the stray bits takes the number modulo `2 ^ width`. -/
theorem toNat_dropOverflow (hx : x.Spans e.width) :
    (e.dropOverflow x).toNat = x.toNat % 2 ^ e.width := by
  have hy := hx.of_shape (shape_dropOverflow e x)
  apply Nat.eq_of_testBit_eq
  intro i
  rw [Nat.testBit_mod_two_pow, hy.testBit_toNat, hx.testBit_toNat]
  by_cases hc : i < 32 * Word.count e.width
  · rw [bit_dropOverflow hx hc]
    simp [hc]
  · simp [hc]

end Envelope

end BitEnvelope
