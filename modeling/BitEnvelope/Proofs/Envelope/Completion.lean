import BitEnvelope.Envelope.Completion
import BitEnvelope.Proofs.BitOrder
import BitEnvelope.Proofs.Envelope.Regular
import Mathlib.Order.Bounds.Basic

/-!
# The nearest completion

`ceilCompletion?` finds the least completion of the pins at or above a value and `floorCompletion?`
the greatest one at or below it. Both are one search, `nearestCompletion?`, which leaves the value
at one position, in the direction of that position's new bit, and takes the nearest free bits below
it. A completion that lies between the value and the result would have to leave the value at a
lower position, and no completion can. This is so for values without stray bits. With stray bits a
value lies above every completion, and `floorCompletion?` finds the greatest of them.
-/

namespace BitEnvelope

/-! ## The highest set bit -/

namespace Word

theorem highest?_eq_none {w : Word} : w.highest? = none ↔ w = 0 := by
  rw [highest?]
  split <;> simp_all

theorem getLsbD_of_highest? {w : Word} {b : Nat} (h : w.highest? = some b) :
    b < 32 ∧ w.getLsbD b = true ∧ ∀ j, b < j → w.getLsbD j = false := by
  rw [highest?] at h
  split at h
  · cases h
  · rename_i hw
    cases h
    have hne : w.toNat ≠ 0 := fun h0 => hw (BitVec.eq_of_toNat_eq h0)
    refine ⟨(Nat.log2_lt hne).mpr w.isLt, Nat.testBit_log2 hne, fun j hj => ?_⟩
    exact Nat.testBit_lt_two_pow ((Nat.log2_lt hne).mp hj)

end Word

section Highest

variable {d : Nat → Word} {n p : Nat}

/-- The highest set bit of the words below `n`: no bit above it is set. -/
theorem getLsbD_of_findSome?_highest
    (h : ((List.range n).reverse.findSome? fun i => (d i).highest?.map (32 * i + ·)) = some p) :
    p < 32 * n ∧ (d (p / 32)).getLsbD (p % 32) = true ∧
      ∀ j, p < j → j < 32 * n → (d (j / 32)).getLsbD (j % 32) = false := by
  induction n with
  | zero => simp at h
  | succ n ih =>
      rw [List.range_succ, List.reverse_append, List.reverse_singleton, List.singleton_append,
        List.findSome?_cons] at h
      cases hd : (d n).highest? with
      | none =>
          obtain ⟨hp, hset, hclear⟩ := ih (by simpa [hd] using h)
          refine ⟨by omega, hset, fun j hj hjn => ?_⟩
          by_cases hlow : j < 32 * n
          · exact hclear j hj hlow
          · have hdiv : j / 32 = n := by omega
            simp [hdiv, Word.highest?_eq_none.mp hd]
      | some b =>
          obtain ⟨hb, hset, hclear⟩ := Word.getLsbD_of_highest? hd
          have hp : 32 * n + b = p := by simpa [hd] using h
          have hdiv : p / 32 = n := by omega
          have hmod : p % 32 = b := by omega
          refine ⟨by omega, by rw [hdiv, hmod]; exact hset, fun j hj hjn => ?_⟩
          have hjdiv : j / 32 = n := by omega
          rw [hjdiv]
          exact hclear (j % 32) (by omega)

theorem getLsbD_of_findSome?_highest_eq_none
    (h : ((List.range n).reverse.findSome? fun i => (d i).highest?.map (32 * i + ·)) = none)
    {j : Nat} (hj : j < 32 * n) : (d (j / 32)).getLsbD (j % 32) = false := by
  have hnone := List.findSome?_eq_none_iff.mp h (j / 32) (by simp; omega)
  rw [Word.highest?_eq_none.mp (Option.map_eq_none_iff.mp hnone)]
  simp

end Highest

namespace Envelope

variable {e : Envelope}

/-! ## Divergence from the pins -/

/-- The number `n` differs from its pin at `p` and at no pinned position above. -/
structure Diverges (e : Envelope) (n p : Nat) : Prop where
  lt : p < e.width
  pinned : e.isFree p = false
  ne : n.testBit p ≠ e.current.bit p
  above : ∀ j, p < j → j < e.width → e.isFree j = false → n.testBit j = e.current.bit j

theorem getLsbD_divergence (e : Envelope) (x : Packed) (i : Nat) :
    ((x.word (i / 32) ^^^ e.current.word (i / 32)) &&& e.pins.word (i / 32)).getLsbD (i % 32) =
      ((x.bit i != e.current.bit i) && !e.isFree i) := by
  simp [Packed.bit, isFree]

namespace Regular

variable {x : Packed} (he : e.Regular) (hx : x.IsValue e.width)
include he hx

theorem diverges {p : Nat} (h : e.divergence? x = some p) : e.Diverges x.toNat p := by
  obtain ⟨hp, hset, hclear⟩ := getLsbD_of_findSome?_highest h
  rw [getLsbD_divergence, Bool.and_eq_true, bne_iff_ne, Bool.not_eq_true'] at hset
  have hlt : p < e.width := by
    by_contra hge
    have hge := Nat.le_of_not_lt hge
    exact hset.1 (by rw [hx.bit_of_le hge hp, he.current.bit_of_le hge hp])
  refine ⟨hlt, hset.2, by rw [hx.testBit_eq hp]; exact hset.1, fun j hj hjw hpin => ?_⟩
  have hc := Packed.lt_words_of_lt hjw
  have hsame := hclear j hj hc
  rw [getLsbD_divergence, hpin] at hsame
  rw [hx.testBit_eq hc]
  simpa using hsame

omit he in
theorem completes_of_divergence?_eq_none (h : e.divergence? x = none) : e.Completes x.toNat := by
  refine ⟨hx.toNat_lt, fun i hi hpin => ?_⟩
  have hc := Packed.lt_words_of_lt hi
  have hsame := getLsbD_of_findSome?_highest_eq_none h hc
  rw [getLsbD_divergence, hpin] at hsame
  rw [hx.testBit_eq hc]
  simpa using hsame

end Regular

/-- Where a completion leaves a diverging number in the direction away from the pin, it does so
at a free position above the divergence. -/
theorem Diverges.free_of_turn {b : Bool} {n p k i : Nat} (h : e.Diverges n p)
    (hp : e.current.bit p = !b) (hn : n < 2 ^ e.width) (hk : e.Completes k)
    (hni : n.testBit i = !b) (hki : k.testBit i = b)
    (above : ∀ j, i < j → n.testBit j = k.testBit j) :
    p < i ∧ i < e.width ∧ e.isFree i = true := by
  have hkp := hk.2 p h.lt h.pinned
  have hpi : p < i := by
    rcases Nat.lt_trichotomy p i with hlt | rfl | hgt
    · exact hlt
    · rw [hki, hp] at hkp
      cases b <;> cases hkp
    · exact absurd ((above p hgt).trans hkp) h.ne
  have hiw : i < e.width := by
    by_contra hge
    have hpow := Nat.pow_le_pow_right (n := 2) (by decide) (Nat.le_of_not_lt hge)
    rw [Nat.testBit_lt_two_pow (Nat.lt_of_lt_of_le hn hpow)] at hni
    rw [Nat.testBit_lt_two_pow (Nat.lt_of_lt_of_le hk.1 hpow), ← Bool.not_not b, ← hni] at hki
    cases hki
  refine ⟨hpi, hiw, ?_⟩
  by_contra hpin
  have hpin := Bool.eq_false_of_not_eq_true hpin
  have hsame := (h.above i hpi hiw hpin).trans (hk.2 i hiw hpin).symm
  rw [hni, hki] at hsame
  cases b <;> cases hsame

/-! ## Turns -/

/-- The number `m` leaves `n` at position `q`, where its bit is `b`, and has the free bits below
that are nearest to `n` in this direction. -/
structure Turn (e : Envelope) (b : Bool) (n q m : Nat) : Prop where
  before : n.testBit q = !b
  after : m.testBit q = b
  above : ∀ j, q < j → m.testBit j = n.testBit j
  below : ∀ j, j < q → m.testBit j = if e.isFree j then !b else e.current.bit j

namespace Turn

variable {b : Bool} {n q m k : Nat} (h : e.Turn b n q m)
include h

theorem turnsTo : TurnsTo b n m :=
  ⟨q, h.before, h.after, fun j hj => (h.above j hj).symm⟩

/-- If every completion that agrees with `n` from `q` upward lies before `n`, then so does every
completion before `m`: none lies between. -/
theorem turnsTo_of_turnsTo (hq : q < e.width) (hk : e.Completes k)
    (before : (∀ j, q ≤ j → k.testBit j = n.testBit j) → TurnsTo b k n)
    (hkm : TurnsTo b k m) : TurnsTo b k n := by
  obtain ⟨i, hki, hmi, above⟩ := hkm
  rcases Nat.lt_trichotomy i q with hlt | rfl | hgt
  · -- Below `q`, only a pin can give `m` the bit `b`, and `k` has the same pin.
    have hbelow := h.below i hlt
    cases hfree : e.isFree i with
    | true =>
        rw [hfree, hmi] at hbelow
        cases b <;> cases hbelow
    | false =>
        have hpin := hk.2 i (Nat.lt_trans hlt hq) hfree
        rw [hfree, hmi] at hbelow
        rw [hki, ← show b = e.current.bit i from hbelow] at hpin
        cases b <;> cases hpin
  · apply before
    intro j hj
    rcases Nat.eq_or_lt_of_le hj with rfl | hlt
    · exact hki.trans h.before.symm
    · exact (above j hlt).trans (h.above j hlt)
  · have hni : n.testBit i = b := (h.above i hgt).symm.trans hmi
    exact ⟨i, hki, hni, fun j hj => (above j hj).trans (h.above j (Nat.lt_trans hgt hj))⟩

end Turn

/-! ## Writing pins and free bits -/

/-- Nothing looks at the width of a value when its pinned positions are put right. -/
theorem bit_applyPins_of_stored {x : Packed} (hx : e.wordCount ≤ x.words.length) {i : Nat}
    (hi : i < 32 * e.wordCount) :
    (e.applyPins x).bit i = if e.isFree i then x.bit i else e.current.bit i := by
  have hcount : i / 32 < e.wordCount := by omega
  rw [applyPins, Packed.bit_mapWords (Nat.lt_of_lt_of_le hcount hx), if_pos hcount,
    BitVec.getLsbD_or, BitVec.getLsbD_and, BitVec.getLsbD_and, BitVec.getLsbD_not]
  change (x.bit i && (decide (i % 32 < 32) && !e.pins.bit i) ||
    e.current.bit i && e.pins.bit i) = _
  cases hp : e.pins.bit i <;> simp [isFree, hp, Nat.mod_lt]

section Bits

variable {x : Packed} (hx : x.Spans e.width)
include hx

theorem div_lt_of_lt_words {i : Nat} (hi : i < 32 * e.wordCount) : i / 32 < x.words.length :=
  Nat.lt_of_lt_of_le (show i / 32 < Word.count e.width by unfold wordCount at hi; omega)
    hx.count_le

theorem bit_applyPins {i : Nat} (hi : i < 32 * e.wordCount) :
    (e.applyPins x).bit i = if e.isFree i then x.bit i else e.current.bit i :=
  bit_applyPins_of_stored hx.count_le hi

theorem bit_clearFreeBelow {p i : Nat} (hi : i < 32 * e.wordCount) :
    (e.clearFreeBelow p x).bit i = if i < p ∧ e.isFree i then false else x.bit i := by
  rw [clearFreeBelow, Packed.bit_mapWords (div_lt_of_lt_words hx hi)]
  rcases Nat.lt_trichotomy (i / 32) (p / 32) with hlt | heq | hgt
  · rw [if_pos (Nat.lt_succ_of_lt hlt), if_pos hlt, BitVec.getLsbD_and]
    change (x.bit i && e.pins.bit i) = _
    cases hp : e.pins.bit i <;> simp [isFree, hp, show i < p by omega]
  · have hlow : decide (i % 32 < p % 32) = decide (i < p) := decide_eq_decide.mpr (by omega)
    rw [if_pos (by omega), if_neg (by omega), BitVec.getLsbD_and, BitVec.getLsbD_or,
      BitVec.getLsbD_not, Word.getLsbD_low, hlow]
    change (x.bit i && (e.pins.bit i || _)) = _
    cases hp : e.pins.bit i <;> by_cases hip : i < p <;> simp [isFree, hp, hip, Nat.mod_lt]
  · rw [if_neg (by omega), if_neg (by omega)]

theorem bit_setFreeBelow {p i : Nat} (hi : i < 32 * e.wordCount) :
    (e.setFreeBelow p x).bit i = if i < p ∧ e.isFree i then true else x.bit i := by
  rw [setFreeBelow, Packed.bit_mapWords (div_lt_of_lt_words hx hi)]
  rcases Nat.lt_trichotomy (i / 32) (p / 32) with hlt | heq | hgt
  · rw [if_pos (Nat.lt_succ_of_lt hlt), if_pos hlt, BitVec.getLsbD_or, BitVec.getLsbD_not]
    change (x.bit i || (_ && !e.pins.bit i)) = _
    cases hp : e.pins.bit i <;> simp [isFree, hp, Nat.mod_lt, show i < p by omega]
  · have hlow : decide (i % 32 < p % 32) = decide (i < p) := decide_eq_decide.mpr (by omega)
    rw [if_pos (by omega), if_neg (by omega), BitVec.getLsbD_or, BitVec.getLsbD_and,
      BitVec.getLsbD_not, Word.getLsbD_low, hlow]
    change (x.bit i || (_ && !e.pins.bit i) && _) = _
    cases hp : e.pins.bit i <;> by_cases hip : i < p <;> simp [isFree, hp, hip, Nat.mod_lt]
  · rw [if_neg (by omega), if_neg (by omega)]

end Bits

/-! ## The search in either direction -/

/-- The free positions below `p` take the bit that is nearest when the value leaves upward for a
set `b` and downward for a clear one. -/
def resetFreeBelow (e : Envelope) (b : Bool) (p : Nat) (x : Packed) : Packed :=
  if b then e.clearFreeBelow p x else e.setFreeBelow p x

/-- The nearest completion above `x` for a set `b` and below `x` for a clear one. -/
def nearestCompletion? (e : Envelope) (b : Bool) (x : Packed) : Option Packed :=
  match e.divergence? x with
  | none => some x
  | some p =>
    let y := e.applyPins x
    if e.current.bit p = b then
      some (e.resetFreeBelow b p y)
    else
      (e.freeAbove? p (!b) y).map fun q => e.resetFreeBelow b q (y.setBit q b)

theorem ceilCompletion?_eq (e : Envelope) (x : Packed) :
    e.ceilCompletion? x = e.nearestCompletion? true x := rfl

theorem floorCompletion?_eq (e : Envelope) (x : Packed) :
    e.floorCompletion? x = e.nearestCompletion? false x := by
  unfold floorCompletion? nearestCompletion?
  cases e.divergence? x with
  | none => rfl
  | some p => cases hp : e.current.bit p <;> simp [hp, resetFreeBelow]

theorem freeAbove?_eq_some {p q : Nat} {b : Bool} {x : Packed}
    (h : e.freeAbove? p b x = some q) :
    p < q ∧ q < e.width ∧ e.isFree q = true ∧ x.bit q = b ∧
      ∀ j, p < j → j < q → e.isFree j = true → x.bit j ≠ b := by
  rw [freeAbove?, List.find?_range'_eq_some] at h
  obtain ⟨hq, hmem, hlow⟩ := h
  rw [Bool.and_eq_true, beq_iff_eq] at hq
  rw [List.mem_range'_1] at hmem
  refine ⟨by omega, by omega, hq.1, hq.2, fun j hpj hjq hfree hb => ?_⟩
  have := hlow j (by omega) hjq
  simp [hfree, hb] at this

theorem freeAbove?_eq_none {p j : Nat} {b : Bool} {x : Packed} (h : e.freeAbove? p b x = none)
    (hpj : p < j) (hj : j < e.width) (hfree : e.isFree j = true) : x.bit j ≠ b := by
  intro hb
  rw [freeAbove?, List.find?_range'_eq_none] at h
  have := h j (by omega) (by omega)
  simp [hfree, hb] at this

section Bits

variable {x : Packed} (hx : x.Spans e.width)
include hx

theorem bit_resetFreeBelow {b : Bool} {p i : Nat} (hi : i < 32 * e.wordCount) :
    (e.resetFreeBelow b p x).bit i = if i < p ∧ e.isFree i then !b else x.bit i := by
  cases b with
  | false => exact bit_setFreeBelow hx hi
  | true => exact bit_clearFreeBelow hx hi

end Bits

@[simp] theorem shape_applyPins (e : Envelope) (x : Packed) :
    (e.applyPins x).shape = x.shape := Packed.shape_mapWords x _ _

@[simp] theorem shape_resetFreeBelow (e : Envelope) (b : Bool) (p : Nat) (x : Packed) :
    (e.resetFreeBelow b p x).shape = x.shape := by
  cases b <;> exact Packed.shape_mapWords x _ _

theorem shape_of_nearestCompletion? {b : Bool} {x y : Packed}
    (h : e.nearestCompletion? b x = some y) : y.shape = x.shape := by
  rw [nearestCompletion?] at h
  split at h
  · cases h
    rfl
  · dsimp only at h
    split at h
    · cases h
      simp
    · obtain ⟨q, -, rfl⟩ := Option.map_eq_some_iff.mp h
      simp

/-- The completion `m` is `n` itself or lies on the way from `n` in the direction of `b`, and no
completion lies between. -/
structure Landing (e : Envelope) (b : Bool) (n m : Nat) : Prop where
  completes : e.Completes m
  reached : m = n ∨ TurnsTo b n m
  nearest : ∀ k, e.Completes k → TurnsTo b k m → TurnsTo b k n

/-- A number that leaves a diverging one at or above its divergence is a completion. -/
theorem Turn.completes {b : Bool} {n p q m : Nat} (h : e.Turn b n q m) (hp : e.Diverges n p)
    (hn : n < 2 ^ e.width) (hpq : p ≤ q) (hq : q < e.width)
    (hpin : e.isFree q = false → e.current.bit q = b) : e.Completes m := by
  constructor
  · apply Nat.lt_pow_two_of_testBit
    intro i hi
    rw [h.above i (Nat.lt_of_lt_of_le hq hi)]
    exact Nat.testBit_lt_two_pow (Nat.lt_of_lt_of_le hn (Nat.pow_le_pow_right (by decide) hi))
  · intro i hi hfree
    rcases Nat.lt_trichotomy i q with hlt | rfl | hgt
    · simpa [hfree] using h.below i hlt
    · rw [h.after, hpin hfree]
    · rw [h.above i hgt]
      exact hp.above i (Nat.lt_of_le_of_lt hpq hgt) hi hfree

/-- A completion differs from a number that diverges. -/
theorem Diverges.ne_of_completes {n p k : Nat} (hp : e.Diverges n p) (hk : e.Completes k) :
    k ≠ n := by
  rintro rfl
  exact hp.ne (hk.2 p hp.lt hp.pinned)

/-- A turn at or above the divergence lands on the nearest completion, if every completion that
agrees with the diverging number from the turn upward lies before it. -/
theorem Turn.landing {b : Bool} {n p q m : Nat} (h : e.Turn b n q m) (hp : e.Diverges n p)
    (hn : n < 2 ^ e.width) (hpq : p ≤ q) (hq : q < e.width)
    (hpin : e.isFree q = false → e.current.bit q = b)
    (before : ∀ k, e.Completes k → (∀ j, q ≤ j → k.testBit j = n.testBit j) → TurnsTo b k n) :
    e.Landing b n m where
  completes := h.completes hp hn hpq hq hpin
  reached := .inr h.turnsTo
  nearest k hk hkm := h.turnsTo_of_turnsTo hq hk (before k hk) hkm

namespace Regular

variable {b : Bool} {x y : Packed} {p : Nat} (he : e.Regular) (hx : x.IsValue e.width)
include he hx

/-- Applying the pins changes no bit above the highest divergence. -/
theorem bit_applyPins_above {i : Nat} (hp : e.Diverges x.toNat p) (hpi : p < i)
    (hi : i < 32 * e.wordCount) : (e.applyPins x).bit i = x.bit i := by
  rw [bit_applyPins hx.toSpans hi]
  cases hfree : e.isFree i with
  | true => rfl
  | false =>
      by_cases hiw : i < e.width
      · rw [← hx.testBit_eq hi]
        exact (hp.above i hpi hiw hfree).symm
      · have hle := Nat.le_of_not_lt hiw
        rw [hx.bit_of_le hle hi]
        exact he.current.bit_of_le hle hi

theorem turn_resetFreeBelow {q : Nat} {z : Packed} (hp : e.Diverges x.toNat p) (hpq : p ≤ q)
    (hq : q < e.width) (before : x.toNat.testBit q = !b) (hz : z.Spans e.width)
    (hzq : z.bit q = b)
    (hbit : ∀ i, i < 32 * e.wordCount → i ≠ q → z.bit i = (e.applyPins x).bit i) :
    e.Turn b x.toNat q (e.resetFreeBelow b q z).toNat := by
  have hy : (e.resetFreeBelow b q z).Spans e.width := hz.of_shape (shape_resetFreeBelow e b q z)
  have hqc : q < 32 * e.wordCount := Packed.lt_words_of_lt hq
  refine ⟨before, ?_, fun j hj => ?_, fun j hj => ?_⟩
  · rw [hy.testBit_toNat, bit_resetFreeBelow hz hqc]
    simp [hzq, show q < 32 * Word.count e.width from hqc]
  · rw [hy.testBit_toNat, hx.toSpans.testBit_toNat]
    by_cases hjc : j < 32 * Word.count e.width
    · rw [bit_resetFreeBelow hz hjc, if_neg (by omega), hbit j hjc (Nat.ne_of_gt hj),
        he.bit_applyPins_above hx hp (Nat.lt_of_le_of_lt hpq hj) hjc]
    · simp [hjc]
  · have hjc : j < 32 * Word.count e.width := Nat.lt_trans hj hqc
    rw [hy.testBit_toNat, bit_resetFreeBelow hz hjc, hbit j hjc (Nat.ne_of_lt hj),
      bit_applyPins hx.toSpans hjc]
    cases hfree : e.isFree j <;> simp [hjc, hj]

/-- If the pin at the divergence leads the wrong way, a completion that lies in the direction of
`b` gets there at a free position above the divergence. -/
theorem turnsTo_or_exists_free (hp : e.Diverges x.toNat p) (hpin : e.current.bit p = !b) {k : Nat}
    (hk : e.Completes k) :
    TurnsTo b k x.toNat ∨ ∃ i, p < i ∧ i < e.width ∧ e.isFree i = true ∧
      (e.applyPins x).bit i = (!b) ∧ k.testBit i ≠ x.toNat.testBit i := by
  rcases TurnsTo.of_ne b (hp.ne_of_completes hk) with hbefore | ⟨i, hni, hki, above⟩
  · exact .inl hbefore
  · obtain ⟨hpi, hiw, hfree⟩ := hp.free_of_turn hpin hx.toNat_lt hk hni hki above
    have hic := Packed.lt_words_of_lt hiw
    refine .inr ⟨i, hpi, hiw, hfree, ?_, ?_⟩
    · rw [he.bit_applyPins_above hx hp hpi hic, ← hx.testBit_eq hic]
      exact hni
    · rw [hni, hki]
      cases b <;> decide

/-- The pin at the divergence leads the right way: the value leaves there. -/
theorem landing_of_pin (hp : e.Diverges x.toNat p) (hpin : e.current.bit p = b) :
    e.Landing b x.toNat (e.resetFreeBelow b p (e.applyPins x)).toNat := by
  have hpc := Packed.lt_words_of_lt hp.lt
  have hz : (e.applyPins x).Spans e.width := hx.toSpans.of_shape (shape_applyPins e x)
  have hbefore : x.toNat.testBit p = !b := by
    rw [← hpin]
    exact Bool.eq_not_of_ne hp.ne
  have hafter : (e.applyPins x).bit p = b := by
    rw [bit_applyPins hx.toSpans hpc, hp.pinned]
    exact hpin
  have turn := he.turn_resetFreeBelow hx hp (Nat.le_refl p) hp.lt hbefore hz hafter
    fun _ _ _ => rfl
  refine turn.landing hp hx.toNat_lt (Nat.le_refl p) hp.lt (fun _ => hpin) fun k hk same => ?_
  exact absurd ((same p (Nat.le_refl p)).symm.trans (hk.2 p hp.lt hp.pinned)) hp.ne

/-- The pin at the divergence leads the wrong way: the value leaves at the lowest free position
above that can lead the right way. -/
theorem landing_of_free {q : Nat} (hp : e.Diverges x.toNat p) (hpin : e.current.bit p = !b)
    (hq : e.freeAbove? p (!b) (e.applyPins x) = some q) :
    e.Landing b x.toNat (e.resetFreeBelow b q ((e.applyPins x).setBit q b)).toNat := by
  obtain ⟨hpq, hqw, hfree, hzq, hlow⟩ := freeAbove?_eq_some hq
  have hqc := Packed.lt_words_of_lt hqw
  have hz : (e.applyPins x).Spans e.width := hx.toSpans.of_shape (shape_applyPins e x)
  have hset := Packed.bit_setBit (e.applyPins x) (hz.lt_capacity hqc) b
  have hbefore : x.toNat.testBit q = !b := by
    rw [hx.testBit_eq hqc, ← he.bit_applyPins_above hx hp hpq hqc]
    exact hzq
  have turn := he.turn_resetFreeBelow hx hp (Nat.le_of_lt hpq) hqw hbefore
    (hz.of_shape (Packed.shape_setBit _ q b)) (by simp [hset]) fun i _ hi => by simp [hset, hi]
  refine turn.landing hp hx.toNat_lt (Nat.le_of_lt hpq) hqw (by simp [hfree]) fun k hk same => ?_
  refine (he.turnsTo_or_exists_free hx hp hpin hk).resolve_right ?_
  rintro ⟨i, hpi, hiw, hifree, hbit, hne⟩
  have hiq : i < q := Nat.lt_of_not_le fun hqi => hne (same i hqi)
  exact hlow i hpi hiq hifree hbit

/-- A completion found by the search is the nearest one in its direction. -/
theorem landing (h : e.nearestCompletion? b x = some y) : e.Landing b x.toNat y.toNat := by
  rw [nearestCompletion?] at h
  cases hd : e.divergence? x with
  | none =>
      simp only [hd, Option.some.injEq] at h
      subst h
      exact ⟨completes_of_divergence?_eq_none hx hd, .inl rfl, fun k _ hk => hk⟩
  | some p =>
      have hp := he.diverges hx hd
      simp only [hd] at h
      split at h
      · rename_i hpin
        cases h
        exact he.landing_of_pin hx hp hpin
      · rename_i hpin
        obtain ⟨q, hq, rfl⟩ := Option.map_eq_some_iff.mp h
        exact he.landing_of_free hx hp (Bool.eq_not_of_ne hpin) hq

/-- If the search finds nothing, every completion lies on the other side of the value. -/
theorem turnsTo_of_nearestCompletion?_eq_none (h : e.nearestCompletion? b x = none) {k : Nat}
    (hk : e.Completes k) : TurnsTo b k x.toNat := by
  rw [nearestCompletion?] at h
  cases hd : e.divergence? x with
  | none => simp [hd] at h
  | some p =>
      have hp := he.diverges hx hd
      simp only [hd] at h
      split at h
      · cases h
      · rename_i hpin
        have hnone := Option.map_eq_none_iff.mp h
        refine (he.turnsTo_or_exists_free hx hp (Bool.eq_not_of_ne hpin) hk).resolve_right ?_
        rintro ⟨i, hpi, hiw, hfree, hbit, -⟩
        exact freeAbove?_eq_none hnone hpi hiw hfree hbit

end Regular

/-! ## Up and down -/

theorem shape_of_ceilCompletion? {x y : Packed} (h : e.ceilCompletion? x = some y) :
    y.shape = x.shape :=
  shape_of_nearestCompletion? (e.ceilCompletion?_eq x ▸ h)

theorem shape_of_floorCompletion? {x y : Packed} (h : e.floorCompletion? x = some y) :
    y.shape = x.shape :=
  shape_of_nearestCompletion? (e.floorCompletion?_eq x ▸ h)

namespace Regular

variable {x y : Packed} (he : e.Regular) (hx : x.IsValue e.width)
include he hx

/-- A completion is its own nearest completion. -/
theorem ceilCompletion?_of_completes (hc : e.Completes x.toNat) : e.ceilCompletion? x = some x := by
  rw [ceilCompletion?_eq, nearestCompletion?]
  cases hd : e.divergence? x with
  | none => rfl
  | some p => exact absurd rfl ((he.diverges hx hd).ne_of_completes hc)

/-- What `ceilCompletion?` finds is the least completion that is at least the value. -/
theorem isLeast_ceilCompletion (h : e.ceilCompletion? x = some y) :
    IsLeast {n | e.Completes n ∧ x.toNat ≤ n} y.toNat := by
  rw [ceilCompletion?_eq] at h
  have landing := he.landing hx h
  refine ⟨⟨landing.completes, ?_⟩, fun k ⟨hk, hle⟩ => ?_⟩
  · rcases landing.reached with heq | hlt
    · exact Nat.le_of_eq heq.symm
    · exact Nat.le_of_lt (TurnsTo.true_iff_lt.mp hlt)
  · by_contra hlt
    have before := landing.nearest k hk (TurnsTo.true_iff_lt.mpr (Nat.lt_of_not_le hlt))
    exact absurd (TurnsTo.true_iff_lt.mp before) (Nat.not_lt.mpr hle)

theorem lt_of_ceilCompletion?_eq_none (h : e.ceilCompletion? x = none) {k : Nat}
    (hk : e.Completes k) : k < x.toNat := by
  rw [ceilCompletion?_eq] at h
  exact TurnsTo.true_iff_lt.mp (he.turnsTo_of_nearestCompletion?_eq_none hx h hk)

/-- What `floorCompletion?` finds is the greatest completion that is at most the value. -/
theorem isGreatest_floorCompletion (h : e.floorCompletion? x = some y) :
    IsGreatest {n | e.Completes n ∧ n ≤ x.toNat} y.toNat := by
  rw [floorCompletion?_eq] at h
  have landing := he.landing hx h
  refine ⟨⟨landing.completes, ?_⟩, fun k ⟨hk, hle⟩ => ?_⟩
  · rcases landing.reached with heq | hlt
    · exact Nat.le_of_eq heq
    · exact Nat.le_of_lt (TurnsTo.false_iff_lt.mp hlt)
  · by_contra hlt
    have before := landing.nearest k hk (TurnsTo.false_iff_lt.mpr (Nat.lt_of_not_le hlt))
    exact absurd (TurnsTo.false_iff_lt.mp before) (Nat.not_lt.mpr hle)

theorem lt_of_floorCompletion?_eq_none (h : e.floorCompletion? x = none) {k : Nat}
    (hk : e.Completes k) : x.toNat < k := by
  rw [floorCompletion?_eq] at h
  exact TurnsTo.false_iff_lt.mp (he.turnsTo_of_nearestCompletion?_eq_none hx h hk)

end Regular

/-! ## Values with stray bits -/

namespace Regular

variable {x : Packed} (he : e.Regular) (hx : x.Spans e.width)
include he hx

theorem isGreatest_setFreeBelow {p : Nat} (hp : e.width ≤ p) :
    IsGreatest {n | e.Completes n} (e.setFreeBelow p (e.applyPins x)).toNat := by
  have hpinned : (e.applyPins x).Spans e.width := hx.of_shape (shape_applyPins e x)
  have hy : (e.setFreeBelow p (e.applyPins x)).Spans e.width :=
    hpinned.of_shape (shape_resetFreeBelow e false p _)
  have hbit : ∀ i, i < 32 * e.wordCount → (e.setFreeBelow p (e.applyPins x)).bit i =
      if e.isFree i then true else e.current.bit i := by
    intro i hi
    rw [bit_setFreeBelow hpinned hi, bit_applyPins hx hi]
    cases hfree : e.isFree i with
    | false => simp
    | true => simp [Nat.lt_of_lt_of_le (he.lt_of_isFree hi hfree) hp]
  constructor
  · refine (he.agrees_iff hy).mp (agrees_iff_bit.mpr fun i hi hpin => ?_)
    rw [hbit i hi, hpin]
    rfl
  · intro k hk
    refine Nat.le_of_testBit fun i hi => ?_
    have hlt := hk.lt_of_testBit hi
    have hc := Packed.lt_words_of_lt hlt
    rw [hy.testBit_toNat, decide_eq_true hc, Bool.true_and, hbit i hc]
    cases hfree : e.isFree i with
    | true => rfl
    | false => exact (hk.2 i hlt hfree).symm.trans hi

/-- A value with stray bits diverges at the highest of them, which are pinned to zero. So the search
downward finds the greatest completion there is. -/
theorem exists_floorCompletion_of_stray (hstray : 2 ^ e.width ≤ x.toNat) :
    ∃ y, e.floorCompletion? x = some y ∧ IsGreatest {n | e.Completes n ∧ n ≤ x.toNat} y.toNat := by
  obtain ⟨i, hi, hc, hset⟩ : ∃ i, e.width ≤ i ∧ i < 32 * e.wordCount ∧ x.bit i = true := by
    by_contra hclear
    refine Nat.not_lt.mpr hstray (hx.toNat_lt_of_bit fun i hi hc => ?_)
    exact Bool.eq_false_of_not_eq_true fun hset => hclear ⟨i, hi, hc, hset⟩
  have hdiffers : ((x.word (i / 32) ^^^ e.current.word (i / 32)) &&& e.pins.word (i / 32)).getLsbD
      (i % 32) = true := by
    rw [getLsbD_divergence, hset, he.current.bit_of_le hi hc, he.overflow i hi hc]
    rfl
  cases hd : e.divergence? x with
  | none =>
      rw [getLsbD_of_findSome?_highest_eq_none hd hc] at hdiffers
      cases hdiffers
  | some p =>
      obtain ⟨hpc, -, hclear⟩ := getLsbD_of_findSome?_highest hd
      have hip : i ≤ p := by
        by_contra hgt
        rw [hclear i (Nat.lt_of_not_le hgt) hc] at hdiffers
        cases hdiffers
      have hp := Nat.le_trans hi hip
      have hgreatest := he.isGreatest_setFreeBelow hx hp
      have hfound : e.floorCompletion? x = some (e.setFreeBelow p (e.applyPins x)) := by
        simp [floorCompletion?, hd, he.current.bit_of_le hp hpc]
      refine ⟨_, hfound, ⟨hgreatest.1, ?_⟩, fun k hk => hgreatest.2 hk.1⟩
      exact Nat.le_of_lt (Nat.lt_of_lt_of_le hgreatest.1.1 hstray)

end Regular

end Envelope

end BitEnvelope
