import BitEnvelope.Envelope.Scatter
import BitEnvelope.Proofs.Draws
import BitEnvelope.Proofs.Envelope.Extremes
import BitEnvelope.Proofs.Envelope.Perturbation
import BitEnvelope.Valuation.Basic

/-!
# Random changes downward

`scatterBelow` clears one of the free set bits of a value. Which one it is depends on the draws only
through one residue for each of these bits, and as many tuples of residues lead to one bit as to any
other. Before the sign prefix is made equal, the bit that is cleared is clear and all bits above it
stay, because the coins that follow write free positions below it only.

Without a sign prefix, every completion below a completion is reached: the highest bit in which the
two differ is free and set in the greater one, so it is a candidate, and the coins can give every
free bit below it.
-/

namespace BitEnvelope

open Nat

variable {x : Packed} {d : Draws}

theorem Draws.bit_flipBits_of_notMem {is : List Nat} {i : Nat} (h : i ∉ is) :
    (d.flipBits is x).1.bit i = x.bit i := by
  induction is generalizing x d with
  | nil => rfl
  | cons j is ih =>
      obtain ⟨hij, his⟩ := List.ne_and_not_mem_of_not_mem_cons h
      exact (ih his).trans (Packed.bit_setBit_of_ne hij _)

/-- The coins can give every tuple of bits. -/
theorem Draws.CanGive.flipBits (is : List Nat) (x : Packed) (f : Nat → Bool) :
    CanGive (Draws.flipBits is x) (x.setBits is f) := by
  induction is generalizing x with
  | nil => exact .pure x
  | cons i is ih =>
      refine (CanGive.coin (f i)).andThen (ih (x.setBit i (f i))) fun d d' h => ?_
      rw [Draws.flipBits, h]

namespace Envelope

variable {e : Envelope}

/-! ## The candidates -/

theorem mem_freeOnes {i : Nat} :
    i ∈ e.freeOnes x ↔ i < e.width ∧ x.bit i = true ∧ e.isFree i = true := by
  rw [freeOnes, List.mem_filter, List.mem_range, Bool.and_eq_true]

theorem sorted_freeOnes (e : Envelope) (x : Packed) : (e.freeOnes x).Pairwise (· < ·) :=
  List.pairwise_lt_range.filter _

open Finset in
/-- How many positions below the width are free. -/
def freeCount (e : Envelope) : Nat := #{i ∈ range e.width | e.isFree i = true}

/-- No value has more free set bits than there are free positions. -/
theorem length_freeOnes_le (e : Envelope) (x : Packed) : (e.freeOnes x).length ≤ e.freeCount := by
  have hnodup : (e.freeOnes x).Nodup := (sorted_freeOnes e x).imp Nat.ne_of_lt
  rw [← List.toFinset_card_of_nodup hnodup]
  apply Finset.card_le_card
  intro i hi
  obtain ⟨hlt, -, hfree⟩ := mem_freeOnes.mp (List.mem_toFinset.mp hi)
  exact Finset.mem_filter.mpr ⟨Finset.mem_range.mpr hlt, hfree⟩

/-! ## The cleared bit -/

/-- With `p` chosen, the bit at `p` is cleared and the free positions below it become coins. -/
theorem scatterBelow_of_choose {p : Nat} {d' : Draws}
    (h : d.choose (e.freeOnes x) = (some p, d')) :
    e.scatterBelow x d =
      (e.extendSign (d'.flipBits ((List.range p).filter e.isFree) (x.setBit p false)).1,
        (d'.flipBits ((List.range p).filter e.isFree) (x.setBit p false)).2) := by
  rw [scatterBelow, h]
  rfl

/-- Without a free set bit, nothing changes and nothing is drawn. -/
theorem scatterBelow_of_freeOnes_eq_nil (h : e.freeOnes x = []) (d : Draws) :
    e.scatterBelow x d = (x, d) := by
  rw [scatterBelow, h]
  rfl

theorem exists_scatterBelow_eq (h : e.freeOnes x ≠ []) (d : Draws) :
    ∃ p ∈ e.freeOnes x, ∃ d' : Draws, e.scatterBelow x d =
      (e.extendSign (d'.flipBits ((List.range p).filter e.isFree) (x.setBit p false)).1,
        (d'.flipBits ((List.range p).filter e.isFree) (x.setBit p false)).2) := by
  obtain ⟨p, hp, hchosen⟩ := Draws.exists_choose_eq h d
  exact ⟨p, hp, _, scatterBelow_of_choose hchosen⟩

/-- The coins leave the cleared bit and all bits above it. -/
theorem bit_flipBits_below {p i : Nat} (h : p ≤ i) :
    (d.flipBits ((List.range p).filter e.isFree) x).1.bit i = x.bit i := by
  apply Draws.bit_flipBits_of_notMem
  intro hmem
  exact Nat.not_lt.mpr h (List.mem_range.mp (List.mem_filter.mp hmem).1)

/-- A bit that is set has a place in the storage, so clearing it leaves it clear. -/
theorem bit_flipBits_cleared {p : Nat} (h : x.bit p = true) :
    (d.flipBits ((List.range p).filter e.isFree) (x.setBit p false)).1.bit p = false := by
  rw [bit_flipBits_below (Nat.le_refl p), Packed.bit_setBit x (Packed.lt_capacity_of_bit h),
    if_pos rfl]

theorem bit_flipBits_above {p i : Nat} (h : p < i) :
    (d.flipBits ((List.range p).filter e.isFree) (x.setBit p false)).1.bit i = x.bit i :=
  (bit_flipBits_below (Nat.le_of_lt h)).trans (Packed.bit_setBit_of_ne (Nat.ne_of_gt h) false)

/-- Without a sign prefix, the cleared bit is the highest one that changes, so the value becomes
smaller. -/
theorem exists_scatterBelow_lt (hsign : e.signedPrefix = 0) (hx : x.Spans e.width)
    (h : e.freeOnes x ≠ []) (d : Draws) :
    ∃ p ∈ e.freeOnes x, (e.scatterBelow x d).1.bit p = false ∧
      (∀ i, p < i → (e.scatterBelow x d).1.bit i = x.bit i) ∧
      (e.scatterBelow x d).1.toNat < x.toNat := by
  obtain ⟨p, hp, d', heq⟩ := exists_scatterBelow_eq h d
  obtain ⟨hlt, hset, -⟩ := mem_freeOnes.mp hp
  have hy : (e.scatterBelow x d).1.Spans e.width := hx.of_shape (e.shape_scatterBelow x d)
  rw [heq, extendSign_of_signedPrefix_eq_zero hsign] at hy ⊢
  have hcleared := bit_flipBits_cleared (e := e) (d := d') hset
  have habove : ∀ i, p < i → _ := fun i hi => bit_flipBits_above (e := e) (x := x) (d := d') hi
  refine ⟨p, hp, hcleared, habove, TurnsTo.false_iff_lt.mp ⟨p, ?_, ?_, fun i hi => ?_⟩⟩
  · rw [hx.testBit_toNat, hset, decide_eq_true (Packed.lt_words_of_lt hlt)]
    rfl
  · rw [hy.testBit_toNat, hcleared, Bool.and_false]
  · rw [hx.testBit_toNat, hy.testBit_toNat, habove i hi]

/-- As many tuples of residues choose one free set bit as any other. -/
theorem card_chosen (hlt : (e.freeOnes x).length < 2 ^ 32) (j : Fin (e.freeOnes x).length)
    (seed : UInt64) :
    Nat.card {r : Draws.Residues (e.freeOnes x).length //
      ((Draws.start r.words seed).choose (e.freeOnes x)).1 = some (e.freeOnes x)[j]} =
      ((e.freeOnes x).length - 1)! := by
  have hnodup : (e.freeOnes x).Nodup := (sorted_freeOnes e x).imp Nat.ne_of_lt
  refine (Nat.card_congr (Equiv.subtypeEquivRight fun r => ?_)).trans (Draws.card_lastZero j)
  have hresidues : (Draws.start r.words seed).residues (e.freeOnes x).length = r :=
    Draws.residues_start_words (Nat.le_of_lt hlt) seed
  obtain ⟨k, hk⟩ := r.exists_lastZero j.pos
  have hchosen : ((Draws.start r.words seed).choose (e.freeOnes x)).1 = some (e.freeOnes x)[k] :=
    congrArg Prod.fst (Draws.choose_of_lastZero hlt (hresidues.symm ▸ hk))
  rw [hchosen]
  constructor
  · intro h
    have hkj : k = j := Fin.ext (hnodup.getElem_inj_iff.mp (Option.some.inj h))
    exact hkj ▸ hk
  · intro hj
    rw [hk.unique hj]

/-- The cleared bit is a fair choice among the free set bits. In increasing order each of them draws
one word, the `k`-th one reduced modulo `k`, and the last whose residue is zero is cleared: the bits
above it stay, and only the sign prefix is written after the coins below it. Of the `n!` tuples of
residues, `(n - 1)!` choose any one of the `n` bits. -/
theorem scatterBelow_fair (hpos : e.freeOnes x ≠ []) (hlt : (e.freeOnes x).length < 2 ^ 32) :
    let candidates := e.freeOnes x
    let n := candidates.length
    (candidates.Pairwise (· < ·) ∧
      ∀ i, i ∈ candidates ↔ i < e.width ∧ x.bit i = true ∧ e.isFree i = true) ∧
    (∀ d : Draws, ∃ j : Fin n, (d.residues n).LastZero j ∧
      d.choose candidates = (some candidates[j], d.skip n) ∧ (d.skip n).used = d.used + n ∧
      let p := candidates[j]
      let flipped := (d.skip n).flipBits ((List.range p).filter e.isFree) (x.setBit p false)
      e.scatterBelow x d = (e.extendSign flipped.1, flipped.2) ∧
        flipped.1.bit p = false ∧ ∀ i, p < i → flipped.1.bit i = x.bit i) ∧
    Nat.card (Draws.Residues n) = n ! ∧
    ∀ (j : Fin n) (seed : UInt64),
      Nat.card {r : Draws.Residues n //
        ((Draws.start r.words seed).choose candidates).1 = some candidates[j]} = (n - 1)! := by
  intro candidates n
  refine ⟨⟨sorted_freeOnes e x, fun i => mem_freeOnes⟩, fun d => ?_, Draws.card_residues n,
    fun j seed => card_chosen hlt j seed⟩
  obtain ⟨j, hj⟩ := (d.residues n).exists_lastZero (List.length_pos_iff.mpr hpos)
  have hchosen : d.choose candidates = (some candidates[j], d.skip n) :=
    Draws.choose_of_lastZero hlt hj
  have hset : x.bit candidates[j] = true := (mem_freeOnes.mp (List.getElem_mem j.isLt)).2.1
  exact ⟨j, hj, hchosen, Draws.used_skip n d, scatterBelow_of_choose hchosen,
    bit_flipBits_cleared hset, fun i hi => bit_flipBits_above hi⟩

/-- Thirteen has three set bits. Two of the six tuples of residues choose bit two. -/
theorem scatterBelow_fair_thirteen :
    let e := (Valuation.blank 8).toEnvelope
    let x := Packed.ofNat 8 13
    let candidates := e.freeOnes x
    candidates = [0, 2, 3] ∧ Nat.card (Draws.Residues candidates.length) = 6 ∧
      (e.scatterBelow x (Draws.start [0, 0, 1, 1, 0] 0)).1.toNat = 10 ∧
      Nat.card {r : Draws.Residues candidates.length //
        ((Draws.start r.words 0).choose candidates).1 = some 2} = 2 := by
  intro e x candidates
  have hcandidates : candidates = [0, 2, 3] := by decide
  have hpos : candidates ≠ [] := by decide
  have hlt : candidates.length < 2 ^ 32 := by decide
  have hthree : candidates.length = 3 := congrArg List.length hcandidates
  have hsecond : 1 < candidates.length := by decide
  have htwo : candidates[(⟨1, hsecond⟩ : Fin candidates.length)] = 2 :=
    List.getElem_of_eq hcandidates hsecond
  obtain ⟨-, -, htuples, hfair⟩ := scatterBelow_fair hpos hlt
  have hchosen := hfair ⟨1, hsecond⟩ 0
  rw [htwo] at hchosen
  refine ⟨hcandidates, ?_, by decide, ?_⟩
  · exact htuples.trans (congrArg factorial hthree)
  · exact hchosen.trans (congrArg (fun n => (n - 1)!) hthree)

/-! ## Values that are reached -/

section Reached

variable {m p : Nat} (hx : x.IsValue e.width) (hc : e.Completes x.toNat) (hm : e.Completes m)
include hx hc hm

/-- A completion that leaves `x` downward at `p` is `x` with `p` cleared and the bits of the
completion at the free positions below. -/
theorem toNat_setBits_below (hset : x.toNat.testBit p = true) (hclear : m.testBit p = false)
    (habove : ∀ i, p < i → x.toNat.testBit i = m.testBit i) :
    ((x.setBit p false).setBits ((List.range p).filter e.isFree) m.testBit).toNat = m := by
  have hp : p < e.width := hc.lt_of_testBit hset
  have hcleared : (x.setBit p false).Spans e.width :=
    hx.toSpans.of_shape (Packed.shape_setBit x p false)
  have hmem : ∀ i, i ∈ (List.range p).filter e.isFree ↔ i < p ∧ e.isFree i = true := by
    intro i
    rw [List.mem_filter, List.mem_range]
  have hstored : ∀ i ∈ (List.range p).filter e.isFree, i < (x.setBit p false).capacity := by
    intro i hi
    exact hcleared.lt_capacity (Packed.lt_words_of_lt (Nat.lt_trans ((hmem i).mp hi).1 hp))
  apply Nat.eq_of_testBit_eq
  intro i
  rw [(hcleared.of_shape (Packed.shape_setBits _ _ _)).testBit_toNat]
  by_cases hi : i < 32 * Word.count e.width
  · rw [decide_eq_true hi, Bool.true_and, Packed.bit_setBits _ hstored]
    split
    · rfl
    · rename_i hout
      rcases Nat.lt_trichotomy i p with hlt | rfl | hgt
      · have hpin : e.isFree i = false :=
          Bool.eq_false_of_not_eq_true fun hfree => hout ((hmem i).mpr ⟨hlt, hfree⟩)
        rw [Packed.bit_setBit_of_ne (Nat.ne_of_lt hlt), ← hx.testBit_eq hi]
        exact hc.testBit_eq_of_pinned hm hpin
      · rw [Packed.bit_setBit x (hx.lt_capacity hi), if_pos rfl]
        exact hclear.symm
      · rw [Packed.bit_setBit_of_ne (Nat.ne_of_gt hgt), ← hx.testBit_eq hi]
        exact habove i hgt
  · have hbeyond : ¬ i < e.width := fun h => hi (Packed.lt_words_of_lt h)
    rw [decide_eq_false hi, Bool.false_and]
    exact (Bool.eq_false_of_not_eq_true (hbeyond ∘ hm.lt_of_testBit)).symm

/-- Without a sign prefix, every completion below a completion is reached. -/
theorem canGive_scatterBelow (hcount : (e.freeOnes x).length < 2 ^ 32) (hsign : e.signedPrefix = 0)
    (hlt : m < x.toNat) :
    ∃ y, y.Spans e.width ∧ y.toNat = m ∧ Draws.CanGive (e.scatterBelow x) y := by
  obtain ⟨p, hset, hclear, habove⟩ := TurnsTo.false_iff_lt.mpr hlt
  have hp : p < e.width := hc.lt_of_testBit hset
  have hfree : e.isFree p = true := by
    by_contra hpin
    have hsame := hc.testBit_eq_of_pinned hm (Bool.eq_false_of_not_eq_true hpin)
    rw [hset, hclear] at hsame
    cases hsame
  have hcandidate : p ∈ e.freeOnes x :=
    mem_freeOnes.mpr ⟨hp, (hx.testBit_of_lt hp).symm.trans hset, hfree⟩
  have hchosen := Draws.CanGive.choose hcount hcandidate
  have hcoins :=
    Draws.CanGive.flipBits ((List.range p).filter e.isFree) (x.setBit p false) m.testBit
  refine ⟨_, ?_, toNat_setBits_below hx hc hm hset hclear habove,
    hchosen.andThen hcoins fun d d' h => ?_⟩
  · exact hx.toSpans.of_shape ((Packed.shape_setBits _ _ _).trans (Packed.shape_setBit x p false))
  · rw [scatterBelow_of_choose h, extendSign_of_signedPrefix_eq_zero hsign]

end Reached

end Envelope

end BitEnvelope
