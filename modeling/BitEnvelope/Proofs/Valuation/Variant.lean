import BitEnvelope.Proofs.Envelope.Scatter
import BitEnvelope.Proofs.Valuation.Sound
import Mathlib.Data.BitVec

/-!
# Random completions

`variant` draws a completion of the pins: each free bit is the bit of a drawn word, each pinned bit
is the pinned value, and what the destination held before has no part in it. Lists of `n` words are
in bijection with tuples of `32 * n` bits, and a completion fixes the bits at the free positions and
no others. So every completion is drawn by the same number of lists of words.
-/

namespace BitEnvelope

/-! ## Words as tuples of bits -/

namespace Words

variable {n : Nat}

/-- The bits of `n` words, lowest first. -/
def bits (ws : Fin n → Word) (i : Fin (32 * n)) : Bool :=
  (ws ⟨i / 32, by omega⟩).getLsbD (i % 32)

theorem bits_injective : Function.Injective (bits (n := n)) := by
  intro ws vs h
  funext k
  apply BitVec.eq_of_getLsbD_eq
  intro j hj
  have hbit := congrFun h ⟨32 * k + j, by omega⟩
  have hdiv : (32 * k.val + j) / 32 = k := by omega
  have hmod : (32 * k.val + j) % 32 = j := by omega
  simpa only [bits, hdiv, hmod] using hbit

theorem card_words (n : Nat) : Nat.card (Fin n → Word) = 2 ^ (32 * n) := by
  rw [Nat.card_fun, Nat.card_congr BitVec.equivFin.toEquiv, Nat.card_fin, Nat.card_fin,
    ← Nat.pow_mul]

theorem bits_bijective : Function.Bijective (bits (n := n)) := by
  refine (Nat.bijective_iff_injective_and_card _).mpr ⟨bits_injective, ?_⟩
  rw [card_words, Nat.card_fun, Nat.card_fin, Nat.card_eq_fintype_card, Fintype.card_bool]

end Words

open Finset in
/-- Tuples of bits that are given at the positions in `p` and open at the others. -/
theorem card_bits_given {n : Nat} (p g : Nat → Bool) :
    Nat.card {f : Fin n → Bool // ∀ i : Fin n, p i = true → f i = g i} =
      2 ^ (n - #{i ∈ range n | p i = true}) := by
  have hplace : ∀ i : Fin n, Nat.card {b : Bool // p i = true → b = g i} =
      if p i = true then 1 else 2 := by
    intro i
    cases p i with
    | false => simp
    | true => simp
  have hopen : #{i ∈ range n | ¬ p i = true} = n - #{i ∈ range n | p i = true} := by
    have hsum := card_filter_add_card_filter_not (s := range n) fun i => p i = true
    rw [card_range] at hsum
    omega
  calc Nat.card {f : Fin n → Bool // ∀ i : Fin n, p i = true → f i = g i}
      = Nat.card ((i : Fin n) → {b : Bool // p i = true → b = g i}) :=
        Nat.card_congr (Equiv.subtypePiEquivPi (p := fun (i : Fin n) b => p i = true → b = g i))
    _ = ∏ i : Fin n, if p i = true then 1 else 2 := by
        rw [Nat.card_pi]
        exact prod_congr rfl fun i _ => hplace i
    _ = ∏ i ∈ range n, if p i = true then 1 else 2 :=
        Fin.prod_univ_eq_prod_range (fun i => if p i = true then 1 else 2) n
    _ = 2 ^ #{i ∈ range n | ¬ p i = true} := by rw [prod_ite, prod_const_one, one_mul, prod_const]
    _ = 2 ^ (n - #{i ∈ range n | p i = true}) := by rw [hopen]

namespace Envelope

variable {e : Envelope} {out : Packed} {d : Draws}

theorem variant_draws : (e.variant out d).2 = d.skip e.wordCount :=
  congrArg Prod.snd (Draws.take_eq e.wordCount d)

section Bits

variable (hsign : e.signedPrefix = 0) (hout : e.wordCount ≤ out.words.length)
include hsign hout

/-- A free bit is drawn, and a pinned one has the pinned value. -/
theorem testBit_variant (d : Draws) (i : Nat) :
    ((e.variant out d).1.natOfFirst e.wordCount).testBit i =
      (decide (i < e.width) &&
        if e.isFree i then (d.nth (i / 32)).getLsbD (i % 32) else e.current.bit i) := by
  let drawn : Packed := out.mapWords e.wordCount
    fun i _ => (d.take e.wordCount).1.getD i 0 &&& ~~~e.pins.word i
  have hdrawn : e.wordCount ≤ drawn.words.length := by
    rwa [Packed.length_mapWords]
  have hpinned : e.wordCount ≤ (e.applyPins drawn).words.length := by
    rwa [(Prod.mk.inj (e.shape_applyPins drawn)).2]
  have hvariant : (e.variant out d).1.natOfFirst e.wordCount =
      (e.dropOverflow (e.applyPins drawn)).natOfFirst e.wordCount := by
    rw [variant]
    dsimp only
    rw [extendSign_of_signedPrefix_eq_zero hsign]
  rw [hvariant, Packed.testBit_natOfFirst]
  by_cases hi : i < 32 * e.wordCount
  · have hword : i / 32 < e.wordCount := by omega
    rw [bit_dropOverflow_of_stored hpinned hi, bit_applyPins_of_stored hdrawn hi,
      Packed.bit_mapWords (Nat.lt_of_lt_of_le hword hout), if_pos hword, BitVec.getLsbD_and,
      Draws.getD_take hword, BitVec.getLsbD_not]
    rw [decide_eq_true hi, decide_eq_true (Nat.mod_lt i (by decide)), Bool.true_and, Bool.true_and]
    change (_ && if e.isFree i = true then _ && e.isFree i else _) = _
    cases e.isFree i with
    | false => rfl
    | true => rw [if_pos rfl, if_pos rfl, Bool.and_true]
  · have hge : ¬ i < e.width := fun h => hi (Packed.lt_words_of_lt h)
    rw [decide_eq_false hi, decide_eq_false hge, Bool.false_and, Bool.false_and]

theorem completes_variant (d : Draws) :
    e.Completes ((e.variant out d).1.natOfFirst e.wordCount) := by
  constructor
  · apply Nat.lt_pow_two_of_testBit
    intro i hi
    rw [testBit_variant hsign hout, decide_eq_false (Nat.not_lt.mpr hi), Bool.false_and]
  · intro i hi hpin
    rw [testBit_variant hsign hout, decide_eq_true hi, hpin]
    rfl

end Bits

namespace Regular

variable (he : e.Regular)
include he

/-- Every free position that a drawn word reaches lies below the width. -/
theorem card_free_words :
    ((Finset.range (32 * e.wordCount)).filter fun i => e.isFree i = true).card = e.freeCount := by
  apply congrArg Finset.card
  ext i
  rw [Finset.mem_filter, Finset.mem_filter, Finset.mem_range, Finset.mem_range]
  constructor
  · rintro ⟨hi, hfree⟩
    exact ⟨he.lt_of_isFree hi hfree, hfree⟩
  · rintro ⟨hi, hfree⟩
    exact ⟨Packed.lt_words_of_lt hi, hfree⟩

variable (hsign : e.signedPrefix = 0) (hout : e.wordCount ≤ out.words.length)
include hsign hout

/-- A completion is drawn if and only if the words have its bits at the free positions. -/
theorem variant_start_eq_iff {ws : Fin e.wordCount → Word} {m : Nat} (hm : e.Completes m)
    (rest : List Word) (seed : UInt64) :
    (e.variant out (Draws.start (List.ofFn ws ++ rest) seed)).1.natOfFirst e.wordCount = m ↔
      ∀ i : Fin (32 * e.wordCount), e.isFree i = true → Words.bits ws i = m.testBit i := by
  have hword : ∀ i (hi : i < 32 * e.wordCount),
      ((Draws.start (List.ofFn ws ++ rest) seed).nth (i / 32)).getLsbD (i % 32) =
        Words.bits ws ⟨i, hi⟩ := by
    intro i hi
    exact congrArg (BitVec.getLsbD · (i % 32)) (Draws.nth_start ⟨i / 32, by omega⟩ rest seed)
  constructor
  · rintro rfl i hfree
    rw [testBit_variant hsign hout, decide_eq_true (he.lt_of_isFree i.isLt hfree), hfree,
      hword i i.isLt]
    rfl
  · intro h
    apply Nat.eq_of_testBit_eq
    intro i
    rw [testBit_variant hsign hout]
    by_cases hi : i < e.width
    · rw [decide_eq_true hi, Bool.true_and]
      cases hfree : e.isFree i with
      | false => exact (hm.2 i hi hfree).symm
      | true =>
          have hwords := Packed.lt_words_of_lt hi
          exact (hword i hwords).trans (h ⟨i, hwords⟩ hfree)
    · rw [decide_eq_false hi, Bool.false_and]
      exact (Bool.eq_false_of_not_eq_true (hi ∘ hm.lt_of_testBit)).symm

end Regular

end Envelope

/-- Without a sign prefix, `variant` draws uniformly from the completions of the pins. Whatever the
destination held, it draws one word for each of its words and gives a completion, and each
completion comes from the same number of lists of words: of the bits that are drawn, it fixes the
free ones. -/
theorem Valuation.Sound.variant_uniform {width : Nat} {v : Valuation} {out : Packed}
    (hv : v.Sound width) (hsign : v.signedPrefix = 0) (hout : v.wordCount ≤ out.words.length) :
    (∀ d : Draws, (v.variant out d).2 = d.skip v.wordCount ∧
      (v.variant out d).2.used = d.used + v.wordCount ∧
      v.Completes ((v.variant out d).1.natOfFirst v.wordCount)) ∧
    Nat.card (Fin v.wordCount → Word) = 2 ^ (32 * v.wordCount) ∧
    ∀ m, v.Completes m → ∀ (rest : List Word) (seed : UInt64),
      Nat.card {ws : Fin v.wordCount → Word //
        (v.variant out (Draws.start (List.ofFn ws ++ rest) seed)).1.natOfFirst v.wordCount = m} =
        2 ^ (32 * v.wordCount - v.freeCount) := by
  have hregular := hv.regular
  refine ⟨fun d => ⟨Envelope.variant_draws, ?_, Envelope.completes_variant hsign hout d⟩,
    Words.card_words _, fun m hm rest seed => ?_⟩
  · rw [Envelope.variant_draws, Draws.used_skip]
  · rw [← hregular.card_free_words, ← card_bits_given v.isFree m.testBit]
    refine Nat.card_congr ((Equiv.ofBijective _ Words.bits_bijective).subtypeEquiv fun ws => ?_)
    exact hregular.variant_start_eq_iff hsign hout hm rest seed

/-- Seven of eight bits are free and the lowest is pinned. The interval has no part in it: seven
lies in its gap and is drawn as often as any other odd number. -/
theorem Valuation.Sound.variant_uniform_oddOutsideGap :
    let v := oddOutsideGap
    let out : Packed := ⟨8, [-1, -1]⟩
    v.Sound 8 ∧ v.freeCount = 7 ∧ ¬ v.Allows 7 ∧ v.Completes 7 ∧
      (v.variant out (Draws.start [6] 0)).1.natOfFirst v.wordCount = 7 ∧
      Nat.card {ws : Fin v.wordCount → Word //
        (v.variant out (Draws.start (List.ofFn ws ++ []) 0)).1.natOfFirst v.wordCount = 7} =
        2 ^ 25 := by
  intro v out
  have hv : v.Sound 8 := reachable_oddOutsideGap.sound
  have hseven : v.Completes 7 := ⟨by decide, by decide⟩
  have hopen : 32 * v.wordCount - v.freeCount = 25 := by decide
  have hout : v.wordCount ≤ out.words.length := by decide
  obtain ⟨-, -, huniform⟩ := hv.variant_uniform (by decide) hout
  exact ⟨hv, by decide, by decide, hseven, by decide,
    (huniform 7 hseven [] 0).trans (congrArg (2 ^ ·) hopen)⟩

end BitEnvelope
