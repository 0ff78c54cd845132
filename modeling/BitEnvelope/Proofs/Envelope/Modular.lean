import BitEnvelope.Envelope.Arithmetic
import BitEnvelope.Proofs.Envelope.Headroom
import BitEnvelope.Proofs.Words.Product
import BitEnvelope.Proofs.Words.Sum
import BitEnvelope.Valuation.Basic
import Mathlib.Tactic.Zify

/-!
# Arithmetic modulo a power of two

The words of a sum, a difference or a product are exact up to a multiple of `2 ^ (32 * n)`. That is
a multiple of `2 ^ width`, so dropping the stray bits of the top word leaves the result modulo
`2 ^ width`. An exact result needs more than `width` bits if and only if a carry has left, a word
above is not zero, or the top word has a stray bit.
-/

namespace BitEnvelope

/-! ## Words -/

theorem Words.toNat_take_add_drop {ws : List Word} {n : Nat} (h : n ≤ ws.length) :
    toNat (ws.take n) + 2 ^ (32 * n) * toNat (ws.drop n) = toNat ws := by
  have happend := toNat_append (ws.take n) (ws.drop n)
  rw [List.take_append_drop, List.length_take, Nat.min_eq_left h] at happend
  exact happend.symm

/-- A number is zero if and only if all of its words are. -/
theorem Words.any_ne_zero_iff {ws : List Word} : ws.any (· != 0) = true ↔ toNat ws ≠ 0 := by
  induction ws with
  | nil => simp [toNat]
  | cons w ws ih =>
      have hword : w != 0 ↔ w.toNat ≠ 0 := by
        rw [bne_iff_ne, ne_eq, ← BitVec.toNat_inj]
        rfl
      rw [List.any_cons, Bool.or_eq_true, ih, hword, toNat]
      omega

/-- What is written above the words that carry a value goes to the headroom. -/
theorem Packed.headroom_write_append {x : Packed} {low high : List Word} {w : Nat}
    (hlow : low.length = Word.count w) (hfit : (low ++ high).length ≤ x.words.length) :
    (x.write (low ++ high)).headroom w = high ++ x.words.drop (low ++ high).length := by
  rw [headroom, write, Words.overwrite_eq_append hfit, List.append_assoc]
  exact List.drop_left' hlow

namespace Envelope

variable {e : Envelope} {a b out : Packed} {ws : List Word} {low high : Nat}

theorem two_pow_dvd_capacity (e : Envelope) : 2 ^ e.width ∣ 2 ^ (32 * e.wordCount) :=
  Nat.pow_dvd_pow 2 (by unfold wordCount Word.count; omega)

theorem add_capacity_mul_mod :
    (low + 2 ^ (32 * e.wordCount) * high) % 2 ^ e.width = low % 2 ^ e.width := by
  obtain ⟨k, hk⟩ := two_pow_dvd_capacity e
  rw [hk, Nat.mul_assoc, Nat.add_mul_mod_self_left]

/-- A number is below `2 ^ width` if and only if nothing is left above the words that carry a value
and these have no stray bit. -/
theorem two_pow_le_add_capacity_mul_iff :
    2 ^ e.width ≤ low + 2 ^ (32 * e.wordCount) * high ↔ high ≠ 0 ∨ 2 ^ e.width ≤ low := by
  have hle := Nat.le_of_dvd (Nat.two_pow_pos _) (two_pow_dvd_capacity e)
  rcases Nat.eq_zero_or_pos high with rfl | hpos
  · simp
  · have hmul := Nat.le_mul_of_pos_right (2 ^ (32 * e.wordCount)) hpos
    exact ⟨fun _ => .inl (Nat.ne_of_gt hpos), fun _ => by omega⟩

/-! ## Results of an operation -/

theorem length_valueWords (h : e.wordCount ≤ a.words.length) :
    (e.valueWords a).length = e.wordCount := by
  rw [valueWords, List.length_take, Nat.min_eq_left h]

section Written

variable (hn : e.wordCount ≤ ws.length) (hfit : ws.length ≤ out.words.length)
include hn hfit

-- Neither operation looks at the width of the storage, so it can be read as one of `e.width` bits.
theorem natOfFirst_dropOverflow_write :
    (e.dropOverflow (out.write ws)).natOfFirst e.wordCount =
      Words.toNat (ws.take e.wordCount) % 2 ^ e.width := by
  have hspans : Packed.Spans ⟨e.width, (out.write ws).words⟩ e.width :=
    ⟨rfl, by rw [Packed.length_write]; exact Nat.le_trans hn hfit⟩
  rw [← Packed.natOfFirst_write hn hfit]
  exact toNat_dropOverflow hspans

theorem hasOverflow_write_iff :
    e.hasOverflow (out.write ws) = true ↔ 2 ^ e.width ≤ Words.toNat (ws.take e.wordCount) := by
  have hspans : Packed.Spans ⟨e.width, (out.write ws).words⟩ e.width :=
    ⟨rfl, by rw [Packed.length_write]; exact Nat.le_trans hn hfit⟩
  have hfalse := hasOverflow_eq_false_iff hspans
  change e.hasOverflow (out.write ws) = false ↔
    (out.write ws).natOfFirst e.wordCount < 2 ^ e.width at hfalse
  rw [← Bool.not_eq_false, hfalse, Nat.not_lt, Packed.natOfFirst_write hn hfit]

end Written

section Operations

variable (ha : e.wordCount ≤ a.words.length) (hb : e.wordCount ≤ b.words.length)
include ha hb

/-- The sum is written modulo `2 ^ width`, and the flag says that it has more bits. -/
theorem natOfFirst_add (hout : e.wordCount ≤ out.words.length) :
    (e.add a b out).1.natOfFirst e.wordCount =
        (a.natOfFirst e.wordCount + b.natOfFirst e.wordCount) % 2 ^ e.width ∧
      ((e.add a b out).2 = true ↔
        2 ^ e.width ≤ a.natOfFirst e.wordCount + b.natOfFirst e.wordCount) := by
  let sum := Words.add (e.valueWords a) (e.valueWords b)
  have hlength : sum.1.length = e.wordCount :=
    Words.length_addFrom false (length_valueWords ha) (length_valueWords hb)
  have hexact : Words.toNat sum.1 + 2 ^ (32 * e.wordCount) * sum.2.toNat =
      a.natOfFirst e.wordCount + b.natOfFirst e.wordCount :=
    Words.toNat_add (length_valueWords ha) (length_valueWords hb)
  have hfit : sum.1.length ≤ out.words.length := hlength ▸ hout
  have hread := natOfFirst_dropOverflow_write hlength.ge hfit
  have hstray := hasOverflow_write_iff hlength.ge hfit
  rw [List.take_of_length_le hlength.le] at hread hstray
  constructor
  · rw [← hexact, add_capacity_mul_mod]
    exact hread
  · change (sum.2 || e.hasOverflow (out.write sum.1)) = true ↔ _
    rw [Bool.or_eq_true, hstray, ← hexact, two_pow_le_add_capacity_mul_iff]
    cases sum.2 <;> simp

/-- The difference is written modulo `2 ^ width`. -/
theorem natOfFirst_sub (hout : e.wordCount ≤ out.words.length) :
    ((e.sub a b out).natOfFirst e.wordCount : Int) =
      ((a.natOfFirst e.wordCount : Int) - b.natOfFirst e.wordCount) % 2 ^ e.width := by
  let difference := Words.sub (e.valueWords a) (e.valueWords b)
  have hlength : difference.1.length = e.wordCount :=
    Words.length_subFrom false (length_valueWords ha) (length_valueWords hb)
  have hexact : Words.toNat difference.1 + b.natOfFirst e.wordCount =
      a.natOfFirst e.wordCount + 2 ^ (32 * e.wordCount) * difference.2.toNat :=
    Words.toNat_sub (length_valueWords ha) (length_valueWords hb)
  have hfit : difference.1.length ≤ out.words.length := hlength ▸ hout
  have hread := natOfFirst_dropOverflow_write hlength.ge hfit
  rw [List.take_of_length_le hlength.le] at hread
  obtain ⟨k, hk⟩ := two_pow_dvd_capacity e
  have hdifference : (Words.toNat difference.1 : Int) =
      (a.natOfFirst e.wordCount : Int) - b.natOfFirst e.wordCount +
        2 ^ e.width * (k * difference.2.toNat) := by
    rw [hk] at hexact
    zify at hexact
    linear_combination hexact
  calc ((e.dropOverflow (out.write difference.1)).natOfFirst e.wordCount : Int)
      = (Words.toNat difference.1 : Int) % 2 ^ e.width := by
        rw [hread, Int.natCast_emod, Nat.cast_pow, Nat.cast_ofNat]
    _ = _ := by rw [hdifference, Int.add_mul_emod_self_left]

/-- The product is written modulo `2 ^ width` with as many clear words above it. The flag says that
it has more bits, if that is asked for. -/
theorem natOfFirst_mul (hout : 2 * e.wordCount ≤ out.words.length) (check : Bool) :
    (e.mul a b out check).1.natOfFirst e.wordCount =
        a.natOfFirst e.wordCount * b.natOfFirst e.wordCount % 2 ^ e.width ∧
      ((e.mul a b out check).1.headroom e.width).take e.wordCount =
        List.replicate e.wordCount 0 ∧
      ((e.mul a b out check).2 = true ↔
        check = true ∧ 2 ^ e.width ≤ a.natOfFirst e.wordCount * b.natOfFirst e.wordCount) := by
  let product := Words.mul (e.valueWords a) (e.valueWords b)
  let written := product.take e.wordCount ++ List.replicate e.wordCount 0
  have hlength : product.length = 2 * e.wordCount := Words.length_mul (length_valueWords ha)
  have hn : e.wordCount ≤ product.length := by omega
  have hfit : product.length ≤ out.words.length := hlength ▸ hout
  have hlow : (product.take e.wordCount).length = e.wordCount := List.length_take_of_le hn
  have hwritten : written.length = 2 * e.wordCount := by
    rw [List.length_append, hlow, List.length_replicate, Nat.two_mul]
  have hwrittenFit : written.length ≤ out.words.length := hwritten ▸ hout
  have htake : written.take e.wordCount = product.take e.wordCount := List.take_left' hlow
  have hexact : Words.toNat (product.take e.wordCount) +
      2 ^ (32 * e.wordCount) * Words.toNat (product.drop e.wordCount) =
      a.natOfFirst e.wordCount * b.natOfFirst e.wordCount :=
    (Words.toNat_take_add_drop hn).trans
      (Words.toNat_mul (length_valueWords ha) (length_valueWords hb))
  refine ⟨?_, ?_, ?_⟩
  · have hread := natOfFirst_dropOverflow_write (e := e) (by omega) hwrittenFit
    rw [htake] at hread
    rw [← hexact, add_capacity_mul_mod]
    exact hread
  · change ((e.dropOverflow (out.write written)).headroom e.width).take e.wordCount = _
    rw [headroom_dropOverflow, Packed.headroom_write_append hlow hwrittenFit,
      List.take_left' List.length_replicate]
  · have hstray := hasOverflow_write_iff hn hfit
    change (check && (e.hasOverflow (out.write product) ||
      (product.drop e.wordCount).any (· != 0))) = true ↔ _
    rw [Bool.and_eq_true, Bool.or_eq_true, hstray, Words.any_ne_zero_iff, ← hexact,
      two_pow_le_add_capacity_mul_iff, or_comm]

/-- Sums, differences and products of operands that may have stray bits are right modulo
`2 ^ width`, whatever the destination held. The flags say when the exact result has more bits. -/
theorem arithmetic_modulo (hout : 2 * e.wordCount ≤ out.words.length) :
    let x := a.natOfFirst e.wordCount
    let y := b.natOfFirst e.wordCount
    ((e.add a b out).1.natOfFirst e.wordCount = (x + y) % 2 ^ e.width ∧
      ((e.add a b out).2 = true ↔ 2 ^ e.width ≤ x + y)) ∧
    ((e.sub a b out).natOfFirst e.wordCount : Int) = ((x : Int) - y) % 2 ^ e.width ∧
    ∀ check,
      (e.mul a b out check).1.natOfFirst e.wordCount = x * y % 2 ^ e.width ∧
        ((e.mul a b out check).1.headroom e.width).take e.wordCount =
          List.replicate e.wordCount 0 ∧
        ((e.mul a b out check).2 = true ↔ check = true ∧ 2 ^ e.width ≤ x * y) := by
  have hsingle : e.wordCount ≤ out.words.length := by omega
  exact ⟨natOfFirst_add ha hb hsingle, natOfFirst_sub ha hb hsingle, natOfFirst_mul ha hb hout⟩

end Operations

/-- Forty bits take two words. The top word of the first operand is full, so the operand has
stray bits, and the destination was used before. -/
theorem arithmetic_modulo_forty :
    let e := (Valuation.blank 40).toEnvelope
    let a : Packed := ⟨40, [-1, -1, 0, 0]⟩
    let b : Packed := ⟨40, [3, 0, 0, 0]⟩
    let out : Packed := ⟨40, [5, 5, 5, 5]⟩
    e.wordCount = 2 ∧ a.natOfFirst 2 = 2 ^ 64 - 1 ∧ b.natOfFirst 2 = 3 ∧
      (e.add a b out).1.natOfFirst 2 = 2 ∧ (e.add a b out).2 = true ∧
      ((e.sub a b out).natOfFirst 2 : Int) = 2 ^ 40 - 4 ∧
      (e.mul a b out true).1.natOfFirst 2 = 2 ^ 40 - 3 ∧
      ((e.mul a b out true).1.headroom 40).take 2 = [0, 0] ∧
      (e.mul a b out true).2 = true := by
  intro e a b out
  have hcount : e.wordCount = 2 := by decide
  have ha : e.wordCount ≤ a.words.length := by decide
  have hb : e.wordCount ≤ b.words.length := by decide
  have hout : 2 * e.wordCount ≤ out.words.length := by decide
  obtain ⟨⟨hsum, hcarry⟩, hdifference, hproduct⟩ := arithmetic_modulo ha hb hout
  obtain ⟨hvalue, habove, hflag⟩ := hproduct true
  rw [hcount] at hsum hcarry hdifference hvalue habove hflag
  have hx : a.natOfFirst 2 = 2 ^ 64 - 1 := by decide
  have hy : b.natOfFirst 2 = 3 := by decide
  have hwidth : e.width = 40 := by decide
  rw [hx, hy, hwidth] at hsum hcarry hdifference hvalue hflag
  exact ⟨hcount, hx, hy, hsum.trans (by decide), hcarry.mpr (by decide),
    hdifference.trans (by decide), hvalue.trans (by decide), habove, hflag.mpr (by decide)⟩

end Envelope

end BitEnvelope
