import BitEnvelope.Words.Sum
import Mathlib.Tactic.LinearCombination

/-!
# Sums and differences of word lists, exactly

At each place, the word that is written and the carry or the borrow that leaves it make up for what
came in. Over two lists of one length, the words that are written and the flag at the end therefore
give the exact sum or the exact difference.
-/

namespace BitEnvelope.Words

variable {n : Nat} {as bs : List Word}

/-! ## Sums -/

theorem toNat_addStep (x y : Word) (carry : Bool) :
    (addStep x y carry).toNat = x.toNat + y.toNat + carry.toNat := by
  have hx := x.isLt
  have hy := y.isLt
  have hcarry := carry.toNat_lt
  rw [addStep, BitVec.toNat_add, BitVec.toNat_add, BitVec.toNat_setWidth, BitVec.toNat_setWidth,
    BitVec.toNat_setWidth, BitVec.toNat_ofBool]
  omega

theorem toNat_ne_zero {x : BitVec 64} (h : x.toNat < 2) : (x != 0).toNat = x.toNat := by
  cases hx : x != 0 with
  | false =>
      rw [bne_eq_false_iff_eq.mp hx]
      rfl
  | true =>
      have hne : x.toNat ≠ 0 := fun h0 => bne_iff_ne.mp hx (BitVec.eq_of_toNat_eq h0)
      change 1 = x.toNat
      omega

/-- The word that stays and the carry that leaves make up the sum of two words and a carry. -/
theorem word_add_carry (x y : Word) (carry : Bool) :
    ((addStep x y carry).setWidth 32).toNat + 2 ^ 32 * (addStep x y carry >>> 32 != 0).toNat =
      x.toNat + y.toNat + carry.toNat := by
  have hx := x.isLt
  have hy := y.isLt
  have hcarry := carry.toNat_lt
  have hsum := toNat_addStep x y carry
  have hhigh : (addStep x y carry >>> 32).toNat = (addStep x y carry).toNat / 2 ^ 32 := by
    rw [BitVec.toNat_ushiftRight, Nat.shiftRight_eq_div_pow]
  rw [toNat_ne_zero (by omega), hhigh, BitVec.toNat_setWidth, Nat.mod_add_div, hsum]

theorem addFrom_cons (carry : Bool) (a b : Word) (as bs : List Word) :
    addFrom carry (a :: as) (b :: bs) =
      let t := addStep a b carry
      let rest := addFrom (t >>> 32 != 0) as bs
      (t.setWidth 32 :: rest.1, rest.2) := rfl

theorem length_addFrom (carry : Bool) (ha : as.length = n) (hb : bs.length = n) :
    (addFrom carry as bs).1.length = n := by
  induction n generalizing as bs carry with
  | zero =>
      obtain rfl := List.length_eq_zero_iff.mp ha
      rfl
  | succ n ih =>
      obtain ⟨a, as, rfl⟩ := List.exists_cons_of_length_eq_add_one ha
      obtain ⟨b, bs, rfl⟩ := List.exists_cons_of_length_eq_add_one hb
      exact congrArg Nat.succ (ih _ (Nat.succ.inj ha) (Nat.succ.inj hb))

/-- What is written and the carry that leaves the top word make up the sum. -/
theorem toNat_addFrom (carry : Bool) (ha : as.length = n) (hb : bs.length = n) :
    toNat (addFrom carry as bs).1 + 2 ^ (32 * n) * (addFrom carry as bs).2.toNat =
      toNat as + toNat bs + carry.toNat := by
  induction n generalizing as bs carry with
  | zero =>
      obtain rfl := List.length_eq_zero_iff.mp ha
      obtain rfl := List.length_eq_zero_iff.mp hb
      simp [addFrom, toNat]
  | succ n ih =>
      obtain ⟨a, as, rfl⟩ := List.exists_cons_of_length_eq_add_one ha
      obtain ⟨b, bs, rfl⟩ := List.exists_cons_of_length_eq_add_one hb
      have hplace := word_add_carry a b carry
      have hrest := ih (addStep a b carry >>> 32 != 0) (Nat.succ.inj ha) (Nat.succ.inj hb)
      rw [addFrom_cons]
      simp only [toNat]
      rw [Nat.mul_succ, Nat.pow_add]
      linear_combination hplace + 2 ^ 32 * hrest

/-- The sum of two lists of one length is exact, but for the carry out of the top word. -/
theorem toNat_add (ha : as.length = n) (hb : bs.length = n) :
    toNat (add as bs).1 + 2 ^ (32 * n) * (add as bs).2.toNat = toNat as + toNat bs :=
  toNat_addFrom false ha hb

/-! ## Differences -/

/-- The word that stays and what is taken from it make up the word above it, with the borrow that
leaves. -/
theorem word_add_borrow (x y : Word) (borrow : Bool) :
    (x - y - (BitVec.ofBool borrow).setWidth 32).toNat + y.toNat + borrow.toNat =
      x.toNat + 2 ^ 32 *
        (x.ult y || (x - y).ult ((BitVec.ofBool borrow).setWidth 32)).toNat := by
  have hx := x.isLt
  have hy := y.isLt
  have hborrow := borrow.toNat_lt
  have hword : ((BitVec.ofBool borrow).setWidth 32).toNat = borrow.toNat := by
    rw [BitVec.toNat_setWidth, BitVec.toNat_ofBool, Nat.mod_eq_of_lt (by omega)]
  rw [BitVec.ult, BitVec.ult, BitVec.toNat_sub, BitVec.toNat_sub, hword]
  by_cases hxy : x.toNat < y.toNat
  · rw [decide_eq_true hxy, Bool.true_or, Bool.toNat_true]
    omega
  · rw [decide_eq_false hxy, Bool.false_or]
    by_cases hd : (2 ^ 32 - y.toNat + x.toNat) % 2 ^ 32 < borrow.toNat
    · rw [decide_eq_true hd, Bool.toNat_true]
      omega
    · rw [decide_eq_false hd, Bool.toNat_false]
      omega

theorem subFrom_cons (borrow : Bool) (a b : Word) (as bs : List Word) :
    subFrom borrow (a :: as) (b :: bs) =
      let flag := (BitVec.ofBool borrow).setWidth 32
      let rest := subFrom (a.ult b || (a - b).ult flag) as bs
      ((a - b - flag) :: rest.1, rest.2) := rfl

theorem length_subFrom (borrow : Bool) (ha : as.length = n) (hb : bs.length = n) :
    (subFrom borrow as bs).1.length = n := by
  induction n generalizing as bs borrow with
  | zero =>
      obtain rfl := List.length_eq_zero_iff.mp ha
      rfl
  | succ n ih =>
      obtain ⟨a, as, rfl⟩ := List.exists_cons_of_length_eq_add_one ha
      obtain ⟨b, bs, rfl⟩ := List.exists_cons_of_length_eq_add_one hb
      exact congrArg Nat.succ (ih _ (Nat.succ.inj ha) (Nat.succ.inj hb))

/-- What is written and what was taken make up the first list, with the borrow that leaves the top
word. -/
theorem toNat_subFrom (borrow : Bool) (ha : as.length = n) (hb : bs.length = n) :
    toNat (subFrom borrow as bs).1 + toNat bs + borrow.toNat =
      toNat as + 2 ^ (32 * n) * (subFrom borrow as bs).2.toNat := by
  induction n generalizing as bs borrow with
  | zero =>
      obtain rfl := List.length_eq_zero_iff.mp ha
      obtain rfl := List.length_eq_zero_iff.mp hb
      simp [subFrom, toNat]
  | succ n ih =>
      obtain ⟨a, as, rfl⟩ := List.exists_cons_of_length_eq_add_one ha
      obtain ⟨b, bs, rfl⟩ := List.exists_cons_of_length_eq_add_one hb
      have hplace := word_add_borrow a b borrow
      have hrest := ih (a.ult b || (a - b).ult ((BitVec.ofBool borrow).setWidth 32))
        (Nat.succ.inj ha) (Nat.succ.inj hb)
      rw [subFrom_cons]
      simp only [toNat]
      rw [Nat.mul_succ, Nat.pow_add]
      linear_combination hplace + 2 ^ 32 * hrest

/-- The difference of two lists of one length is exact, but for the borrow out of the top word. -/
theorem toNat_sub (ha : as.length = n) (hb : bs.length = n) :
    toNat (sub as bs).1 + toNat bs = toNat as + 2 ^ (32 * n) * (sub as bs).2.toNat :=
  toNat_subFrom false ha hb

/-- The borrow leaves the top word if and only if the first list is the less one. -/
theorem borrow_iff (ha : as.length = n) (hb : bs.length = n) :
    (sub as bs).2 = true ↔ toNat as < toNat bs := by
  have hexact := toNat_sub ha hb
  have hlt := toNat_lt (sub as bs).1
  rw [sub, length_subFrom false ha hb, ← sub] at hlt
  cases hborrow : (sub as bs).2 with
  | false =>
      rw [hborrow, Bool.toNat_false, Nat.mul_zero] at hexact
      exact iff_of_false Bool.false_ne_true (by omega)
  | true =>
      rw [hborrow, Bool.toNat_true, Nat.mul_one] at hexact
      exact iff_of_true rfl (by omega)

/-- A number below a base and a multiple of the base determine each other. -/
theorem eq_of_add_mul_eq {base x y c d : Nat} (hx : x < base) (hy : y < base)
    (h : x + base * c = y + base * d) : x = y ∧ c = d := by
  have hpos : 0 < base := Nat.zero_lt_of_lt hx
  obtain ⟨hc, hx'⟩ := (Nat.div_mod_unique hpos).mpr ⟨h, hx⟩
  obtain ⟨hd, hy'⟩ := (Nat.div_mod_unique hpos).mpr ⟨rfl, hy⟩
  exact ⟨hx'.symm.trans hy', hc.symm.trans hd⟩

/-- Taking away what was added gives the first list back, and the borrow is the carry. -/
theorem sub_add (ha : as.length = n) (hb : bs.length = n) :
    sub (add as bs).1 bs = (as, (add as bs).2) := by
  have hlength : (add as bs).1.length = n := length_addFrom false ha hb
  have hlength' : (sub (add as bs).1 bs).1.length = n := length_subFrom false hlength hb
  have hsum := toNat_add ha hb
  have hdifference := toNat_sub hlength hb
  have hlt : toNat as < 2 ^ (32 * n) := ha ▸ toNat_lt as
  have hlt' : toNat (sub (add as bs).1 bs).1 < 2 ^ (32 * n) := hlength' ▸ toNat_lt _
  obtain ⟨hnumber, hflag⟩ := eq_of_add_mul_eq hlt hlt'
    (c := (sub (add as bs).1 bs).2.toNat) (d := (add as bs).2.toNat) (by omega)
  have hsame : ∀ c d : Bool, c.toNat = d.toNat → c = d := by decide
  exact Prod.ext (eq_of_toNat_eq (hlength'.trans ha.symm) hnumber.symm) (hsame _ _ hflag)

/-! ## In place -/

/-- The sum and the difference in place are exact, but for the flag that leaves the top word, and
the words of the destination beyond them stay. A borrow leaves if and only if the first operand is
the less one, as the comparison of the operands says. Taking away what was added gives the first
operand back, with the borrow as the carry was. -/
theorem addInto_subInto_exact {out : List Word} (ha : as.length = n) (hb : bs.length = n)
    (hout : n ≤ out.length) :
    let sum := addInto as bs out
    let difference := subInto as bs out
    (toNat (sum.1.take n) + sum.2.toNat * 2 ^ (32 * n) = toNat as + toNat bs ∧
      sum.1.drop n = out.drop n ∧ sum.1.length = out.length) ∧
    (toNat (difference.1.take n) + toNat bs = toNat as + difference.2.toNat * 2 ^ (32 * n) ∧
      difference.1.drop n = out.drop n ∧ difference.1.length = out.length) ∧
    ((difference.2 = true ↔ toNat as < toNat bs) ∧
      (difference.2 = true ↔ compare as bs = .lt)) ∧
    ∀ out', n ≤ out'.length →
      (subInto (sum.1.take n) bs out').1.take n = as ∧
        (subInto (sum.1.take n) bs out').2 = sum.2 := by
  intro sum difference
  have hsum : (add as bs).1.length = n := length_addFrom false ha hb
  have hdifference : (sub as bs).1.length = n := length_subFrom false ha hb
  have hwritten : sum.1.take n = (add as bs).1 := take_overwrite hsum hout
  have hwritten' : difference.1.take n = (sub as bs).1 := take_overwrite hdifference hout
  have hborrow : difference.2 = true ↔ toNat as < toNat bs := borrow_iff ha hb
  refine ⟨⟨?_, drop_overwrite hsum hout, length_overwrite out _⟩,
    ⟨?_, drop_overwrite hdifference hout, length_overwrite out _⟩, ⟨hborrow, ?_⟩,
    fun out' hout' => ?_⟩
  · rw [hwritten, Nat.mul_comm]
    exact toNat_add ha hb
  · rw [hwritten', Nat.mul_comm]
    exact toNat_sub ha hb
  · rw [hborrow, compare_eq_compare_toNat (ha.trans hb.symm), Nat.compare_eq_lt]
  · have hback := sub_add ha hb
    have hlength : (sub (add as bs).1 bs).1.length = n := by rw [hback, ha]
    rw [hwritten]
    constructor
    · change (overwrite out' (sub (add as bs).1 bs).1).take n = as
      rw [take_overwrite hlength hout', hback]
    · change (sub (add as bs).1 bs).2 = (add as bs).2
      rw [hback]

/-- Two words in a destination of three that was used before. The carry of the sum goes through both
words and leaves, and what is left is less than what was added. -/
theorem addInto_subInto_exact_full :
    addInto [-1, -1] [2, 0] [5, 5, 5] = ([1, 0, 5], true) ∧
      toNat [1, 0] + 1 * 2 ^ 64 = toNat [-1, -1] + toNat [2, 0] ∧
      (subInto [1, 0] [2, 0] [7, 7, 7]).1.take 2 = [-1, -1] ∧
      (subInto [1, 0] [2, 0] [7, 7, 7]).2 = true ∧
      toNat [1, 0] < toNat [2, 0] ∧ compare [1, 0] [2, 0] = .lt := by
  have hfull : [(-1 : Word), -1].length = 2 := rfl
  have htwo : [(2 : Word), 0].length = 2 := rfl
  have hone : [(1 : Word), 0].length = 2 := rfl
  have hsum : addInto [-1, -1] [2, 0] [5, 5, 5] = ([1, 0, 5], true) := by decide
  obtain ⟨⟨hexact, -⟩, -, -, hback⟩ :=
    addInto_subInto_exact hfull htwo (show 2 ≤ [(5 : Word), 5, 5].length by decide)
  obtain ⟨-, -, ⟨hless, horder⟩, -⟩ :=
    addInto_subInto_exact hone htwo (show 2 ≤ [(7 : Word), 7, 7].length by decide)
  rw [hsum] at hexact hback
  obtain ⟨hwords, hborrow⟩ := hback [7, 7, 7] (by decide)
  exact ⟨hsum, hexact, hwords, hborrow, hless.mp hborrow, horder.mp hborrow⟩

end BitEnvelope.Words
