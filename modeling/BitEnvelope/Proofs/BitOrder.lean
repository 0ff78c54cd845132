import Mathlib.Data.Nat.Bitwise

/-!
# The order of numbers, bit by bit

Two numbers are ordered by the highest bit in which they differ. `TurnsTo b n m` says that this
bit is `b` in `m`: the way from `n` to `m` leads up if `b` is set and down if it is clear. Stating
a search by `TurnsTo` covers both directions at once.
-/

namespace BitEnvelope

/-- The highest bit in which `n` and `m` differ is `b` in `m`. -/
def TurnsTo (b : Bool) (n m : Nat) : Prop :=
  ∃ i, n.testBit i = !b ∧ m.testBit i = b ∧ ∀ j, i < j → n.testBit j = m.testBit j

namespace TurnsTo

variable {b : Bool} {n m : Nat}

theorem swap (h : TurnsTo b n m) : TurnsTo (!b) m n := by
  obtain ⟨i, hn, hm, above⟩ := h
  exact ⟨i, by simpa using hm, hn, fun j hj => (above j hj).symm⟩

/-- Numbers that differ have a highest bit in which they do. -/
theorem exists_highest_ne (h : n ≠ m) :
    ∃ i, n.testBit i ≠ m.testBit i ∧ ∀ j, i < j → n.testBit j = m.testBit j := by
  have hx : n ^^^ m ≠ 0 := fun h0 => h (Nat.xor_eq_zero_iff.mp h0)
  obtain ⟨i, hi, above⟩ := Nat.exists_most_significant_bit hx
  refine ⟨i, ?_, fun j hj => ?_⟩
  · simpa using hi
  · simpa using above j hj

theorem of_ne (b : Bool) (h : n ≠ m) : TurnsTo b n m ∨ TurnsTo b m n := by
  obtain ⟨i, hi, above⟩ := exists_highest_ne h
  by_cases hm : m.testBit i = b
  · exact .inl ⟨i, hm ▸ Bool.eq_not_of_ne hi, hm, above⟩
  · have hm' := Bool.eq_not_of_ne hm
    have hn : n.testBit i = b := by
      simpa [hm'] using Bool.eq_not_of_ne hi
    exact .inr ⟨i, hm', hn, fun j hj => (above j hj).symm⟩

/-- A set bit at the turn leads up. -/
theorem true_iff_lt : TurnsTo true n m ↔ n < m := by
  have up : ∀ {n m : Nat}, TurnsTo true n m → n < m := by
    rintro n m ⟨i, hn, hm, above⟩
    exact Nat.lt_of_testBit i hn hm above
  refine ⟨up, fun h => ?_⟩
  rcases of_ne true (Nat.ne_of_lt h) with hnm | hmn
  · exact hnm
  · exact absurd (up hmn) (Nat.lt_asymm h)

/-- A clear bit at the turn leads down. -/
theorem false_iff_lt : TurnsTo false n m ↔ m < n :=
  ⟨fun h => true_iff_lt.mp h.swap, fun h => (true_iff_lt.mpr h).swap⟩

end TurnsTo

/-- Clearing the lowest set bit and setting the clear bits below it takes one away. -/
theorem add_one_eq_of_testBit {n m q : Nat} (hn : n.testBit q = true)
    (nlow : ∀ j, j < q → n.testBit j = false) (hm : m.testBit q = false)
    (mlow : ∀ j, j < q → m.testBit j = true)
    (above : ∀ j, q < j → m.testBit j = n.testBit j) : m + 1 = n := by
  have hdiv : m / 2 ^ (q + 1) = n / 2 ^ (q + 1) := by
    apply Nat.eq_of_testBit_eq
    intro j
    rw [Nat.testBit_div_two_pow, Nat.testBit_div_two_pow]
    exact above _ (by omega)
  have hnmod : n % 2 ^ (q + 1) = 2 ^ q := by
    apply Nat.eq_of_testBit_eq
    intro j
    rw [Nat.testBit_mod_two_pow, Nat.testBit_two_pow]
    rcases Nat.lt_trichotomy j q with hlt | rfl | hgt
    · simp [nlow j hlt, Nat.ne_of_gt hlt]
    · simp [hn]
    · simp [show ¬ j < q + 1 by omega, Nat.ne_of_lt hgt]
  have hmmod : m % 2 ^ (q + 1) = 2 ^ q - 1 := by
    apply Nat.eq_of_testBit_eq
    intro j
    rw [Nat.testBit_mod_two_pow, Nat.testBit_two_pow_sub_one]
    rcases Nat.lt_trichotomy j q with hlt | rfl | hgt
    · simp [mlow j hlt, hlt, Nat.lt_succ_of_lt hlt]
    · simp [hm]
    · simp [show ¬ j < q + 1 by omega, Nat.not_lt.mpr (Nat.le_of_lt hgt)]
  have hpos := Nat.two_pow_pos q
  rw [← Nat.div_add_mod m (2 ^ (q + 1)), ← Nat.div_add_mod n (2 ^ (q + 1)), hdiv, hnmod, hmmod]
  omega

end BitEnvelope
