import BitEnvelope.Config.Bound
import Mathlib.Tactic.IntervalCases

/-!
# Decimal numerals are read back

The numeral of an integer is one of the texts that stand for it: it has digits only, after a minus
sign if the integer is negative, so nothing is trimmed, no second sign is looked for, and the digits
add up to the magnitude. Hence the bounds that a range text is made from are the ones that are read
from it.
-/

namespace BitEnvelope

/-! ## Digits -/

theorem Numeral.isDigit_of_mem_digits {n : Nat} {c : Char} (h : c ∈ Numeral.digits 10 n) :
    c.isDigit = true := by
  have hdigit : ∀ d, d < 10 → d.digitChar.isDigit = true := by decide
  induction n using Nat.strongRecOn with
  | ind n ih =>
      rw [Numeral.digits] at h
      split at h
      · rename_i hn
        rcases List.mem_append.mp h with hfirst | hlast
        · exact ih (n / 10) (by omega) hfirst
        · rw [List.mem_singleton.mp hlast]
          exact hdigit _ (by omega)
      · rename_i hn
        rw [List.mem_singleton.mp h]
        exact hdigit n (by omega)

theorem Numeral.digits_ne_nil (n : Nat) : Numeral.digits 10 n ≠ [] := by
  rw [Numeral.digits]
  split <;> simp

namespace Integer

theorem readDigits_append {m k : Nat} {xs : List Char} (h : readDigits m xs = .ok k)
    (ys : List Char) : readDigits m (xs ++ ys) = readDigits k ys := by
  induction m, xs using readDigits.induct with
  | case1 m =>
      cases h
      rfl
  | case2 m xs ih => exact ih h
  | case3 m c xs hc d hd ih =>
      rw [List.cons_append]
      rw [readDigits.eq_3 _ _ _ hc] at h ⊢
      simp only [hd] at h ⊢
      exact ih h
  | case4 m c xs hc hd =>
      rw [readDigits.eq_3 _ _ _ hc] at h
      simp only [hd] at h
      cases h

theorem readDigits_digitChar (m : Nat) {d : Nat} (h : d < 10) :
    readDigits m [d.digitChar] = .ok (10 * m + d) := by
  interval_cases d <;> rfl

/-- The digits of a number stand for it. -/
theorem readDigits_digits (n : Nat) : readDigits 0 (Numeral.digits 10 n) = .ok n := by
  induction n using Nat.strongRecOn with
  | ind n ih =>
      rw [Numeral.digits]
      split
      · rw [readDigits_append (ih (n / 10) (by omega)), readDigits_digitChar _ (by omega)]
        exact congrArg Except.ok (Nat.div_add_mod n 10)
      · rw [readDigits_digitChar 0 (by omega), Nat.mul_zero, Nat.zero_add]

/-! ## Signs -/

variable {c : Char} {cs : List Char}

theorem dropSign_of_ne {sign : Char} (h : c ≠ sign) : dropSign sign (c :: cs) = c :: cs := by
  rw [dropSign, beq_eq_false_iff_ne.mpr h]
  rfl

/-- A text that starts with a digit has no sign to drop. -/
theorem readMagnitude_of_isDigit (h : c.isDigit = true) :
    readMagnitude (c :: cs) = readDigits 0 (c :: cs) := by
  have hplus : c ≠ '+' := by
    rintro rfl
    cases h
  have hlow : c ≠ '_' := by
    rintro rfl
    cases h
  rw [readMagnitude, dropSign_of_ne hplus]
  split
  · rename_i heq
    cases heq
  · rename_i heq
    cases heq
    exact absurd rfl hlow
  · rfl

theorem read_of_isDigit (h : c.isDigit = true) :
    read (c :: cs) = (readMagnitude (c :: cs)).map Int.ofNat := by
  rw [read]
  rintro _ heq
  cases heq
  cases h

/-- A minus sign before a digit is dropped. -/
theorem read_minus_of_isDigit (h : c.isDigit = true) :
    read ('-' :: c :: cs) = (readMagnitude (c :: cs)).map fun n => -(n : Int) := by
  have hplus : (some c != some '+') = true := by
    rw [bne_iff_ne]
    rintro heq
    cases heq
    cases h
  have hdrop : dropSign '-' ('-' :: c :: cs) = c :: cs := by
    rw [dropSign, List.head?_cons, hplus]
    rfl
  rw [read, hdrop]

-- Underscores after the first digit mean nothing.
example : read ['-', '1', '_', '0'] = .ok (-10) := rfl

/-- The numeral of an integer stands for it. -/
theorem read_integer (n : Int) : read (Numeral.integer n).toList = .ok n := by
  have hmagnitude : ∀ m c cs, Numeral.digits 10 m = c :: cs →
      c.isDigit = true ∧ readMagnitude (c :: cs) = .ok m := by
    intro m c cs hds
    have hdigit : c.isDigit = true := by
      apply Numeral.isDigit_of_mem_digits (n := m)
      rw [hds]
      exact List.mem_cons_self
    rw [readMagnitude_of_isDigit hdigit, ← hds, readDigits_digits]
    exact ⟨hdigit, rfl⟩
  cases n with
  | ofNat m =>
      obtain ⟨c, cs, hds⟩ := List.exists_cons_of_ne_nil (Numeral.digits_ne_nil m)
      obtain ⟨hdigit, hread⟩ := hmagnitude m c cs hds
      rw [Numeral.integer, Numeral.decimal, String.toList_ofList, hds, read_of_isDigit hdigit, hread]
      rfl
  | negSucc m =>
      obtain ⟨c, cs, hds⟩ := List.exists_cons_of_ne_nil (Numeral.digits_ne_nil (m + 1))
      obtain ⟨hdigit, hread⟩ := hmagnitude (m + 1) c cs hds
      rw [Numeral.integer, String.toList_ofList, hds, read_minus_of_isDigit hdigit, hread]
      rfl

end Integer

/-! ## Bounds -/

theorem Text.trim_of_forall_not_blank {cs : List Char} (h : ∀ c ∈ cs, isBlank c = false) :
    trim cs = cs := by
  have hdrop : ∀ ds : List Char, (∀ c ∈ ds, isBlank c = false) → ds.dropWhile isBlank = ds := by
    intro ds hds
    cases ds with
    | nil => rfl
    | cons c ds => rw [List.dropWhile_cons, hds c List.mem_cons_self]; rfl
  rw [trim, hdrop cs h, hdrop cs.reverse fun c hc => h c (List.mem_reverse.mp hc),
    List.reverse_reverse]

theorem Text.isBlank_of_isDigit {c : Char} (h : c.isDigit = true) : isBlank c = false := by
  simp only [Char.isDigit, Bool.and_eq_true, decide_eq_true_eq, ge_iff_le,
    UInt32.le_iff_toNat_le] at h
  have hlow : 48 ≤ c.toNat := h.1
  have hhigh : c.toNat ≤ 57 := h.2
  simp only [isBlank, Bool.or_eq_false_iff, Bool.and_eq_false_iff, decide_eq_false_iff_not,
    beq_eq_false_iff_ne]
  omega

theorem Numeral.not_blank_of_mem_integer {n : Int} {c : Char}
    (h : c ∈ (Numeral.integer n).toList) : Text.isBlank c = false := by
  cases n with
  | ofNat m =>
      rw [Numeral.integer, Numeral.decimal, String.toList_ofList] at h
      exact Text.isBlank_of_isDigit (isDigit_of_mem_digits h)
  | negSucc m =>
      rw [Numeral.integer, String.toList_ofList, List.mem_cons] at h
      rcases h with rfl | h
      · rfl
      · exact Text.isBlank_of_isDigit (isDigit_of_mem_digits h)

namespace RangeText

theorem readBound_integer (n : Int) : readBound (Numeral.integer n) = .ok n := by
  rw [readBound, Text.trim_of_forall_not_blank fun c hc => Numeral.not_blank_of_mem_integer hc,
    Integer.read_integer]
  rfl

/-- A range text that is made from two integers has them as its bounds. -/
theorem bounds_ofInts (l h : Int) : (ofInts l h).bounds = .ok (l, h) := by
  rw [bounds, ofInts, readBound_integer, readBound_integer]
  rfl

end RangeText

end BitEnvelope
