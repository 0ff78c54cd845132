import BitEnvelope.Json.NumberReader
import BitEnvelope.Proofs.Json.Run
import BitEnvelope.Text.Numeral
import Mathlib.Tactic.IntervalCases

/-!
# The digits of a size

A number that is written as the digits of an integer below `2 ^ 64` keeps every digit, so what is
kept is the integer itself. Its product with a power of ten that is one is far within the range of
doubles, hence a strict reader does not refuse it either.
-/

namespace BitEnvelope.Json.NumberReader

-- As in `NumberReader`, `2 ^ b` is the power of the core library.
attribute [local instance (high)] instPowNat

variable (strict : Bool)

/-- The number is still open after the character `c`. -/
abbrev Continues (r : NumberReader) (c : Char) (s : NumberReader) : Prop := r.feed c = .ok (some s)

/-- The reader after the digits of `n`. -/
def ofNat (strict : Bool) (n : Nat) : NumberReader :=
  { blank strict with phase := if n = 0 then .zero else .whole, whole := n, kept := n }

theorem digit?_digitChar {d : Nat} (h : d < 10) : Integer.digit? d.digitChar = some d := by
  interval_cases d <;> rfl

theorem start?_digitChar {d : Nat} (h : d < 10) :
    start? strict d.digitChar = some (ofNat strict d) := by
  interval_cases d <;> rfl

theorem feed_digitChar {n d : Nat} (hn : n ≠ 0) (hd : d < 10) (hsize : 10 * n + d < 2 ^ 64) :
    (ofNat strict n).feed d.digitChar = .ok (some (ofNat strict (10 * n + d))) := by
  have hphase : (ofNat strict n).phase = .whole := if_neg hn
  have hpush : (ofNat strict n).pushWhole d = ofNat strict (10 * n + d) := by
    have hfits : ¬ 2 ^ 64 ≤ 10 * n + d := Nat.not_le.mpr hsize
    have hpositive : 10 * n + d ≠ 0 := by omega
    simp only [pushWhole, ofNat, blank, hn, hpositive, hfits, if_false, reduceCtorEq, false_and,
      decide_false, Bool.or_false, Bool.false_eq_true]
  simp only [feed, hphase, digit?_digitChar hd, hpush]

/-- The character `c` is a further digit of a size. -/
def Extends (strict : Bool) (r : NumberReader) (c : Char) (s : NumberReader) : Prop :=
  r.Continues c s ∧ ∃ m, m < 2 ^ 64 ∧ r = ofNat strict m

/-- The first digit starts the number, and the others lead to its end. -/
theorem exists_run_digits {n : Nat} (h : n < 2 ^ 64) :
    ∃ c cs r, Numeral.digits 10 n = c :: cs ∧ start? strict c = some r ∧
      Run (Extends strict) r cs (ofNat strict n) := by
  induction n using Nat.strongRecOn with
  | ind n ih =>
      rw [Numeral.digits]
      split
      · rename_i hn
        have hback : 10 * (n / 10) + n % 10 = n := Nat.div_add_mod n 10
        obtain ⟨c, cs, r, hdigits, hstart, hrun⟩ := ih (n / 10) (by omega) (by omega)
        have hlast : Extends strict (ofNat strict (n / 10)) (n % 10).digitChar
            (ofNat strict n) := by
          have hfeed := feed_digitChar strict (n := n / 10) (d := n % 10) (by omega) (by omega)
            (by omega)
          rw [hback] at hfeed
          exact ⟨hfeed, n / 10, by omega, rfl⟩
        refine ⟨c, cs ++ [(n % 10).digitChar], r, ?_, hstart, hrun.append (.cons hlast .nil)⟩
        rw [hdigits, List.cons_append]
      · exact ⟨n.digitChar, [], _, rfl, start?_digitChar strict (by omega), .nil⟩

/-! ## The end of the number -/

/-- Rounding at most doubles a number. -/
theorem roundToDouble_le (n : Nat) : roundToDouble n ≤ 2 * n := by
  rw [roundToDouble]
  split
  · omega
  · rename_i hn
    have hpos : n ≠ 0 := by
      rintro rfl
      exact hn (by decide)
    have hunit : 2 ^ (n.log2 - 52) ≤ n :=
      Nat.le_trans (Nat.pow_le_pow_right (by decide) (by omega)) (Nat.log2_self_le hpos)
    have hmul : n / 2 ^ (n.log2 - 52) * 2 ^ (n.log2 - 52) ≤ n := Nat.div_mul_le_self n _
    dsimp only
    split
    · rw [Nat.add_mul]
      omega
    · omega

theorem outOfRange_ofNat {n : Nat} (h : n < 2 ^ 64) : (ofNat strict n).outOfRange = false := by
  have hround : roundToDouble n < 2 ^ 65 := by
    have := roundToDouble_le n
    omega
  have hlimit : 2 ^ 65 ≤ 2 ^ (1024 : Nat) - 2 ^ (970 : Nat) := by decide +kernel
  have hone : roundToDouble (10 ^ (0 : Int).toNat) = 1 := by decide
  have hpower : (ofNat strict n).power = 0 := rfl
  have hkept : (ofNat strict n).kept = n := rfl
  have hsmall : ¬ 2 ^ (1024 : Nat) - 2 ^ (970 : Nat) ≤
      roundToDouble n * roundToDouble (10 ^ (0 : Int).toNat) := by
    rw [hone, Nat.mul_one]
    exact Nat.not_le.mpr (Nat.lt_of_lt_of_le hround hlimit)
  rw [outOfRange, hpower, hkept, decide_eq_false hsmall, Bool.or_false]
  exact Bool.and_false _

theorem size?_ofNat {n : Nat} (h : n < 2 ^ 64) :
    (ofNat strict n).size? = some (UInt64.ofNat n) := by
  by_cases hn : n = 0
  · subst hn
    rfl
  · have hphase : (ofNat strict n).phase = .whole := if_neg hn
    have htest : (!(ofNat strict n).negative && (ofNat strict n).whole < 2 ^ 64) = true :=
      decide_eq_true h
    simp only [size?, hphase]
    exact if_pos htest

theorem close_ofNat {n : Nat} (h : n < 2 ^ 64) :
    (ofNat strict n).close = .ok (.number (some (UInt64.ofNat n))) := by
  rw [close, outOfRange_ofNat strict h, Bool.and_false, size?_ofNat strict h]
  rfl

/-- No number goes on with the character `c`. -/
def Ends (c : Char) : Prop := Integer.digit? c = none ∧ c ≠ '.' ∧ isExponentLetter c = false

instance {c : Char} : Decidable (Ends c) := inferInstanceAs (Decidable (_ ∧ _ ∧ _))

/-- Where a number may end, such a character closes it. -/
theorem feed_end_of_complete {r : NumberReader} {c : Char} (hr : r.complete = true) (h : Ends c) :
    r.feed c = .ok none := by
  obtain ⟨hdigit, hpoint, hexponent⟩ := h
  have hbeq : (c == '.') = false := beq_eq_false_iff_ne.mpr hpoint
  rw [complete] at hr
  rw [feed, hdigit]
  cases hphase : r.phase with
  | zero | whole | fraction =>
      simp [hbeq, hexponent]
  | exponentDigits => rfl
  | sign | point | exponent | exponentSign =>
      rw [hphase] at hr
      cases hr

theorem complete_ofNat (n : Nat) : (ofNat strict n).complete = true := by
  rw [complete, ofNat]
  by_cases hn : n = 0
  · rw [if_pos hn]
  · rw [if_neg hn]

end BitEnvelope.Json.NumberReader
