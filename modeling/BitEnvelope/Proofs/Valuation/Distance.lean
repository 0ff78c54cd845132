import BitEnvelope.Proofs.Envelope.Modular
import BitEnvelope.Proofs.Valuation.Sound
import Mathlib.Data.Finset.Card

/-!
# The interval by distance from its start

Modulo `2 ^ width`, an interval that restricts the value is the numbers that are reached from its start
in fewer steps upward than its end is. So one subtraction and one comparison decide membership, whether
the interval wraps around or not, and it has as many members as there are steps from its start to its
end.
-/

namespace BitEnvelope

/-! ## Steps upward -/

/-- How many steps lead up from `a` to `b`, where zero follows the last number below `bound`. -/
def stepsUp (bound a b : Nat) : Nat := if a ≤ b then b - a else b + bound - a

/-- The number that `k` steps upward from `a` lead to. -/
def climb (bound a k : Nat) : Nat := if a + k < bound then a + k else a + k - bound

section StepsUp

variable {bound lo hi a b k n : Nat}

theorem stepsUp_lt (ha : a < bound) (hb : b < bound) : stepsUp bound a b < bound := by
  unfold stepsUp
  split <;> omega

theorem climb_lt (ha : a < bound) (hk : k < bound) : climb bound a k < bound := by
  unfold climb
  split <;> omega

theorem stepsUp_climb (ha : a < bound) (hk : k < bound) :
    stepsUp bound a (climb bound a k) = k := by
  unfold stepsUp climb
  split <;> split <;> omega

theorem climb_stepsUp (ha : a < bound) (hb : b < bound) :
    climb bound a (stepsUp bound a b) = b := by
  unfold stepsUp climb
  split <;> split <;> omega

/-- The steps from `a` to `b` are their difference modulo `bound`. -/
theorem natCast_stepsUp (ha : a < bound) (hb : b < bound) :
    (stepsUp bound a b : Int) = ((b : Int) - a) % bound := by
  have hlt := stepsUp_lt ha hb
  have hcongr : ((b : Int) - a) % bound = (stepsUp bound a b : Int) % bound := by
    unfold stepsUp
    split
    · rw [Nat.cast_sub ‹_›]
    · rw [Nat.cast_sub (by omega), Nat.cast_add, add_sub_right_comm, Int.add_emod_right]
  rw [hcongr, Int.emod_eq_of_lt (Int.natCast_nonneg _) (by exact_mod_cast hlt)]

/-- An arc with an end holds the numbers that are nearer to its start than its end is. -/
theorem inArc_iff_stepsUp_lt (hlo : lo < bound) (hhi : hi < bound) (hn : n < bound)
    (hne : lo ≠ hi) : InArc lo hi n ↔ stepsUp bound lo n < stepsUp bound lo hi := by
  unfold stepsUp
  rw [InArc]
  split <;> split <;> omega

/-- An arc with an end has as many members as there are steps from its start to its end, since each
number of steps leads to a member of its own. -/
theorem card_inArc (hlo : lo < bound) (hhi : hi < bound) (hne : lo ≠ hi) :
    ((Finset.range bound).filter (InArc lo hi)).card = stepsUp bound lo hi := by
  have hlength := stepsUp_lt hlo hhi
  rw [← Finset.card_range (stepsUp bound lo hi)]
  -- Counting the steps from the start and taking them are inverse to each other.
  refine Finset.card_nbij' (stepsUp bound lo) (climb bound lo) ?_ ?_ ?_ ?_
  · intro n hn
    simp only [Finset.coe_filter, Finset.mem_range, Set.mem_ofPred_eq] at hn
    simpa using (inArc_iff_stepsUp_lt hlo hhi hn.1 hne).mp hn.2
  · intro k hk
    have hk : k < stepsUp bound lo hi := by simpa using hk
    have hbound := climb_lt hlo (hk.trans hlength)
    have harc : InArc lo hi (climb bound lo k) := by
      rw [inArc_iff_stepsUp_lt hlo hhi hbound hne, stepsUp_climb hlo (hk.trans hlength)]
      exact hk
    simpa using ⟨hbound, harc⟩
  · intro n hn
    simp only [Finset.coe_filter, Finset.mem_range, Set.mem_ofPred_eq] at hn
    exact climb_stepsUp hlo hn.1
  · intro k hk
    have hk : k < stepsUp bound lo hi := by simpa using hk
    exact stepsUp_climb hlo (hk.trans hlength)

end StepsUp

/-! ## Differences of values -/

namespace Envelope

variable {e : Envelope} {x y out : Packed}

@[simp] theorem shape_sub (e : Envelope) (x y out : Packed) : (e.sub x y out).shape = out.shape :=
  (shape_dropOverflow e _).trans (Packed.shape_write out _)

/-- A difference that is written to a storage for the width is read back modulo `2 ^ width`. -/
theorem natCast_toNat_sub (hx : x.Spans e.width) (hy : y.Spans e.width) (hout : out.Spans e.width) :
    ((e.sub x y out).toNat : Int) = ((x.toNat : Int) - y.toNat) % 2 ^ e.width := by
  rw [(hout.of_shape (shape_sub e x y out)).toNat_eq, hx.toNat_eq, hy.toNat_eq]
  exact natOfFirst_sub hx.count_le hy.count_le hout.count_le

/-- The difference of two values is the number of steps from the second up to the first. -/
theorem toNat_sub (hx : x.IsValue e.width) (hy : y.IsValue e.width) (hout : out.Spans e.width) :
    (e.sub x y out).toNat = stepsUp (2 ^ e.width) y.toNat x.toNat := by
  have hsub := natCast_toNat_sub hx.toSpans hy.toSpans hout
  have hsteps := natCast_stepsUp hy.toNat_lt hx.toNat_lt
  rw [Nat.cast_pow, Nat.cast_ofNat, ← hsub] at hsteps
  exact (Int.ofNat.inj hsteps).symm

end Envelope

/-! ## The interval of a valuation -/

variable {width : Nat} {v : Valuation} {x distance length : Packed}

/-- In every valuation that mutations lead to whose interval restricts the value, a value lies in the
interval if and only if its difference from the start is less than that of the end, both taken modulo
`2 ^ width`. So the interval holds as many values as the difference of its bounds says. -/
theorem Reachable.inRange_by_distance (h : Reachable width v) (hrange : v.hasRange = true)
    (hx : x.IsValue width) (hdistance : distance.Spans width) (hlength : length.Spans width) :
    (v.inRange x = (v.sub x v.lo distance).lt (v.sub v.hi v.lo length) ∧
        ((v.sub x v.lo distance).toNat : Int) = ((x.toNat : Int) - v.lo.toNat) % 2 ^ width ∧
        ((v.sub v.hi v.lo length).toNat : Int) = ((v.hi.toNat : Int) - v.lo.toNat) % 2 ^ width) ∧
      ((Finset.range (2 ^ width)).filter fun n => v.inRange (v.encode n) = true).card =
        (v.sub v.hi v.lo length).toNat := by
  have hv := h.sound
  obtain rfl := hv.width_eq
  obtain ⟨-, -, hlo, hhi, -⟩ := hv.regular
  have hne := hv.regular.hasRange_iff.mp hrange
  have hdistance' := hdistance.of_shape (Envelope.shape_sub v.toEnvelope x v.lo distance)
  have hlength' := hlength.of_shape (Envelope.shape_sub v.toEnvelope v.hi v.lo length)
  refine ⟨⟨?_, Envelope.natCast_toNat_sub hx.toSpans hlo.toSpans hdistance,
    Envelope.natCast_toNat_sub hhi.toSpans hlo.toSpans hlength⟩, ?_⟩
  · rw [Bool.eq_iff_iff, hv.regular.inRange_iff hx.toSpans, hdistance'.lt_iff hlength',
      Envelope.toNat_sub hx hlo hdistance, Envelope.toNat_sub hhi hlo hlength]
    exact inArc_iff_stepsUp_lt hlo.toNat_lt hhi.toNat_lt hx.toNat_lt hne
  · rw [Envelope.toNat_sub hhi hlo hlength, ← card_inArc hlo.toNat_lt hhi.toNat_lt hne]
    congr 1
    refine Finset.filter_congr fun n hn => ?_
    have hscratch : v.scratch.Spans v.width := (Packed.isValue_blank v.width).toSpans
    have hencoded : (v.encode n).Spans v.width := (Envelope.isValue_setNat hscratch n).toSpans
    have hvalue : (v.encode n).toNat = n :=
      (Envelope.toNat_setNat hscratch n).trans (Nat.mod_eq_of_lt (Finset.mem_range.mp hn))
    rw [hv.regular.inRange_iff hencoded, hvalue]

/-- The forty-bit numbers from minus three up to one, modulo `2 ^ 40`. -/
def Valuation.aroundZero : Valuation :=
  ((Mutation.restrict (-3) 2).run (blank 40) (Draws.start [] 0)).2.1

/-- One is four steps from the start of five numbers. The destinations were used before. -/
theorem Reachable.inRange_by_distance_aroundZero :
    let v := Valuation.aroundZero
    let distance : Packed := ⟨40, [9, 8, 7]⟩
    let length : Packed := ⟨40, [6, 5]⟩
    Reachable 40 v ∧ v.hasRange = true ∧ v.inRange (v.encode 1) = true ∧
      (v.sub (v.encode 1) v.lo distance).toNat = 4 ∧ (v.sub v.hi v.lo length).toNat = 5 ∧
      ((Finset.range (2 ^ 40)).filter fun n => v.inRange (v.encode n) = true).card = 5 := by
  intro v distance length
  have hv : Reachable 40 v := .run .blank (.restrict (-3) 2) trivial _
  have hrange : v.hasRange = true := by decide
  have hone : (v.encode 1).IsValue 40 := ⟨⟨rfl, by decide⟩, by decide⟩
  have hdistance : distance.Spans 40 := ⟨rfl, by decide⟩
  have hlength : length.Spans 40 := ⟨rfl, by decide⟩
  obtain ⟨⟨hin, -, -⟩, hcard⟩ := hv.inRange_by_distance hrange hone hdistance hlength
  have hfour : (v.sub (v.encode 1) v.lo distance).toNat = 4 := by decide
  have hfive : (v.sub v.hi v.lo length).toNat = 5 := by decide
  exact ⟨hv, hrange, hin.trans (by decide), hfour, hfive, hcard.trans hfive⟩

end BitEnvelope
