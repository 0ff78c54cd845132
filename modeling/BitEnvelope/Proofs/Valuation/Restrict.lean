import BitEnvelope.Proofs.Valuation.Sound

/-!
# What a restriction keeps

The interval of a valuation is a single arc, but the numbers that a request shares with it can be
two arcs: above the start of the interval one meets the end of the request, then its start, and
then the end of the interval. A restriction keeps every requested value of the envelope unless this
happens, and then it keeps only the values from the start of the request on.
-/

namespace BitEnvelope

open BitEnvelope.Valuation BitEnvelope.Envelope

variable {width : Nat} {v w : Valuation}

/-- A requested value of the envelope is still one after a restriction, unless the request splits
the interval in two and the value lies in the first piece. -/
theorem Reachable.allows_restrict_iff (h : Reachable width v) {l r : Int}
    (hlr : ¬ l ≡ r [ZMOD 2 ^ width]) (hok : v.restrict l r = .ok w) {n : Nat}
    (hn : InArc (v.residue l) (v.residue r) n) :
    w.Allows n ↔ v.Allows n ∧
      ¬ (Splits v.lo.toNat v.hi.toNat (v.residue l) (v.residue r) ∧
        InArc v.lo.toNat (v.residue r) n) := by
  have hv := h.sound
  obtain rfl := hv.width_eq
  have hne : v.residue l ≠ v.residue r := fun heq => hlr (v.residue_eq_iff.mp heq)
  rcases eq_or_sameValues_of_restrict hv.regular hok with ⟨heq, -⟩ | ⟨-, hsame, -⟩
  · exact absurd heq hne
  · rw [hsame.allows_iff]
    exact hv.regular.allows_narrowed_iff hne hn

/-- Up from its start at eleven, the interval around the gap meets twenty, then two hundred, and
then its end at five: of the requested values, thirteen goes and three stays. -/
theorem Reachable.allows_restrict_iff_oddOutsideGap :
    Reachable 8 oddOutsideGap ∧ ¬ (200 : Int) ≡ 20 [ZMOD 2 ^ 8] ∧
      ∃ w, oddOutsideGap.restrict 200 20 = .ok w ∧
        oddOutsideGap.Allows 13 ∧ ¬ w.Allows 13 ∧ w.Allows 3 := by
  have hlr : ¬ (200 : Int) ≡ 20 [ZMOD 2 ^ 8] := by decide
  obtain ⟨w, hok⟩ : ∃ w, oddOutsideGap.restrict 200 20 = .ok w :=
    ⟨((Mutation.restrict 200 20).run oddOutsideGap (Draws.start [] 0)).2.1, by rfl⟩
  have hthirteen : InArc (oddOutsideGap.residue 200) (oddOutsideGap.residue 20) 13 := by
    decide
  have hthree : InArc (oddOutsideGap.residue 200) (oddOutsideGap.residue 20) 3 := by
    decide
  have hlost := reachable_oddOutsideGap.allows_restrict_iff hlr hok hthirteen
  have hkept := reachable_oddOutsideGap.allows_restrict_iff hlr hok hthree
  refine ⟨reachable_oddOutsideGap, hlr, w, hok, by decide, ?_, ?_⟩
  · rw [hlost]
    decide
  · rw [hkept]
    decide

/-! ## A value that is lost -/

/-- The numbers of two bits below three. -/
def Valuation.belowThree : Valuation :=
  ((Mutation.restrict 0 3).run (blank 2) (Draws.start [] 0)).2.1

/-- Zero is below three and outside the gap at one, but the numbers below three that are restricted
to those outside the gap lose it. -/
theorem Reachable.restrict_loses_requested_value :
    Reachable 2 belowThree ∧ ¬ (2 : Int) ≡ 1 [ZMOD 2 ^ 2] ∧
      ∃ w, belowThree.restrict 2 1 = .ok w ∧ belowThree.Allows 0 ∧
        InArc (belowThree.residue 2) (belowThree.residue 1) 0 ∧ ¬ w.Allows 0 := by
  have hreachable : Reachable 2 belowThree :=
    .run .blank (.restrict 0 3) trivial (Draws.start [] 0)
  refine ⟨hreachable, by decide, ?_⟩
  exact ⟨((Mutation.restrict 2 1).run belowThree (Draws.start [] 0)).2.1, by rfl,
    by decide, by decide, by decide⟩

end BitEnvelope
