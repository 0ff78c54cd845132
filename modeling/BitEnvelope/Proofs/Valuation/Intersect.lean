import BitEnvelope.Proofs.Envelope.Failure
import BitEnvelope.Proofs.Envelope.Overlap
import BitEnvelope.Proofs.Valuation.Sound

/-!
# When a restriction is an intersection

A restriction takes values away but never adds one. If what the request shares with the interval is
one arc, the values that stay are exactly the requested ones, and the restriction fails only if
there are none. A request outside the interval is accepted without effect, and a request that
splits the interval in two fails if every requested value lies in the first piece.
-/

namespace BitEnvelope

open BitEnvelope.Valuation BitEnvelope.Envelope

variable {width : Nat} {v w : Valuation} {l r : Int}

namespace Valuation

theorem restrict_eq_error_iff (hv : v.Regular) (hlr : v.residue l ≠ v.residue r)
    {err : EnvelopeError} :
    v.restrict l r = .error err ↔ (∀ n, ¬ (v.narrowed l r).Allows n) ∧
      err = .empty (v.narrowed l r).lo.toNat (v.narrowed l r).hi.toNat := by
  rw [restrict, map_eq_error_iff]
  exact hv.restrict_eq_error_iff hlr

theorem exists_restrict_eq_ok_iff (hv : v.Regular) (hlr : v.residue l ≠ v.residue r) :
    (∃ w, v.restrict l r = .ok w) ↔ ∃ n, (v.narrowed l r).Allows n := by
  rw [restrict, exists_map_eq_ok_iff, restrict_eq, if_neg hlr]
  exact (hv.narrowed_regular l r).exists_tighten_iff

theorem allows_restrict_iff_narrowed (hv : v.Regular) (hlr : v.residue l ≠ v.residue r)
    (hok : v.restrict l r = .ok w) (n : Nat) : w.Allows n ↔ (v.narrowed l r).Allows n := by
  rcases eq_or_sameValues_of_restrict hv hok with ⟨heq, -⟩ | ⟨-, hsame, -⟩
  · exact absurd heq hlr
  · exact hsame.allows_iff n

end Valuation

/-! ## Contradictions -/

/-- A restriction fails if and only if the request meets the interval and no value of the envelope
is requested, except in the first piece of an interval that the request splits in two. -/
theorem Reachable.restrict_fails_iff (h : Reachable width v) (hlr : ¬ l ≡ r [ZMOD 2 ^ width]) :
    (∃ lo hi, v.restrict l r = .error (.empty lo hi)) ↔
      Meets (2 ^ width) v.lo.toNat v.hi.toNat (v.residue l) (v.residue r) ∧
        ∀ n, v.Allows n → InArc (v.residue l) (v.residue r) n →
          Splits v.lo.toNat v.hi.toNat (v.residue l) (v.residue r) ∧
            InArc v.lo.toNat (v.residue r) n := by
  have hv := h.sound
  obtain rfl := hv.width_eq
  have hne : v.residue l ≠ v.residue r := fun heq => hlr (v.residue_eq_iff.mp heq)
  rw [← hv.regular.narrowed_empty_iff hne hv.allows_current]
  constructor
  · rintro ⟨lo, hi, hfailed⟩
    exact ((restrict_eq_error_iff hv.regular hne).mp hfailed).1
  · intro hempty
    exact ⟨_, _, (restrict_eq_error_iff hv.regular hne).mpr ⟨hempty, rfl⟩⟩

/-- Twelve alone is no odd number. -/
theorem Reachable.restrict_fails_iff_twelve :
    Reachable 8 oddOutsideGap ∧ ¬ (12 : Int) ≡ 13 [ZMOD 2 ^ 8] ∧
      oddOutsideGap.restrict 12 13 = .error (.empty 12 13) ∧
      ∀ n, oddOutsideGap.Allows n →
        ¬ InArc (oddOutsideGap.residue 12) (oddOutsideGap.residue 13) n := by
  have hlr : ¬ (12 : Int) ≡ 13 [ZMOD 2 ^ 8] := by decide
  have hfailed : oddOutsideGap.restrict 12 13 = .error (.empty 12 13) := by rfl
  obtain ⟨-, hpiece⟩ :=
    (reachable_oddOutsideGap.restrict_fails_iff hlr).mp ⟨12, 13, hfailed⟩
  have hwhole : ¬ Splits oddOutsideGap.lo.toNat oddOutsideGap.hi.toNat
      (oddOutsideGap.residue 12) (oddOutsideGap.residue 13) := by
    decide
  exact ⟨reachable_oddOutsideGap, hlr, hfailed,
    fun n hn hrequest => hwhole (hpiece n hn hrequest).1⟩

/-- Zero and one, in an interval of the numbers of two bits that also holds two. -/
def Valuation.bitBelowThree : Valuation :=
  ((Mutation.restrict 0 3).run
    ((Mutation.pin 1 false).run (blank 2) (Draws.start [] 0)).2.1 (Draws.start [] 0)).2.1

/-- A request for three, outside the interval, is accepted although no value is requested. A request
for all but one fails although zero is requested. -/
theorem Reachable.restrict_misjudges_requests :
    Reachable 2 bitBelowThree ∧
      (¬ (3 : Int) ≡ 0 [ZMOD 2 ^ 2] ∧ (∃ w, bitBelowThree.restrict 3 0 = .ok w) ∧
        ∀ n, bitBelowThree.Allows n →
          ¬ InArc (bitBelowThree.residue 3) (bitBelowThree.residue 0) n) ∧
      (¬ (2 : Int) ≡ 1 [ZMOD 2 ^ 2] ∧ bitBelowThree.restrict 2 1 = .error (.empty 2 3) ∧
        bitBelowThree.Allows 0 ∧
          InArc (bitBelowThree.residue 2) (bitBelowThree.residue 1) 0) := by
  have hreachable : Reachable 2 bitBelowThree :=
    .run (.run .blank (.pin 1 false) trivial (Draws.start [] 0)) (.restrict 0 3) trivial
      (Draws.start [] 0)
  have hnone : ∀ n < 2 ^ 2, bitBelowThree.Allows n →
      ¬ InArc (bitBelowThree.residue 3) (bitBelowThree.residue 0) n := by
    decide
  refine ⟨hreachable, ⟨by decide, ?_, fun n hn => hnone n hn.1 hn⟩,
    by decide, by rfl, by decide, by decide⟩
  exact ⟨((Mutation.restrict 3 0).run bitBelowThree (Draws.start [] 0)).2.1, by rfl⟩

/-! ## Intersections -/

/-- A restriction adds no value. It is an intersection if the interval is unrestricted or shares one
arc with the request: then it succeeds if and only if a value is requested, and keeps the requested
values. -/
theorem Reachable.restrict_intersects (h : Reachable width v)
    (hlr : ¬ l ≡ r [ZMOD 2 ^ width]) :
    (∀ w, v.restrict l r = .ok w → ∀ n, w.Allows n → v.Allows n) ∧
      (v.hasRange = false ∨ IsArc (2 ^ width)
          {n | InArc v.lo.toNat v.hi.toNat n ∧ InArc (v.residue l) (v.residue r) n} →
        ((∃ w, v.restrict l r = .ok w) ↔
          ∃ n, v.Allows n ∧ InArc (v.residue l) (v.residue r) n) ∧
        ∀ w, v.restrict l r = .ok w → ∀ n,
          w.Allows n ↔ v.Allows n ∧ InArc (v.residue l) (v.residue r) n) := by
  have hv := h.sound
  obtain rfl := hv.width_eq
  have hne : v.residue l ≠ v.residue r := fun heq => hlr (v.residue_eq_iff.mp heq)
  refine ⟨fun w hok n hn => ?_, fun hshared => ?_⟩
  · have hkept := (allows_restrict_iff_narrowed hv.regular hne hok n).mp hn
    exact ((hv.regular.allows_narrowed hne).mp hkept).1
  have harc : IsArc (2 ^ v.width)
      {n | InArc v.lo.toNat v.hi.toNat n ∧ InArc (v.residue l) (v.residue r) n} := by
    refine hshared.elim (fun hfree => ?_) id
    have heq : v.lo.toNat = v.hi.toNat := by
      by_contra hrange
      rw [hv.regular.hasRange_iff.mpr hrange] at hfree
      cases hfree
    exact isArc_inter_of_eq heq (v.residue_lt l) (v.residue_lt r)
  have hinter := fun n => hv.regular.allows_narrowed_iff_of_isArc (n := n) hne harc
  refine ⟨?_, fun w hok n => ?_⟩
  · rw [exists_restrict_eq_ok_iff hv.regular hne]
    exact exists_congr hinter
  · rw [allows_restrict_iff_narrowed hv.regular hne hok, hinter]

/-- What the odd numbers outside the gap share with the request from minus fifty-six to three is
the request. -/
theorem Reachable.restrict_intersects_oddOutsideGap :
    Reachable 8 oddOutsideGap ∧ ¬ (-56 : Int) ≡ 3 [ZMOD 2 ^ 8] ∧
      ∃ w, oddOutsideGap.restrict (-56) 3 = .ok w ∧
        w.Allows 201 ∧ w.Allows 1 ∧ ¬ w.Allows 3 ∧ ¬ w.Allows 13 := by
  have hlr : ¬ (-56 : Int) ≡ 3 [ZMOD 2 ^ 8] := by decide
  have harc : IsArc (2 ^ 8) {n | InArc oddOutsideGap.lo.toNat oddOutsideGap.hi.toNat n ∧
      InArc (oddOutsideGap.residue (-56)) (oddOutsideGap.residue 3) n} := by
    refine ⟨200, by decide, 3, by decide, ?_⟩
    change ∀ n < 2 ^ 8, (InArc _ _ n ∧ InArc _ _ n) ↔ InArc 200 3 n
    decide +kernel
  obtain ⟨-, hinter⟩ := reachable_oddOutsideGap.restrict_intersects hlr
  obtain ⟨hok, hvalues⟩ := hinter (.inr harc)
  obtain ⟨w, hw⟩ := hok.mpr ⟨201, by decide, by decide⟩
  refine ⟨reachable_oddOutsideGap, hlr, w, hw, ?_⟩
  simp only [hvalues w hw]
  decide

end BitEnvelope
