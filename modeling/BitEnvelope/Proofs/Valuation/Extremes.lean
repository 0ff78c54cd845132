import BitEnvelope.Proofs.Envelope.Extremes
import BitEnvelope.Proofs.Envelope.Sign
import BitEnvelope.Proofs.Valuation.Nearest
import BitEnvelope.Proofs.Valuation.Sampling
import BitEnvelope.Proofs.Valuation.Stored

/-!
# The extreme values of a valuation

The envelope of a valuation that mutations lead to is never empty, so the searches for its least and
for its greatest value always find one. Where no sign prefix is set, they are what `least` and
`greatest` write over the words of the destination. A sign prefix is made equal after the search and
without another look at the interval, so what is written then need not be a value of the envelope.
-/

namespace BitEnvelope

open BitEnvelope.Valuation

variable {width : Nat} {v : Valuation} {out : Packed}

/-- Without a sign prefix, `least` writes the least value of the envelope and `greatest` the
greatest one, whatever the destination held. The searches behind them find these values. -/
theorem Reachable.least_and_greatest (h : Reachable width v) (hsign : v.signedPrefix = 0)
    (hout : out.Spans width) :
    ((v.ceilCompletion? (v.setZero out)).bind v.raise? = some (v.least out) ∧
      IsLeast {n | v.Allows n} ((v.least out).natOfFirst v.wordCount)) ∧
    ((v.floorCompletion? (v.setOnes out)).bind v.lower? = some (v.greatest out) ∧
      IsGreatest {n | v.Allows n} ((v.greatest out).natOfFirst v.wordCount)) := by
  have hv := h.sound
  obtain rfl := hv.width_eq
  obtain ⟨x, hx, hfound, hshape, hleast⟩ := hv.regular.exists_isLeast hout hv.allows_current
  obtain ⟨y, hy, hfound', hshape', hgreatest⟩ :=
    hv.regular.exists_isGreatest hout hv.allows_current
  rw [Envelope.extendSign_of_signedPrefix_eq_zero hsign] at hfound hfound'
  rw [(hout.of_shape hshape).toNat_eq] at hleast
  rw [(hout.of_shape hshape').toNat_eq] at hgreatest
  rw [hfound, hfound']
  exact ⟨⟨hx, hleast⟩, hy, hgreatest⟩

/-- The odd numbers outside the gap reach from one to two hundred and fifty-five: on either side of
zero, the interval that wraps around does not end. -/
theorem Reachable.least_and_greatest_oddOutsideGap :
    Reachable 8 oddOutsideGap ∧ oddOutsideGap.signedPrefix = 0 ∧ usedStorage.Spans 8 ∧
      oddOutsideGap.least usedStorage = ⟨8, [1, 5]⟩ ∧
      oddOutsideGap.greatest usedStorage = ⟨8, [255, 5]⟩ ∧
      IsLeast {n | oddOutsideGap.Allows n} 1 ∧ IsGreatest {n | oddOutsideGap.Allows n} 255 := by
  have hsign : oddOutsideGap.signedPrefix = 0 := by decide
  have hout : usedStorage.Spans 8 := ⟨rfl, by decide⟩
  have hmin : oddOutsideGap.least usedStorage = ⟨8, [1, 5]⟩ := by decide
  have hmax : oddOutsideGap.greatest usedStorage = ⟨8, [255, 5]⟩ := by decide
  obtain ⟨⟨-, hleast⟩, -, hgreatest⟩ :=
    reachable_oddOutsideGap.least_and_greatest hsign hout
  rw [hmin] at hleast
  rw [hmax] at hgreatest
  exact ⟨reachable_oddOutsideGap, hsign, hout, hmin, hmax, hleast, hgreatest⟩

/-! ## With a sign prefix -/

/-- Whatever the sign prefix, `least` and `greatest` write the least and the greatest value of the
envelope with the sign prefix made equal. What they write keeps all pins, and it is a value of the
envelope if the interval restricts nothing or the prefix has at most one bit. -/
theorem Reachable.signed_least_and_greatest (h : Reachable width v) (hout : out.Spans width) :
    ∃ m M, (IsLeast {n | v.Allows n} m ∧ v.SignExtended m (v.least out)) ∧
      (IsGreatest {n | v.Allows n} M ∧ v.SignExtended M (v.greatest out)) ∧
      (v.hasRange = false ∨ v.signedPrefix ≤ 1 →
        v.admits (v.least out) = true ∧ v.admits (v.greatest out) = true) := by
  have hv := h.sound
  have hk := h.stored.prefix_le
  obtain rfl := hv.width_eq
  obtain ⟨x, -, hleast, hshape, hmin⟩ := hv.regular.exists_isLeast hout hv.allows_current
  obtain ⟨y, -, hgreatest, hshape', hmax⟩ := hv.regular.exists_isGreatest hout hv.allows_current
  have hx := hv.regular.signExtended hk (hout.of_shape hshape) hmin.1
  have hy := hv.regular.signExtended hk (hout.of_shape hshape') hmax.1
  rw [← hleast] at hx
  rw [← hgreatest] at hy
  refine ⟨x.toNat, y.toNat, ⟨hmin, hx⟩, ⟨hmax, hy⟩, fun hcase => ⟨hx.admits ?_, hy.admits ?_⟩⟩
  · exact hcase.imp_right Envelope.uniformSign_of_le_one
  · exact hcase.imp_right Envelope.uniformSign_of_le_one

/-- The sign prefix of one and of two hundred and fifty-five is equal, so they are written. -/
theorem Reachable.signed_least_and_greatest_odd :
    Reachable 8 signedOddOutsideGap ∧ usedStorage.Spans 8 ∧
      signedOddOutsideGap.signedPrefix = 3 ∧
      signedOddOutsideGap.least usedStorage = ⟨8, [1, 5]⟩ ∧
      signedOddOutsideGap.greatest usedStorage = ⟨8, [255, 5]⟩ ∧
      signedOddOutsideGap.Completes 1 ∧ signedOddOutsideGap.Completes 255 := by
  have hout : usedStorage.Spans 8 := ⟨rfl, by decide⟩
  have hmin : signedOddOutsideGap.least usedStorage = ⟨8, [1, 5]⟩ := by decide
  have hmax : signedOddOutsideGap.greatest usedStorage = ⟨8, [255, 5]⟩ := by decide
  obtain ⟨m, M, ⟨-, hleast⟩, ⟨-, hgreatest⟩, -⟩ :=
    reachable_signedOddOutsideGap.signed_least_and_greatest hout
  rw [hmin] at hleast
  rw [hmax] at hgreatest
  exact ⟨reachable_signedOddOutsideGap, hout, by decide, hmin, hmax, hleast.completes,
    hgreatest.completes⟩

/-- The number five alone, of four bits, with a sign prefix of two bits. -/
def Valuation.onlyFive : Valuation :=
  ((Mutation.restrict 5 6).run
    ((Mutation.limitSign 2).run (blank 4) (Draws.start [] 0)).2.1 (Draws.start [] 0)).2.1

/-- The two bits of the sign prefix differ in five. Made equal, they leave one, which is not a value
of the envelope. -/
theorem Reachable.signed_extremes_leave_interval :
    Reachable 4 onlyFive ∧ (∀ n, onlyFive.Allows n ↔ n = 5) ∧
      (onlyFive.least (Packed.blank 4)).toNat = 1 ∧
      (onlyFive.greatest (Packed.blank 4)).toNat = 1 ∧
      onlyFive.admits (onlyFive.least (Packed.blank 4)) = false ∧
      onlyFive.admits (onlyFive.greatest (Packed.blank 4)) = false := by
  refine ⟨.run (.run .blank (.limitSign 2) trivial (Draws.start [] 0)) (.restrict 5 6) trivial
    (Draws.start [] 0), fun n => ⟨fun h => ?_, fun h => ?_⟩, by decide, by decide, by decide,
    by decide⟩
  · have hlo : onlyFive.lo.toNat = 5 := by decide
    have hhi : onlyFive.hi.toNat = 6 := by decide
    have harc := h.2.2
    rw [hlo, hhi, InArc] at harc
    omega
  · subst h
    decide

end BitEnvelope
