import BitEnvelope.Proofs.Envelope.Sweep
import BitEnvelope.Proofs.Valuation.Sampling

/-!
# What a repair finds

The envelope that repaired a candidate is asked again before the candidate becomes the trial value,
so an accepted repair is a value of the envelope, with or without a sign prefix. Its sweeps are
greedy, and over an interval that does not wrap around they may give up where a value exists. Over
the other intervals they never do, unless a sign prefix is written after them.
-/

namespace BitEnvelope

open BitEnvelope.Valuation

variable {width : Nat} {v : Valuation} {x : Packed}

/-- A repaired candidate is a value of the envelope and the new trial value. Without a sign prefix,
every candidate can be repaired unless the interval is one ascending piece. -/
theorem Reachable.repair_finds (h : Reachable width v) (hx : x.Spans width) (downFirst : Bool) :
    (∀ y w, v.repair? downFirst x = some (y, w) →
      w.toEnvelope = v.toEnvelope ∧ w.trial.toNat = y.toNat ∧
        w.admits w.trial = true ∧ w.Allows w.trial.toNat) ∧
    (v.signedPrefix = 0 → v.lo.lt v.hi = false → ∃ y w, v.repair? downFirst x = some (y, w)) := by
  have hv := h.sound
  obtain rfl := hv.width_eq
  constructor
  · intro y w hrepair
    obtain ⟨z, hz, heq⟩ := Option.map_eq_some_iff.mp hrepair
    cases heq
    have hallows := hv.regular.allows_of_repair? hx hz
    have htrial : (v.load y).trial.toNat = y.toNat := by
      rw [hv.toNat_trial_load (hx.of_shape (Envelope.shape_of_repair? hz)),
        Nat.mod_eq_of_lt hallows.1]
    have hloaded : (v.load y).Allows (v.load y).trial.toNat := by
      rw [htrial]
      exact hallows
    have hspans := (hv.change (changesTrial_load v y).change).trial
    exact ⟨rfl, htrial, (hv.regular.admits_iff hspans).mpr hloaded, hloaded⟩
  · intro hsign hbounds
    have hle : v.hi.toNat ≤ v.lo.toNat := by
      rw [← Nat.not_lt, ← hv.regular.lo.toSpans.lt_iff hv.regular.hi.toSpans, hbounds]
      exact Bool.false_ne_true
    obtain ⟨y, hy⟩ := hv.regular.exists_repair? hx hv.allows_current hsign hle downFirst
    exact ⟨y, v.load y, Option.map_eq_some_iff.mpr ⟨y, hy, rfl⟩⟩

/-- The pin makes six seven, which lies in the gap. Downward the gap ends at five, upward at ten. -/
theorem Reachable.repair_finds_oddOutsideGap :
    Reachable 8 oddOutsideGap ∧ oddOutsideGap.signedPrefix = 0 ∧
      oddOutsideGap.lo.lt oddOutsideGap.hi = false ∧ (Packed.mk 8 [6, 5]).Spans 8 ∧
      (∀ downFirst, ∃ y w, oddOutsideGap.repair? downFirst ⟨8, [6, 5]⟩ = some (y, w) ∧
        w.trial.toNat = y.toNat ∧ w.Allows w.trial.toNat) ∧
      (oddOutsideGap.repair? true ⟨8, [6, 5]⟩).map (fun found => found.2.trial.toNat) = some 3 ∧
      (oddOutsideGap.repair? false ⟨8, [6, 5]⟩).map (fun found => found.2.trial.toNat) =
        some 15 := by
  have hsign : oddOutsideGap.signedPrefix = 0 := by decide
  have hbounds : oddOutsideGap.lo.lt oddOutsideGap.hi = false := by decide
  have hx : (Packed.mk 8 [6, 5]).Spans 8 := ⟨rfl, by decide⟩
  refine ⟨reachable_oddOutsideGap, hsign, hbounds, hx, fun downFirst => ?_, by decide, by decide⟩
  obtain ⟨hfound, hfinds⟩ := reachable_oddOutsideGap.repair_finds hx downFirst
  obtain ⟨y, w, hrepair⟩ := hfinds hsign hbounds
  obtain ⟨-, htrial, -, hallows⟩ := hfound y w hrepair
  exact ⟨y, w, hrepair, htrial, hallows⟩

end BitEnvelope
