import BitEnvelope.Proofs.Envelope.Extremes
import BitEnvelope.Proofs.Envelope.Idempotence
import BitEnvelope.Proofs.Valuation.Stored

/-!
# Tightening and restricting again in a run

A valuation that mutations lead to has been tightened, but its interval need not start at a
completion of the pins: where an interval that wraps around had none from its start on, it starts at
zero. Tightening then moves the start up once more, and nothing else. So a restriction that is
repeated keeps all of the valuation but the start of the interval, and all the values of the
envelope.
-/

namespace BitEnvelope

open BitEnvelope.Envelope

variable {width : Nat} {v w : Valuation}

/-! ## Tightening -/

/-- Tightening a sound valuation does not fail and moves the start of the interval at most. -/
theorem Valuation.Sound.exists_tighten (hv : v.Sound width) :
    ∃ w : Valuation, v.toEnvelope.tighten = .ok w.toEnvelope ∧ v.tighten = .ok w ∧
      w = { v with lo := w.lo } := by
  obtain ⟨e, he⟩ := hv.regular.exists_tighten_iff.mpr ⟨_, hv.allows_current⟩
  have hraised := hv.regular.eq_of_tighten hv.allows_current he
  refine ⟨{ v with toEnvelope := e }, he, ?_, ?_⟩
  · rw [Valuation.tighten, he]
    rfl
  · exact congrArg (fun e => ({ v with toEnvelope := e } : Valuation)) hraised

/-- The interval starts at a number that agrees with the pins, or at zero. Tightening raises the
start to the least completion from there on and changes nothing else, so it changes nothing at all
if the start agrees with the pins or if there is no interval, and nothing the second time. Where the
interval does not wrap around and there is no sign prefix, `least` writes the raised start. -/
theorem Reachable.tighten_raises_start (h : Reachable width v) :
    (v.hasRange = true → v.agrees v.lo = true ∨ v.lo.toNat = 0) ∧
    ∃ w, v.tighten = .ok w ∧ w = { v with lo := w.lo } ∧
      (w = v ↔ (v.hasRange = true → v.agrees v.lo = true)) ∧
      (v.hasRange = true → IsLeast {n | v.Completes n ∧ v.lo.toNat ≤ n} w.lo.toNat) ∧
      w.tighten = .ok w ∧
      (v.lo.lt v.hi = true → v.signedPrefix = 0 → ∀ out : Packed, out.Spans width →
        (v.least out).natOfFirst v.wordCount = w.lo.toNat) := by
  have hv := h.sound
  have hanchored := h.stored.anchored
  obtain rfl := hv.width_eq
  obtain ⟨w, he, hok, hkept⟩ := hv.exists_tighten
  have hself := hv.regular.eq_self_iff_of_tighten hv.allows_current he
  have hagain := hv.regular.tighten_of_tighten hv.allows_current hanchored he
  refine ⟨fun _ => ?_, w, hok, hkept, ?_, ?_, ?_, ?_⟩
  · rw [hv.regular.agrees_iff hv.regular.lo.toSpans]
    exact hanchored.start.symm
  · rw [← hself]
    refine ⟨congrArg Valuation.toEnvelope, fun hsame => ?_⟩
    rw [hkept, hsame]
  · exact fun hrange => hv.regular.isLeast_lo_of_tighten hv.allows_current hanchored hrange he
  · rw [Valuation.tighten, hagain]
    rfl
  · intro hlt hsign out hout
    have hbounds := (hv.regular.lo.toSpans.lt_iff hv.regular.hi.toSpans).mp hlt
    obtain ⟨x, -, hfound, hshape, hleast⟩ := hv.regular.exists_isLeast hout hv.allows_current
    rw [hfound, extendSign_of_signedPrefix_eq_zero hsign, wordCount,
      ← (hout.of_shape hshape).toNat_eq]
    exact hleast.unique
      (hv.regular.isLeast_allows_of_tighten hv.allows_current hanchored hbounds he)

namespace Valuation

/-- The odd numbers of four bits below eight. -/
def oddBelowEight : Valuation :=
  ((Mutation.pin 3 false).run
    ((Mutation.pin 0 true).run (blank 4) (Draws.start [] 0)).2.1 (Draws.start [] 0)).2.1

theorem reachable_oddBelowEight : Reachable 4 oddBelowEight :=
  .run (.run .blank (.pin 0 true) trivial _) (.pin 3 false) trivial _

/-- Those of them from minus one up to five. None is fifteen or more, so the interval starts at
zero. -/
def oneOrThree : Valuation :=
  ((Mutation.restrict (-1) 5).run oddBelowEight (Draws.start [] 0)).2.1

theorem reachable_oneOrThree : Reachable 4 oneOrThree :=
  .run reachable_oddBelowEight (.restrict (-1) 5) trivial _

end Valuation

open BitEnvelope.Valuation

/-- The interval of one and three starts at zero, and tightening raises this to one. -/
theorem Reachable.tighten_raises_start_oneOrThree :
    Reachable 4 oneOrThree ∧ oneOrThree.hasRange = true ∧ oneOrThree.lo.toNat = 0 ∧
      ∃ w, oneOrThree.tighten = .ok w ∧ w = { oneOrThree with lo := w.lo } ∧
        w.lo.toNat = 1 ∧ w.tighten = .ok w ∧
        (oneOrThree.least (Packed.blank 4)).natOfFirst oneOrThree.wordCount = 1 := by
  have hrange : oneOrThree.hasRange = true := by decide
  have hlo : oneOrThree.lo.toNat = 0 := by decide
  obtain ⟨-, w, hok, hkept, -, -, hagain, hmin⟩ :=
    reachable_oneOrThree.tighten_raises_start
  have hrun : (Mutation.tighten.run oneOrThree (Draws.start [] 0)).2.1 = w := by
    rw [Mutation.run, hok]
    rfl
  have hone : w.lo.toNat = 1 := by
    rw [← hrun]
    decide
  have hout : (Packed.blank 4).Spans 4 := ⟨rfl, by decide⟩
  refine ⟨reachable_oneOrThree, hrange, hlo, w, hok, hkept, hone, hagain, ?_⟩
  exact (hmin (by decide) (by decide) _ hout).trans hone

/-- A start of zero need not agree with the pins, and then tightening changes the valuation and the
least value is not the start. -/
theorem Reachable.start_not_tight :
    Reachable 4 oneOrThree ∧ oneOrThree.hasRange = true ∧
      oneOrThree.agrees oneOrThree.lo = false ∧ oneOrThree.lo.toNat = 0 ∧
      oneOrThree.lo.lt oneOrThree.hi = true ∧ oneOrThree.signedPrefix = 0 ∧
      (oneOrThree.least (Packed.blank 4)).toNat = 1 ∧
      ∃ w, oneOrThree.tighten = .ok w ∧ w.lo.toNat = 1 := by
  refine ⟨reachable_oneOrThree, by decide, by decide, by decide,
    by decide, by decide, by decide,
    (Mutation.tighten.run oneOrThree (Draws.start [] 0)).2.1, by rfl, ?_⟩
  decide

/-! ## Restricting -/

theorem Valuation.restrict_of_restrict (hv : v.Regular) {l r : Int}
    (hlr : v.residue l ≠ v.residue r) (h : v.restrict l r = .ok w) :
    w.restrict l r = w.tighten := by
  obtain ⟨e, he, rfl⟩ := exists_of_map_eq_ok h
  rw [restrict, hv.restrict_of_restrict hlr he]
  rfl

/-- A restriction that has been carried out can be repeated. This keeps all of the valuation but the
start of the interval, and the same values. -/
theorem Reachable.restrict_again (h : Reachable width v) {l r : Int}
    (hok : v.restrict l r = .ok w) :
    ∃ u, w.restrict l r = .ok u ∧ u = { w with lo := u.lo } ∧ ∀ n, u.Allows n ↔ w.Allows n := by
  have hv := h.sound
  have hw := hv.change (.restrict l r hok)
  rcases eq_or_sameValues_of_restrict hv.regular hok with ⟨-, rfl⟩ | ⟨hlr, -, -⟩
  · exact ⟨w, hok, rfl, fun _ => Iff.rfl⟩
  · obtain ⟨u, he, hu, hkept⟩ := hw.exists_tighten
    exact ⟨u, (restrict_of_restrict hv.regular hlr hok).trans hu, hkept,
      (hw.regular.sameValues_of_tighten he).allows_iff⟩

/-- The odd numbers below eight, restricted twice to those from minus one up to five: the first
restriction leaves the start at zero, the second one raises it to one. -/
theorem Reachable.restrict_again_oddBelowEight :
    Reachable 4 oddBelowEight ∧ oddBelowEight.restrict (-1) 5 = .ok oneOrThree ∧
      ∃ u, oneOrThree.restrict (-1) 5 = .ok u ∧ u = { oneOrThree with lo := u.lo } ∧
        oneOrThree.lo.toNat = 0 ∧ u.lo.toNat = 1 ∧ u.Allows 3 ∧
        ∀ n, u.Allows n ↔ oneOrThree.Allows n := by
  have hok : oddBelowEight.restrict (-1) 5 = .ok oneOrThree := by rfl
  obtain ⟨u, hu, hkept, hvalues⟩ := reachable_oddBelowEight.restrict_again hok
  have hrun : ((Mutation.restrict (-1) 5).run oneOrThree (Draws.start [] 0)).2.1 = u := by
    rw [Mutation.run, hu]
    rfl
  refine ⟨reachable_oddBelowEight, hok, u, hu, hkept, by decide, ?_,
    (hvalues 3).mpr (by decide), hvalues⟩
  rw [← hrun]
  decide

end BitEnvelope
