import BitEnvelope.Config.Basic
import BitEnvelope.Proofs.Fallible
import BitEnvelope.Proofs.Text.Decimal
import BitEnvelope.Proofs.Valuation.Stored
import BitEnvelope.Valuation.InPlace

/-!
# What a configuration builds

A configuration that passes its validation is built by the mutations that it lists, so what it
builds is a reachable valuation. Before the first interval nothing can fail: the pins are written
one after the other.
-/

namespace BitEnvelope

open BitEnvelope.Valuation

/-! ## Runs of mutations -/

variable {width : Nat} {v w : Valuation}

theorem Reachable.pin (h : Reachable width v) {i : Nat} {b : Bool} (hok : v.pin i b = .ok w) :
    Reachable width w := by
  have hrun := Reachable.run h (.pin i b) trivial (Draws.start [] 0)
  rwa [Mutation.run, hok] at hrun

theorem Reachable.restrict (h : Reachable width v) {l r : Int} (hok : v.restrict l r = .ok w) :
    Reachable width w := by
  have hrun := Reachable.run h (.restrict l r) trivial (Draws.start [] 0)
  rwa [Mutation.run, hok] at hrun

namespace Config

variable {c : Config}

/-- What passes is built from the unrestricted valuation, pins first. -/
theorem build_eq_of_validate (h : c.validate = .ok ()) :
    c.build = pinAll ((blank c.width.toNat).limitSign c.signedPrefix.toNat) c.pins >>=
      fun v => restrictAll v c.ranges := by
  rw [build, h]
  rfl

/-- A configuration builds a valuation that mutations lead to. -/
theorem reachable_of_build (h : c.build = .ok w) : Reachable c.width.toNat w := by
  obtain ⟨-, -, hrest⟩ := bind_eq_ok.mp h
  obtain ⟨v, hpins, hranges⟩ := bind_eq_ok.mp hrest
  have hstart : Reachable c.width.toNat
      ((blank c.width.toNat).limitSign c.signedPrefix.toNat) :=
    .run .blank (.limitSign c.signedPrefix.toNat) trivial (Draws.start [] 0)
  have hpinned : Reachable c.width.toNat v :=
    foldlM_ok_induction (fun _ _ _ hx hok => hx.pin hok) hstart hpins
  refine foldlM_ok_induction (fun x r y hx hok => ?_) hpinned hranges
  obtain ⟨⟨l, r⟩, -, hok⟩ := bind_eq_ok.mp hok
  exact hx.restrict hok

/-- Intervals with integer bounds are read as they were written. -/
theorem restrictAll_ofInts (v : Valuation) (intervals : List (Int × Int)) :
    restrictAll v (intervals.map fun r => RangeText.ofInts r.1 r.2) =
      intervals.foldlM (fun v r => v.restrict r.1 r.2) v := by
  rw [restrictAll, List.foldlM_map]
  simp only [RangeText.bounds_ofInts]
  rfl

theorem validate_eq_ok (hwidth : c.width ≠ 0) (hsign : c.signedPrefix ≤ c.width)
    (hpins : ∀ p ∈ c.pins, p.index < c.width) (hranges : ∀ r ∈ c.ranges, ∃ b, r.bounds = .ok b) :
    c.validate = .ok () := by
  have hfind : (c.pins.find? fun p => c.width ≤ p.index) = none := by
    rw [List.find?_eq_none]
    intro p hp
    simpa using hpins p hp
  have hforM : (c.ranges.forM fun r => r.bounds.map fun _ => ()) = .ok () := by
    refine forM_eq_ok fun r hr => ?_
    obtain ⟨b, hb⟩ := hranges r hr
    rw [hb]
    rfl
  rw [validate, if_neg hwidth, if_neg (UInt64.not_lt.mpr hsign), hfind]
  exact hforM

end Config

/-! ## Pins without an interval -/

namespace Valuation

/-- Without an interval, a pin cannot fail. -/
theorem pin_of_not_hasRange (hrange : v.hasRange = false) {i : Nat} (hi : i < v.width) (b : Bool) :
    v.pin i b = .ok (v.writePin i true b b) := by
  have htight : (v.writePin i true b b).toEnvelope.tighten =
      .ok (v.writePin i true b b).toEnvelope := Envelope.tighten_of_not_hasRange hrange
  rw [pin, if_pos hi]
  exact congrArg (Except.map _) htight

/-- The positions `is` are pinned, each to what `f` says for it. -/
def writePins (v : Valuation) (is : List Nat) (f : Nat → Bool) : Valuation :=
  { v with
    pins := v.pins.setBits is fun _ => true
    current := v.current.setBits is f
    trial := v.trial.setBits is f }

/-- Without an interval, a list of pins is written as it stands. -/
theorem pinAll_of_not_hasRange (hrange : v.hasRange = false) (hwidth : v.width < UInt64.size)
    {is : List Nat} (his : ∀ i ∈ is, i < v.width) (f : Nat → Bool) :
    Config.pinAll v (is.map fun i => { index := UInt64.ofNat i, value := f i }) =
      .ok (v.writePins is f) := by
  induction is generalizing v with
  | nil => rfl
  | cons i is ih =>
      have hi := his i List.mem_cons_self
      have hindex : (UInt64.ofNat i).toNat = i := UInt64.toNat_ofNat_of_lt' (Nat.lt_trans hi hwidth)
      have hpin := pin_of_not_hasRange hrange hi (f i)
      have hrest := ih (v := v.writePin i true (f i) (f i)) hrange hwidth
        fun j hj => his j (List.mem_cons_of_mem i hj)
      rw [List.map_cons, Config.pinAll, List.foldlM_cons, hindex, hpin]
      exact hrest

end Valuation

end BitEnvelope
