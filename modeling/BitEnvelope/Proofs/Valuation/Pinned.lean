import BitEnvelope.Proofs.Envelope.Failure
import BitEnvelope.Proofs.Valuation.Sound
import BitEnvelope.Valuation.InPlace

/-!
# What becomes of a pin

A pin that contradicts no earlier one selects the values of the envelope that have its bit, and is
accepted if there are any. A pinned position stays pinned. The committed value keeps its bit there
through every mutation but one: to pin the position to the other value, which may be accepted and
then admits values that were excluded before.
-/

namespace BitEnvelope

open BitEnvelope.Valuation

/-! ## A new pin -/

namespace Valuation

variable {v w : Valuation} {i : Nat}

theorem exists_pin_eq_ok_iff (hv : v.Regular) (hi : i < v.width) (b : Bool) :
    (∃ w, v.pin i b = .ok w) ↔ ∃ n, (v.pinned i b).Allows n := by
  simp only [pin, if_pos hi, tighten, exists_map_eq_ok_iff]
  exact (hv.pin hi b).exists_tighten_iff

theorem allows_pin_iff (hv : v.Regular) {b : Bool} (h : v.pin i b = .ok w)
    (hpins : v.forbids i b = false) (n : Nat) : w.Allows n ↔ v.Allows n ∧ n.testBit i = b := by
  obtain ⟨hi, hsame, -⟩ := sameValues_of_pin hv h
  rw [hsame.allows_iff, hv.allows_pinned_iff hi hpins]

/-- A position at or above the width cannot be pinned, and nothing is written. -/
theorem perform_pin_of_width_le (hi : v.width ≤ i) (b : Bool) (d : Draws) :
    (Mutation.pin i b).perform v d = (.failed (.positionOutOfRange i v.width), v, d) := by
  simp only [Mutation.perform, Mutation.inPlace, pinInPlace, if_neg (Nat.not_lt.mpr hi)]

end Valuation

section Selection

variable {width : Nat} {v : Valuation}

/-- A pin that contradicts no earlier one is accepted if and only if a value of the envelope has its
bit. The values are then those that have the bit, the position is pinned and no other one, the trial
value changes at this position only, and the committed value is a value of the envelope. -/
theorem Reachable.pin_selects (h : Reachable width v) :
    (∀ i b d, width ≤ i →
      (Mutation.pin i b).perform v d = (.failed (.positionOutOfRange i width), v, d)) ∧
    ∀ i b, i < width → v.forbids i b = false →
      ((∃ w, v.pin i b = .ok w) ↔ ∃ n, v.Allows n ∧ n.testBit i = b) ∧
      ∀ w, v.pin i b = .ok w →
        (∀ n, w.Allows n ↔ v.Allows n ∧ n.testBit i = b) ∧
        (∀ j, w.isFree j = (v.isFree j && j != i)) ∧
        (w.trial = v.trial.setBit i b ∧ ∀ j, j ≠ i → w.trial.bit j = v.trial.bit j) ∧
        w.Allows w.current.toNat := by
  have hv := h.sound
  obtain rfl := hv.width_eq
  refine ⟨fun i b d hi => perform_pin_of_width_le hi b d, fun i b hi hpins => ⟨?_, ?_⟩⟩
  · rw [exists_pin_eq_ok_iff hv.regular hi]
    exact exists_congr fun n => hv.regular.allows_pinned_iff hi hpins n
  · intro w hok
    obtain ⟨-, hsame, htrial⟩ := sameValues_of_pin hv.regular hok
    refine ⟨allows_pin_iff hv.regular hok hpins, fun j => ?_, ⟨htrial, fun j hj => ?_⟩,
      hsame.allows_current⟩
    · exact hsame.isFree_eq.trans (hv.regular.isFree_pinned hi b j)
    · rw [htrial, Packed.bit_setBit_of_ne hj]

/-- Of the odd numbers outside the gap, none below five has bit two. With that bit pinned, the
committed value moves over the gap and thirteen is the least value. -/
theorem Reachable.pin_selects_oddOutsideGap :
    Reachable 8 oddOutsideGap ∧ oddOutsideGap.forbids 2 true = false ∧
      ∃ w, oddOutsideGap.pin 2 true = .ok w ∧ oddOutsideGap.current.toNat = 1 ∧
        w.current.toNat = 13 ∧ w.Allows 13 ∧ ¬ w.Allows 11 ∧ ¬ w.Allows 3 ∧
        w.isFree 2 = false ∧ w.isFree 3 = true := by
  have hpins : oddOutsideGap.forbids 2 true = false := by decide
  obtain ⟨hok, hselects⟩ := reachable_oddOutsideGap.pin_selects.2 2 true (by decide) hpins
  obtain ⟨w, hw⟩ := hok.mpr ⟨13, by decide, by decide⟩
  obtain ⟨hvalues, hfree, -, -⟩ := hselects w hw
  have hcurrent : (oddOutsideGap.pin 2 true).map (fun u => u.current.toNat) = .ok 13 := by
    decide
  rw [hw] at hcurrent
  refine ⟨reachable_oddOutsideGap, hpins, w, hw, by decide, Except.ok.inj hcurrent, ?_⟩
  simp only [hvalues, hfree]
  decide

end Selection

/-! ## One mutation -/

namespace Valuation

/-- Position `i` is pinned in `w`, to the value that the committed value of `v` has there. -/
def KeepsPin (i : Nat) (v w : Valuation) : Prop :=
  w.isFree i = false ∧ w.current.bit i = v.current.bit i

variable {width i : Nat} {v w : Valuation}

theorem keepsPin_of_sameValues {e : Envelope} (h : e.SameValues w.toEnvelope) (hi : i < e.width)
    (hpin : e.isFree i = false) (hcurrent : e.current.bit i = v.current.bit i) :
    KeepsPin i v w :=
  ⟨h.isFree_eq.trans hpin, (h.current_bit_eq hi hpin).trans hcurrent⟩

namespace Sound

variable (hv : v.Sound width) (hi : i < v.width) (hpin : v.isFree i = false)
include hv hi hpin

/-- To pin a position leaves the other pins as they are, and pins this one to the new value. -/
theorem pinned_of_pin {j : Nat} {b : Bool} (h : v.pin j b = .ok w) :
    w.isFree i = false ∧ w.current.bit i = if i = j then b else v.current.bit i := by
  obtain ⟨hj, hsame, -⟩ := sameValues_of_pin hv.regular h
  have hset : (v.pinned j b).isFree i = false := by
    rw [hv.regular.isFree_pinned hj, hpin, Bool.false_and]
  exact ⟨hsame.isFree_eq.trans hset,
    (hsame.current_bit_eq hi hset).trans (hv.regular.bit_current_pinned hj b i)⟩

theorem keepsPin_of_restrict {l r : Int} (h : v.restrict l r = .ok w) : KeepsPin i v w := by
  rcases eq_or_sameValues_of_restrict hv.regular h with ⟨-, rfl⟩ | ⟨-, hsame, -⟩
  · exact ⟨hpin, rfl⟩
  · exact keepsPin_of_sameValues hsame hi hpin rfl

/-- Every mutation but one keeps a pin: the one that pins the position to the other value. -/
theorem keepsPin_run {m : Mutation} (hm : m ≠ .pin i (!v.current.bit i)) (d : Draws) :
    KeepsPin i v (m.run v d).2.1 := by
  have hself : KeepsPin i v v := ⟨hpin, rfl⟩
  have htrial : m.WritesTrial → KeepsPin i v (m.run v d).2.1 := by
    intro hwrites
    rw [KeepsPin, (Mutation.changesTrial_run hwrites v d).toEnvelope_eq]
    exact hself
  cases m with
  | load | clearTrial | writeBit | writeWord | propose | tryBit | «repair» | sampleAtMost
  | sampleAtLeast | sampleBetween => exact htrial trivial
  | limitSign k => exact hself
  | commit =>
      refine Mutation.ofOption_induction hself fun w h => ?_
      simp only [commit?] at h
      split at h
      · rename_i hadmits
        cases h
        exact keepsPin_of_sameValues (sameValues_of_commit hv.regular hv.trial hadmits) hi hpin rfl
      · cases h
  | pin j b =>
      refine Mutation.ofExcept_induction hself fun w h => ?_
      obtain ⟨hkept, hbit⟩ := hv.pinned_of_pin hi hpin h
      refine ⟨hkept, hbit.trans ?_⟩
      split
      · rename_i hij
        subst hij
        by_contra hb
        exact hm (congrArg (Mutation.pin i) (Bool.eq_not_of_ne hb))
      · rfl
  | restrict l r =>
      exact Mutation.ofExcept_induction hself fun w h => hv.keepsPin_of_restrict hi hpin h
  | tighten =>
      refine Mutation.ofExcept_induction hself fun w h => ?_
      exact keepsPin_of_sameValues (sameValues_of_tighten hv.regular h).1 hi hpin rfl

/-- No mutation at all unpins a position. -/
theorem isFree_run (m : Mutation) (d : Draws) : (m.run v d).2.1.isFree i = false := by
  by_cases hm : m = .pin i (!v.current.bit i)
  · subst hm
    exact Mutation.ofExcept_induction hpin fun w h => (hv.pinned_of_pin hi hpin h).1
  · exact (hv.keepsPin_run hi hpin hm d).1

end Sound

/-- A pin that contradicts no earlier one admits no value that was excluded before. -/
theorem Sound.allows_of_pin (hv : v.Sound width) {j : Nat} {b : Bool} (h : v.pin j b = .ok w)
    (hpins : v.forbids j b = false) {n : Nat} (hn : w.Allows n) : v.Allows n :=
  ((allows_pin_iff hv.regular h hpins n).mp hn).1

end Valuation

/-! ## Runs -/

/-- One mutation other than `m₀` leads from `v` to `w`. -/
def Mutation.StepExcept (m₀ : Mutation) (width : Nat) (v w : Valuation) : Prop :=
  ∃ (m : Mutation) (d : Draws), m ≠ m₀ ∧ m.Fits width ∧ (m.run v d).2.1 = w

variable {width i : Nat} {v w : Valuation}

theorem Mutation.StepExcept.step {m₀ : Mutation} (h : m₀.StepExcept width v w) :
    Mutation.Step width v w := by
  obtain ⟨m, d, -, fits, hw⟩ := h
  exact ⟨m, d, fits, hw⟩

theorem Valuation.Sound.isFree_steps (hv : v.Sound width) (hi : i < width)
    (hpin : v.isFree i = false) (h : Relation.ReflTransGen (Mutation.Step width) v w) :
    w.isFree i = false := by
  induction h with
  | refl => exact hpin
  | @tail u w before step ih =>
      have hu := (hv.steps before).1
      obtain ⟨m, d, -, rfl⟩ := step
      exact hu.isFree_run (hu.width_eq.symm ▸ hi) ih m d

/-- What each mutation of a run keeps, the run keeps. -/
theorem Valuation.Sound.keepsPin_steps (hv : v.Sound width) (hi : i < width)
    (hpin : v.isFree i = false)
    (h : Relation.ReflTransGen
      (Mutation.StepExcept (.pin i (!v.current.bit i)) width) v w) : KeepsPin i v w := by
  induction h with
  | refl => exact ⟨hpin, rfl⟩
  | @tail u w before step ih =>
      have hsteps := Relation.ReflTransGen.mono (fun _ _ => Mutation.StepExcept.step) _ _ before
      have hu := (hv.steps hsteps).1
      obtain ⟨hfree, hbit⟩ := ih
      obtain ⟨m, d, hm, -, rfl⟩ := step
      rw [← hbit] at hm
      obtain ⟨hfree', hbit'⟩ := hu.keepsPin_run (hu.width_eq.symm ▸ hi) hfree hm d
      exact ⟨hfree', hbit'.trans hbit⟩

/-- A pinned position stays pinned in every run, and the committed value keeps its bit there unless
the run pins the position to the other value. A pin that contradicts no earlier one admits no value
that was excluded before. -/
theorem Reachable.pinned_bit_kept (h : Reachable width v) :
    (∀ i < width, v.isFree i = false →
      (∀ w, Relation.ReflTransGen (Mutation.Step width) v w → w.isFree i = false) ∧
        ∀ w, Relation.ReflTransGen
            (Mutation.StepExcept (.pin i (!v.current.bit i)) width) v w →
          w.current.bit i = v.current.bit i) ∧
      ∀ j b w, v.pin j b = .ok w → v.forbids j b = false → ∀ n, w.Allows n → v.Allows n := by
  have hv := h.sound
  refine ⟨fun i hi hpin => ⟨fun w hw => hv.isFree_steps hi hpin hw, fun w hw => ?_⟩,
    fun j b w hok hpins n hn => hv.allows_of_pin hok hpins hn⟩
  exact (hv.keepsPin_steps hi hpin hw).2

/-- Among the odd numbers outside the gap, bit zero keeps its value while bit seven is pinned, and
the numbers that are left were there before. -/
theorem Reachable.pinned_bit_kept_oddOutsideGap :
    Reachable 8 oddOutsideGap ∧ oddOutsideGap.isFree 0 = false ∧
      ∃ w, oddOutsideGap.pin 7 true = .ok w ∧ w.current.toNat = 129 ∧
        w.current.bit 0 = oddOutsideGap.current.bit 0 ∧
        ∀ n, w.Allows n → oddOutsideGap.Allows n := by
  have hpin : oddOutsideGap.isFree 0 = false := by decide
  obtain ⟨w, hok, hw⟩ : ∃ w, oddOutsideGap.pin 7 true = .ok w ∧
      ((Mutation.pin 7 true).run oddOutsideGap (Draws.start [] 0)).2.1 = w :=
    ⟨((Mutation.pin 7 true).run oddOutsideGap (Draws.start [] 0)).2.1, by rfl, rfl⟩
  obtain ⟨hkept, hpinned⟩ := reachable_oddOutsideGap.pinned_bit_kept
  have hrun := (hkept 0 (by decide) hpin).2 w
    (.single ⟨.pin 7 true, Draws.start [] 0, by decide, trivial, hw⟩)
  refine ⟨reachable_oddOutsideGap, hpin, w, hok, ?_, hrun,
    hpinned 7 true w hok (by decide)⟩
  rw [← hw]
  decide

/-- Bit zero of the odd numbers outside the gap can be pinned to zero: the bit changes, and twelve,
which was excluded, becomes a value. -/
theorem Reachable.pin_moves_pinned_bit :
    Reachable 8 oddOutsideGap ∧ oddOutsideGap.isFree 0 = false ∧
      ∃ w, oddOutsideGap.pin 0 false = .ok w ∧
        oddOutsideGap.current.bit 0 = true ∧ w.current.bit 0 = false ∧
        ¬ oddOutsideGap.Allows 12 ∧ w.Allows 12 := by
  refine ⟨reachable_oddOutsideGap, by decide,
    ((Mutation.pin 0 false).run oddOutsideGap (Draws.start [] 0)).2.1, by rfl, ?_⟩
  decide

end BitEnvelope
