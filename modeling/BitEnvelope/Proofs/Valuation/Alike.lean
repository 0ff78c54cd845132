import BitEnvelope.Proofs.Envelope.Alike
import BitEnvelope.Proofs.Valuation.Stored
import BitEnvelope.Proofs.Valuation.Sampling
import BitEnvelope.Proofs.Valuation.Undo

/-!
# What the envelope decides

Two searches whose envelopes are alike get the same answers, whatever their trial values and the
free bits of their committed values are. A sampler or a repair proposes the same value to both for
the same draws, and a mutation that narrows the envelope fails in both or in none and leaves them
alike. Only the mutations that look at the trial value may tell the two apart.
-/

namespace BitEnvelope

open BitEnvelope.Envelope

namespace Valuation

variable {width : Nat} {v w : Valuation}

/-! ## Proposals -/

open Mutation (inPlace ofOption)

/-- Both changes load the same value, or both are refused, and the same draws are left. -/
inductive LoadAlike (v w : Valuation) :
    Outcome × Valuation × Draws → Outcome × Valuation × Draws → Prop
  | loaded {x : Packed} (spans : x.Spans v.width) (d : Draws) :
      LoadAlike v w (.accepted, v.load x, d) (.accepted, w.load x, d)
  | refused (d : Draws) : LoadAlike v w (.refused, v, d) (.refused, w, d)

section Proposals

variable (h : AnswersAlike v.toEnvelope w.toEnvelope) {x tmp : Packed}
include h

theorem loadAlike_proposeInPlace (hx : x.Spans v.width) (d : Draws) :
    LoadAlike v w (inPlace (v.proposeInPlace x, d)) (inPlace (w.proposeInPlace x, d)) := by
  rw [proposeInPlace, proposeInPlace, h.admits_eq]
  split
  · exact .loaded hx d
  · exact .refused d

theorem loadAlike_repair? (hx : x.Spans v.width) (downFirst : Bool) (d : Draws) :
    LoadAlike v w (ofOption v ((v.repair? downFirst x).map Prod.snd, d))
      (ofOption w ((w.repair? downFirst x).map Prod.snd, d)) := by
  rw [repair?, repair?, h.repair?_eq]
  cases hfound : v.toEnvelope.repair? downFirst x with
  | none => exact .refused d
  | some y => exact .loaded (hx.of_shape (shape_of_repair? hfound)) d

/-! ## Samplers -/

section Near

variable {search : Envelope → Packed → Option Packed} {extreme : Packed → Bool}
  {change : Packed → Draws → Packed × Draws} {fits : Packed → Bool}
  (hsearch : search w.toEnvelope = search v.toEnvelope)
  (hshape : ∀ x y, search v.toEnvelope x = some y → y.shape = x.shape)
include hsearch hshape

theorem loadAlike_proposeOrSearch (hx : x.Spans v.width) (d : Draws) :
    LoadAlike v w (inPlace (v.proposeOrSearch search fits x, d))
      (inPlace (w.proposeOrSearch search fits x, d)) := by
  rw [proposeOrSearch_eq, proposeOrSearch_eq, h.admits_eq, hsearch]
  split
  · exact .loaded hx d
  · cases hfound : search v.toEnvelope x with
    | none => exact .refused d
    | some y => exact loadAlike_proposeInPlace h (hx.of_shape (hshape x y hfound)) d

/-- A search near a bound goes the same way in both: what is found and what is changed is the same,
and it is admitted by both envelopes or by none. -/
theorem loadAlike_sampleNear (hchange : ∀ x d, (change x d).1.shape = x.shape)
    (htmp : tmp.Spans v.width) (d : Draws) :
    LoadAlike v w (inPlace (v.sampleNear search extreme change fits tmp d))
      (inPlace (w.sampleNear search extreme change fits tmp d)) := by
  rw [sampleNear, sampleNear, hsearch]
  cases hfound : search v.toEnvelope tmp with
  | none => exact .refused d
  | some bound =>
      have hbound := htmp.of_shape (hshape tmp bound hfound)
      dsimp only
      split
      · exact loadAlike_proposeInPlace h hbound d
      · split
        · exact loadAlike_proposeInPlace h hbound _
        · exact loadAlike_proposeOrSearch h hsearch hshape (hbound.of_shape (hchange bound _)) _

end Near

theorem ceilUpTo?_eq : w.ceilUpTo? = v.ceilUpTo? := by
  funext lo hi dst
  rw [ceilUpTo?, ceilUpTo?, h.ceil?_eq]

theorem floorDownTo?_eq : w.floorDownTo? = v.floorDownTo? := by
  funext lo hi dst
  rw [floorDownTo?, floorDownTo?, h.floor?_eq]

theorem relaxUp_eq : w.relaxUp = v.relaxUp := by
  funext hi x d
  rw [relaxUp, relaxUp, h.scatterAbove_eq, h.lowerUntil_eq, h.inRange_eq]

theorem relaxDown_eq : w.relaxDown = v.relaxDown := by
  funext lo x d
  simp only [relaxDown, raiseInto, h.scatterBelow_eq, h.raiseUntil_eq, h.inRange_eq]

theorem fitsBetween_eq : w.fitsBetween = v.fitsBetween := by
  funext lo hi x
  rw [fitsBetween, fitsBetween, h.inRange_eq]

variable (htmp : tmp.Spans v.width)
include htmp

theorem loadAlike_sampleAtMost (src : Packed) (d : Draws) :
    LoadAlike v w (inPlace (v.sampleAtMost src tmp d)) (inPlace (w.sampleAtMost src tmp d)) := by
  rw [sampleAtMost, sampleAtMost, h.isZero_eq, h.scatterBelow_eq]
  exact loadAlike_sampleNear h (congrFun h.floor?_eq src) (fun _ _ => shape_of_floor?)
    v.shape_scatterBelow htmp d

theorem loadAlike_sampleAtLeast (src : Packed) (d : Draws) :
    LoadAlike v w (inPlace (v.sampleAtLeast src tmp d))
      (inPlace (w.sampleAtLeast src tmp d)) := by
  rw [sampleAtLeast, sampleAtLeast, h.isOnes_eq, h.scatterAbove_eq]
  exact loadAlike_sampleNear h (congrFun h.ceil?_eq src) (fun _ _ => shape_of_ceil?)
    v.shape_scatterAbove htmp d

theorem loadAlike_sampleBetween (lo hi : Packed) (d : Draws) :
    LoadAlike v w (inPlace (v.sampleBetween lo hi tmp d))
      (inPlace (w.sampleBetween lo hi tmp d)) := by
  simp only [sampleBetween, h.isOnes_eq, h.isZero_eq, relaxUp_eq h, relaxDown_eq h,
    fitsBetween_eq h]
  split
  · exact loadAlike_sampleNear h (congrFun (congrFun (ceilUpTo?_eq h) lo) hi)
      (fun _ _ => shape_of_ceilUpTo?) (v.shape_relaxUp hi) htmp _
  · exact loadAlike_sampleNear h (congrFun (congrFun (floorDownTo?_eq h) lo) hi)
      (fun _ _ => shape_of_floorDownTo?) (v.shape_relaxDown lo) htmp _

end Proposals

/-! ## Outcomes -/

/-- Two mutations come to the same outcome with the same draws left. If they are accepted, their
trial values are the same, and the envelopes are alike in any case. -/
structure EndsAlike (r s : Outcome × Valuation × Draws) : Prop where
  outcome_eq : s.1 = r.1
  draws_eq : s.2.2 = r.2.2
  trial_eq : r.1 = .accepted → s.2.1.trial.toNat = r.2.1.trial.toNat
  alike : r.2.1.toEnvelope.Alike s.2.1.toEnvelope

/-- Where nothing is accepted, only the envelopes have to be alike. -/
theorem EndsAlike.of_ne_accepted {o : Outcome} (ho : o ≠ .accepted) (d : Draws)
    (h : v.toEnvelope.Alike w.toEnvelope) : EndsAlike (o, v, d) (o, w, d) :=
  ⟨rfl, rfl, fun haccepted => absurd haccepted ho, h⟩

theorem LoadAlike.endsAlike {r s : Outcome × Valuation × Draws} (h : LoadAlike v w r s)
    (hv : v.Sound width) (hw : w.Sound width) (halike : v.toEnvelope.Alike w.toEnvelope) :
    EndsAlike r s := by
  cases h with
  | refused d => exact .of_ne_accepted (by simp) d halike
  | @loaded x hx d =>
      refine ⟨rfl, rfl, fun _ => ?_, halike⟩
      change (w.load x).trial.toNat = (v.load x).trial.toNat
      rw [hv.toNat_trial_load hx, hw.toNat_trial_load (halike.width_eq ▸ hx), halike.width_eq]

theorem endsAlike_ofExcept {a b : Except EnvelopeError Envelope}
    (h : EndAlike a b) (halike : v.toEnvelope.Alike w.toEnvelope) (x y : Packed) (d : Draws) :
    EndsAlike (Mutation.ofExcept v d (a.map fun e => ⟨e, x⟩))
      (Mutation.ofExcept w d (b.map fun e => ⟨e, y⟩)) := by
  cases h with
  | failed err => exact .of_ne_accepted (by simp) d halike
  | done h => exact .of_ne_accepted (by simp) d h

end Valuation

namespace Mutation

/-- Mutations that look at the trial value. -/
def ReadsTrial : Mutation → Prop
  | .tryBit _ _ | .commit => True
  | .limitSign _ | .load _ | .clearTrial | .writeBit _ _ | .writeWord _ _ | .propose _ | .pin _ _
  | .restrict _ _ | .tighten | .repair _ _ | .sampleAtMost _ _ | .sampleAtLeast _ _
  | .sampleBetween _ _ _ => False

end Mutation

open BitEnvelope.Valuation

variable {width : Nat} {v w : Valuation}

theorem Packed.MadeFor.spans {x : Packed} (h : x.MadeFor width) : x.Spans width := by
  obtain ⟨hwidth, hlength⟩ := h
  refine ⟨hwidth, Nat.le_trans ?_ hlength⟩
  unfold Packed.storageFor
  omega

/-- A mutation that does not look at the trial value comes to the same in both. -/
theorem Valuation.Sound.endsAlike_run (hv : v.Sound width) (hw : w.Sound width)
    (hclear : v.ClearHeadroom) (h : v.toEnvelope.Alike w.toEnvelope) {m : Mutation}
    (fits : m.Fits width) (hm : ¬ m.ReadsTrial) (d : Draws) :
    EndsAlike (m.run v d) (m.run w d) := by
  obtain rfl := hv.width_eq
  have hanswers := h.answersAlike hv.regular hw.regular hclear
  cases m with
  | tryBit | commit => exact absurd trivial hm
  | load | clearTrial | writeBit | writeWord => exact .of_ne_accepted (by simp) d h
  | limitSign k =>
      exact .of_ne_accepted (by simp) d ⟨h.width_eq, h.pins_eq, h.lo_eq, h.hi_eq,
        congrArg (min k) h.width_eq, h.current_bit_eq⟩
  | propose x =>
      simp only [Mutation.run, ← proposeInPlace_eq]
      exact (loadAlike_proposeInPlace hanswers fits.1.spans d).endsAlike hv hw h
  | «repair» downFirst x =>
      exact (loadAlike_repair? hanswers fits.1.spans downFirst d).endsAlike hv hw h
  | sampleAtMost src tmp =>
      exact (loadAlike_sampleAtMost hanswers fits.2.spans src d).endsAlike hv hw h
  | sampleAtLeast src tmp =>
      exact (loadAlike_sampleAtLeast hanswers fits.2.spans src d).endsAlike hv hw h
  | sampleBetween lo hi tmp =>
      exact (loadAlike_sampleBetween hanswers fits.2.spans lo hi d).endsAlike hv hw h
  | tighten =>
      exact endsAlike_ofExcept (h.tighten hv.regular hw.regular hclear) h v.trial w.trial d
  | restrict l r =>
      exact endsAlike_ofExcept (h.restrict hv.regular hw.regular hclear l r) h v.trial w.trial d
  | pin i b =>
      change EndsAlike (Mutation.ofExcept v d (v.pin i b)) (Mutation.ofExcept w d (w.pin i b))
      rw [pin, pin]
      by_cases hi : i < v.width
      · have hi' : i < w.width := h.width_eq.symm ▸ hi
        have hpinned := (h.pin hv.regular hw.regular hi b).tighten (hv.regular.pin hi b)
          (hw.regular.pin hi' b) (hclear.pin hi b)
        rw [if_pos hi, if_pos hi']
        exact endsAlike_ofExcept hpinned h (v.trial.setBit i b) (w.trial.setBit i b) d
      · rw [if_neg hi, h.width_eq, if_neg hi]
        exact .of_ne_accepted (by simp) d h

/-- The envelope decides a search: two valuations whose envelopes are alike give the same answers
and write the same values, and every mutation that does not look at the trial value comes to the
same outcome in both, with the same draws left, the same trial value if it is accepted, and
envelopes that are alike. -/
theorem Reachable.alike_decides (hv : Reachable width v) (hw : Reachable width w)
    (h : v.toEnvelope.Alike w.toEnvelope) :
    v.toEnvelope.AnswersAlike w.toEnvelope ∧
      ∀ m : Mutation, m.Fits width → ¬ m.ReadsTrial → ∀ d, EndsAlike (m.run v d) (m.run w d) := by
  have hclear := hv.stored.clear
  exact ⟨h.answersAlike hv.sound.regular hw.sound.regular hclear,
    fun m fits hm d => hv.sound.endsAlike_run hw.sound hclear h fits hm d⟩

/-- The odd numbers outside the gap with thirteen as the committed value and sixteen as the trial
value. -/
def Valuation.oddAtThirteen : Valuation :=
  ((Mutation.load (Packed.ofNat 8 16)).run
    (Mutation.commit.run
      ((Mutation.propose (Packed.ofNat 8 13)).run oddOutsideGap (Draws.start [] 0)).2.1
      (Draws.start [] 0)).2.1 (Draws.start [] 0)).2.1

/-- A restriction to the numbers from twelve to two hundred moves the committed value one to
thirteen, where the other search already is. Both go on with envelopes that are alike. -/
theorem Reachable.alike_decides_oddOutsideGap :
    (Reachable 8 oddOutsideGap ∧ oddOutsideGap.current.toNat = 1) ∧
      (Reachable 8 oddAtThirteen ∧ oddAtThirteen.current.toNat = 13) ∧
      oddOutsideGap.toEnvelope.Alike oddAtThirteen.toEnvelope ∧
      oddAtThirteen.admits = oddOutsideGap.admits ∧
      ((Mutation.restrict 12 200).run oddOutsideGap (Draws.start [] 0)).1 = .done ∧
      EndsAlike ((Mutation.restrict 12 200).run oddOutsideGap (Draws.start [] 0))
        ((Mutation.restrict 12 200).run oddAtThirteen (Draws.start [] 0)) := by
  have hthirteen : (Packed.ofNat 8 13).Fits 8 := by decide
  have hsixteen : (Packed.ofNat 8 16).Fits 8 := by decide
  have hreachable : Reachable 8 oddAtThirteen :=
    .run (.run (.run reachable_oddOutsideGap (.propose (Packed.ofNat 8 13)) hthirteen _)
      .commit trivial _) (.load (Packed.ofNat 8 16)) hsixteen _
  have halike : oddOutsideGap.toEnvelope.Alike oddAtThirteen.toEnvelope := by
    refine ⟨rfl, by decide, by decide, by decide, by decide, ?_⟩
    decide
  obtain ⟨hanswers, hends⟩ := reachable_oddOutsideGap.alike_decides hreachable halike
  exact ⟨⟨reachable_oddOutsideGap, by decide⟩, ⟨hreachable, by decide⟩, halike,
    hanswers.admits_eq, by decide, hends (.restrict 12 200) trivial id (Draws.start [] 0)⟩

end BitEnvelope
