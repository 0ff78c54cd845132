import BitEnvelope.Proofs.Envelope.Perturbation
import BitEnvelope.Proofs.Envelope.Search
import BitEnvelope.Valuation.Mutation

/-!
# What a mutation can change

A mutation either changes the trial value alone or is one of the few that write the envelope.
`Change` lists these cases, and `change_run` says that a mutation that is carried out, refused or
failed is one of them, so a property of valuations is kept by every mutation if it is kept by
every change. The samplers are covered by one fact: what they propose is a value of the width that
has been admitted.
-/

namespace BitEnvelope

namespace Valuation

/-- A change that a mutation can make to `v`. -/
inductive Change (v : Valuation) : Valuation → Prop
  | trial (x : Packed) (h : x.shape = v.trial.shape) : Change v { v with trial := x }
  | limitSign (k : Nat) : Change v (v.limitSign k)
  | commit (h : v.admits v.trial = true) :
      Change v { v with current := v.current.copyFrom v.wordCount v.trial }
  | pin {w : Valuation} (i : Nat) (b : Bool) (h : v.pin i b = .ok w) : Change v w
  | restrict {w : Valuation} (l r : Int) (h : v.restrict l r = .ok w) : Change v w
  | tighten {w : Valuation} (h : v.tighten = .ok w) : Change v w

variable {v w : Valuation}

theorem Change.refl (v : Valuation) : Change v v := .trial v.trial rfl

/-- The valuation `w` is `v` with another trial value of the same shape. -/
def ChangesTrial (v w : Valuation) : Prop :=
  ∃ x : Packed, x.shape = v.trial.shape ∧ w = { v with trial := x }

theorem ChangesTrial.change (h : ChangesTrial v w) : Change v w := by
  obtain ⟨x, hshape, rfl⟩ := h
  exact .trial x hshape

theorem ChangesTrial.toEnvelope_eq (h : ChangesTrial v w) : w.toEnvelope = v.toEnvelope := by
  obtain ⟨x, -, rfl⟩ := h
  rfl

theorem changesTrial_load (v : Valuation) (x : Packed) : ChangesTrial v (v.load x) :=
  ⟨_, (Packed.shape_setWord _ _ _).trans (Packed.shape_copyFrom _ _ _), rfl⟩

theorem changesTrial_writeBit (v : Valuation) (i : Nat) (b : Bool) :
    ChangesTrial v (v.writeBit i b) :=
  ⟨_, Packed.shape_setBit _ _ _, rfl⟩

/-! ## Proposals -/

/-- The valuation `w` is `v` with an admitted value of its width as its trial value. -/
def Loads (v w : Valuation) : Prop :=
  ∃ x : Packed, x.Spans v.width ∧ v.admits x = true ∧ w = v.load x

theorem admits_of_propose? {x : Packed} (h : v.propose? x = some w) :
    v.admits x = true ∧ w = v.load x := by
  rw [propose?] at h
  split at h
  · rename_i hx
    cases h
    exact ⟨hx, rfl⟩
  · cases h

theorem loads_of_propose? {x : Packed} (hx : x.Spans v.width) (h : v.propose? x = some w) :
    Loads v w := by
  obtain ⟨hadmits, rfl⟩ := admits_of_propose? h
  exact ⟨x, hx, hadmits, rfl⟩

/-- What comes of proposals to `v` in place, of which `Q` holds: one of them is admitted and loaded,
or `v` is left. -/
inductive Proposed (v : Valuation) (Q : Packed → Prop) : Outcome × Valuation → Prop
  | accepted {x : Packed} (hx : Q x) (admits : v.admits x = true) :
      Proposed v Q (.accepted, v.load x)
  | refused : Proposed v Q (.refused, v)

theorem proposed_proposeInPlace {Q : Packed → Prop} {x : Packed} (hx : Q x) :
    Proposed v Q (v.proposeInPlace x) := by
  rw [proposeInPlace]
  split
  · rename_i hadmits
    exact .accepted hx hadmits
  · exact .refused

/-! ## Samplers -/

section Near

variable {search : Envelope → Packed → Option Packed} {extreme : Packed → Bool}
  {change : Packed → Draws → Packed × Draws} {fits : Packed → Bool} {x tmp : Packed}

/-- A proposal that is refused leaves `v`, so the search that follows is one in the envelope
of `v`. -/
theorem proposeOrSearch_eq : v.proposeOrSearch search fits x =
    if fits x && v.admits x then (.accepted, v.load x)
    else match search v.toEnvelope x with
      | some y => v.proposeInPlace y
      | none => (.refused, v) := by
  rw [proposeOrSearch, proposeInPlace]
  cases fits x <;> cases v.admits x <;> rfl

variable {Q : Packed → Prop} (hQ : Packed.OfShape Q) (htmp : Q tmp)
  (hsearch : ∀ x y, search v.toEnvelope x = some y → y.shape = x.shape)
  (hchange : ∀ x d, (change x d).1.shape = x.shape)
include hQ htmp hsearch hchange

/-- A sampler finds nothing, proposes what it has found over its scratch value or over a change of
it, or changes what it has found to a value that fits and is admitted. What holds in each of these
cases holds of its answer. -/
theorem sampleNear_induction {P : Outcome × Valuation → Prop}
    (lost : ∀ x, Q x → search v.toEnvelope x = none → P (.refused, v))
    (found : ∀ x y, Q x → search v.toEnvelope x = some y → P (v.proposeInPlace y))
    (changed : ∀ x, Q x → fits x = true → v.admits x = true → P (.accepted, v.load x))
    (d : Draws) : P (v.sampleNear search extreme change fits tmp d).1 := by
  rw [sampleNear]
  split
  · rename_i hnone
    exact lost tmp htmp hnone
  · rename_i bound hbound
    have hproposed := found tmp bound htmp hbound
    split
    · exact hproposed
    · dsimp only
      split
      · exact hproposed
      · have hx := hQ _ _ (hchange bound d.coin.2) (hQ _ _ (hsearch tmp bound hbound) htmp)
        rw [proposeOrSearch_eq]
        split
        · rename_i htaken
          obtain ⟨hfits, hadmits⟩ := Bool.and_eq_true_iff.mp htaken
          exact changed _ hx hfits hadmits
        · split
          · rename_i y hy
            exact found _ y hx hy
          · rename_i hnone
            exact lost _ hx hnone

theorem proposed_sampleNear (d : Draws) :
    Proposed v Q (v.sampleNear search extreme change fits tmp d).1 :=
  sampleNear_induction hQ htmp hsearch hchange (fun _ _ _ => .refused)
    (fun x y hx hy => proposed_proposeInPlace (hQ x y (hsearch x y hy) hx))
    (fun _ hx _ hadmits => .accepted hx hadmits) d

end Near

theorem shape_relaxUp (v : Valuation) (hi x : Packed) (d : Draws) :
    (v.relaxUp hi x d).1.shape = x.shape :=
  (v.shape_lowerUntil _ _).trans (v.shape_scatterAbove x d)

theorem shape_relaxDown (v : Valuation) (lo x : Packed) (d : Draws) :
    (v.relaxDown lo x d).1.shape = x.shape :=
  (v.shape_raiseUntil _ _).trans (v.shape_scatterBelow x d)

section Samplers

variable {Q : Packed → Prop} {tmp : Packed} (hQ : Packed.OfShape Q) (htmp : Q tmp)
include hQ htmp

theorem proposed_sampleAtMost (src : Packed) (d : Draws) :
    Proposed v Q (v.sampleAtMost src tmp d).1 :=
  proposed_sampleNear hQ htmp (fun _ _ => Envelope.shape_of_floor?) v.shape_scatterBelow d

theorem proposed_sampleAtLeast (src : Packed) (d : Draws) :
    Proposed v Q (v.sampleAtLeast src tmp d).1 :=
  proposed_sampleNear hQ htmp (fun _ _ => Envelope.shape_of_ceil?) v.shape_scatterAbove d

theorem proposed_sampleBetween (lo hi : Packed) (d : Draws) :
    Proposed v Q (v.sampleBetween lo hi tmp d).1 := by
  simp only [sampleBetween]
  split
  · exact proposed_sampleNear hQ htmp (fun _ _ => Envelope.shape_of_ceilUpTo?)
      (v.shape_relaxUp hi) _
  · exact proposed_sampleNear hQ htmp (fun _ _ => Envelope.shape_of_floorDownTo?)
      (v.shape_relaxDown lo) _

end Samplers

end Valuation

namespace Mutation

variable {v : Valuation}

open BitEnvelope.Valuation

/-- Mutations that write the trial value and nothing else. -/
def WritesTrial : Mutation → Prop
  | .load _ | .clearTrial | .writeBit _ _ | .writeWord _ _ | .propose _ | .tryBit _ _
  | .repair _ _ | .sampleAtMost _ _ | .sampleAtLeast _ _ | .sampleBetween _ _ _ => True
  | .limitSign _ | .commit | .pin _ _ | .restrict _ _ | .tighten => False

/-- A property of `v` and of what it may become holds of the valuation after the change. -/
theorem ofOption_induction {P : Valuation → Prop} {o : Option Valuation × Draws} (refused : P v)
    (accepted : ∀ w, o.1 = some w → P w) : P (ofOption v o).2.1 := by
  obtain ⟨o, d⟩ := o
  cases o with
  | none => exact refused
  | some w => exact accepted w rfl

theorem ofExcept_induction {P : Valuation → Prop} {d : Draws} {o : Except EnvelopeError Valuation}
    (failed : P v) (done : ∀ w, o = .ok w → P w) : P (ofExcept v d o).2.1 := by
  cases o with
  | error => exact failed
  | ok w => exact done w rfl

/-- A property of `v` and of what it may load holds of what proposals in place leave. -/
theorem proposed_induction {P : Valuation → Prop} {Q : Packed → Prop}
    {r : (Outcome × Valuation) × Draws} (h : Proposed v Q r.1) (refused : P v)
    (accepted : ∀ x, Q x → v.admits x = true → P (v.load x)) : P (inPlace r).2.1 := by
  obtain ⟨⟨o, w⟩, d⟩ := r
  cases h with
  | accepted hx hadmits => exact accepted _ hx hadmits
  | refused => exact refused

theorem changesTrial_ofOption {o : Option Valuation × Draws}
    (h : ∀ w, o.1 = some w → ChangesTrial v w) : ChangesTrial v (ofOption v o).2.1 :=
  ofOption_induction ⟨v.trial, rfl, rfl⟩ h

theorem changesTrial_proposed {Q : Packed → Prop} {r : (Outcome × Valuation) × Draws}
    (h : Proposed v Q r.1) : ChangesTrial v (inPlace r).2.1 :=
  proposed_induction h ⟨v.trial, rfl, rfl⟩ fun x _ _ => changesTrial_load v x

theorem changesTrial_run {m : Mutation} (hm : m.WritesTrial) (v : Valuation) (d : Draws) :
    ChangesTrial v (m.run v d).2.1 := by
  cases m with
  | limitSign | commit | pin | restrict | tighten => exact hm.elim
  | load x => exact changesTrial_load v x
  | clearTrial => exact ⟨_, Packed.shape_write _ _, rfl⟩
  | writeBit i b => exact changesTrial_writeBit v i b
  | writeWord i w => exact ⟨_, Packed.shape_setWord _ _ _, rfl⟩
  | propose x =>
      refine changesTrial_ofOption fun w h => ?_
      obtain ⟨-, rfl⟩ := admits_of_propose? h
      exact changesTrial_load v x
  | tryBit i b =>
      refine changesTrial_ofOption fun w h => ?_
      simp only [tryBit?] at h
      split at h
      · cases h
      · split at h
        · cases h
          exact changesTrial_writeBit v i b
        · cases h
  | «repair» downFirst x =>
      refine changesTrial_ofOption fun w h => ?_
      obtain ⟨⟨y, w⟩, hy, rfl⟩ := Option.map_eq_some_iff.mp h
      obtain ⟨z, -, hz⟩ := Option.map_eq_some_iff.mp hy
      cases hz
      exact changesTrial_load v _
  | sampleAtMost src tmp =>
      exact changesTrial_proposed (proposed_sampleAtMost Packed.ofShape_true trivial src d)
  | sampleAtLeast src tmp =>
      exact changesTrial_proposed (proposed_sampleAtLeast Packed.ofShape_true trivial src d)
  | sampleBetween lo hi tmp =>
      exact changesTrial_proposed (proposed_sampleBetween Packed.ofShape_true trivial lo hi d)

theorem change_ofExcept {d : Draws} {o : Except EnvelopeError Valuation}
    (h : ∀ w, o = .ok w → Change v w) : Change v (ofExcept v d o).2.1 :=
  ofExcept_induction (Change.refl v) h

/-- Whatever comes of a mutation, the valuation after it is reached by one of the changes. -/
theorem change_run (m : Mutation) (v : Valuation) (d : Draws) : Change v (m.run v d).2.1 := by
  have htrial : m.WritesTrial → Change v (m.run v d).2.1 := fun hm =>
    (changesTrial_run hm v d).change
  cases m with
  | load | clearTrial | writeBit | writeWord | propose | tryBit | «repair» | sampleAtMost
  | sampleAtLeast | sampleBetween => exact htrial trivial
  | limitSign k => exact .limitSign k
  | commit =>
      refine ofOption_induction (Change.refl v) fun w h => ?_
      simp only [commit?] at h
      split at h
      · rename_i hadmits
        cases h
        exact .commit hadmits
      · cases h
  | pin i b => exact change_ofExcept fun w h => .pin i b h
  | restrict l r => exact change_ofExcept fun w h => .restrict l r h
  | tighten => exact change_ofExcept fun w h => .tighten h

end Mutation

end BitEnvelope
