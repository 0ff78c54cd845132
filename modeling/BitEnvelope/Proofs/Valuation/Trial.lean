import BitEnvelope.Proofs.Envelope.Headroom
import BitEnvelope.Proofs.Valuation.Sampling

/-!
# The trial value in a run

A proposal is tested before it becomes the trial value, so a trial value that the envelope admits is
only ever followed by another one, and a commit is accepted at any point. A run may also change the
envelope: the pins then still hold in the trial value, because a pin is written to it as well, but
the interval may leave it behind. Only the mutations that overwrite the trial value untested can
break the pins.
-/

namespace BitEnvelope

/-! ## Kinds of mutations -/

namespace Mutation

/-- Mutations that propose a trial value, or commit it. -/
def Proposes : Mutation → Prop
  | .propose _ | .tryBit _ _ | .commit | .repair _ _ | .sampleAtMost _ _ | .sampleAtLeast _ _
  | .sampleBetween _ _ _ => True
  | .limitSign _ | .load _ | .clearTrial | .writeBit _ _ | .writeWord _ _ | .pin _ _
  | .restrict _ _ | .tighten => False

/-- Mutations that do not overwrite the trial value untested. -/
def KeepsTrialTested : Mutation → Prop
  | .load _ | .clearTrial | .writeBit _ _ | .writeWord _ _ => False
  | .propose _ | .tryBit _ _ | .commit | .repair _ _ | .sampleAtMost _ _ | .sampleAtLeast _ _
  | .sampleBetween _ _ _ | .limitSign _ | .pin _ _ | .restrict _ _ | .tighten => True

/-- The values that a mutation carries have words for `width` bits. Bits above them may be set. -/
def Spans (width : Nat) : Mutation → Prop
  | .load x | .propose x | .repair _ x => x.Spans width
  | .sampleAtMost src tmp | .sampleAtLeast src tmp => src.Spans width ∧ tmp.Spans width
  | .sampleBetween lo hi tmp => (lo.Spans width ∧ hi.Spans width) ∧ tmp.Spans width
  | .limitSign _ | .clearTrial | .writeBit _ _ | .writeWord _ _ | .tryBit _ _ | .commit
  | .pin _ _ | .restrict _ _ | .tighten => True

/-- The position that a mutation tries lies below the width. -/
def TriesBelow (width : Nat) : Mutation → Prop
  | .tryBit i _ => i < width
  | _ => True

/-- One mutation of a kind leads from `v` to `w`. -/
def StepOf (P : Mutation → Prop) (v w : Valuation) : Prop :=
  ∃ (m : Mutation) (d : Draws), P m ∧ (m.run v d).2.1 = w

theorem StepOf.mono {P Q : Mutation → Prop} {v w : Valuation} (h : StepOf P v w)
    (hPQ : ∀ m, P m → Q m) : StepOf Q v w := by
  obtain ⟨m, d, hm, hw⟩ := h
  exact ⟨m, d, hPQ m hm, hw⟩

theorem Proposes.keepsTrialTested {m : Mutation} (h : m.Proposes) : m.KeepsTrialTested := by
  cases m <;> trivial

/-- What every mutation of a kind keeps, a run of such mutations keeps. -/
theorem steps_induction {width : Nat} {P : Mutation → Prop} {Inv : Valuation → Prop}
    {v w : Valuation}
    (step : ∀ (v : Valuation) (m : Mutation) (d : Draws), v.Sound width → P m → Inv v →
      Inv (m.run v d).2.1)
    (hv : v.Sound width) (inv : Inv v) (h : Relation.ReflTransGen (StepOf P) v w) :
    w.Sound width ∧ Inv w := by
  induction h with
  | refl => exact ⟨hv, inv⟩
  | @tail u w _ hstep ih =>
      obtain ⟨hu, hinv⟩ := ih
      obtain ⟨m, d, hm, rfl⟩ := hstep
      exact ⟨hu.change (m.change_run u d), step u m d hu hm hinv⟩

end Mutation

/-! ## What one mutation does to the trial value -/

namespace Valuation

variable {width : Nat} {v w : Valuation} {m : Mutation}

/-- What the mutation `m` makes of the trial value of `v` if it does not overwrite it untested. A
trial value that is kept keeps the pins, and a proposal does not take it out of the envelope. -/
inductive TrialChange (v : Valuation) (m : Mutation) : Valuation → Prop
  | kept {w : Valuation} (trial_eq : w.trial = v.trial)
      (completes_iff : ∀ n, w.Completes n ↔ v.Completes n)
      (allows_iff : m.Proposes → ∀ n, w.Allows n ↔ v.Allows n) : TrialChange v m w
  | loaded {w : Valuation} (loads : Loads v w) : TrialChange v m w
  | tried (i : Nat) (b : Bool) (eq : m = .tryBit i b) (free : v.forbids i b = false)
      (inside : v.inRange (v.trial.setBit i b) = true) : TrialChange v m (v.writeBit i b)
  | pinned {w : Valuation} (i : Nat) (b : Bool) (eq : m = .pin i b) (done : v.pin i b = .ok w) :
      TrialChange v m w

theorem TrialChange.refused (v : Valuation) (m : Mutation) : TrialChange v m v :=
  .kept rfl (fun _ => Iff.rfl) fun _ _ => Iff.rfl

theorem trialChange_tryBit {i : Nat} {b : Bool} (h : v.tryBit? i b = some w) :
    TrialChange v (.tryBit i b) w := by
  simp only [tryBit?] at h
  split at h
  · cases h
  · rename_i hpins
    split at h
    · rename_i hin
      cases h
      exact .tried i b rfl (Bool.not_eq_true _ ▸ hpins) hin
    · cases h

namespace Sound

variable (hv : v.Sound width)
include hv

theorem trialChange_commit (h : v.commit? = some w) : TrialChange v .commit w := by
  rw [commit?] at h
  split at h
  · rename_i hadmits
    cases h
    have hsame := sameValues_of_commit hv.regular hv.trial hadmits
    exact .kept rfl hsame.completes_iff fun _ => hsame.allows_iff
  · cases h

theorem loads_of_repair? {x : Packed} (hx : x.Spans v.width) {downFirst : Bool}
    (h : (v.repair? downFirst x).map Prod.snd = some w) : Loads v w := by
  obtain ⟨⟨y, w⟩, hy, rfl⟩ := Option.map_eq_some_iff.mp h
  obtain ⟨z, hz, heq⟩ := Option.map_eq_some_iff.mp hy
  cases heq
  have hspans := hx.of_shape (Envelope.shape_of_repair? hz)
  have hadmits := (hv.regular.admits_iff hspans).mpr (hv.regular.allows_of_repair? hx hz)
  exact ⟨y, hspans, hadmits, rfl⟩

/-- Whatever comes of a mutation that does not overwrite the trial value untested, the trial value
has changed in one of these ways. -/
theorem trialChange_run (hm : m.KeepsTrialTested) (hspans : m.Spans v.width) (d : Draws) :
    TrialChange v m (m.run v d).2.1 := by
  have hrefused := TrialChange.refused v m
  have hloaded : ∀ x : Packed, x.Spans v.width → v.admits x = true → TrialChange v m (v.load x) :=
    fun x hx hadmits => .loaded ⟨x, hx, hadmits, rfl⟩
  cases m with
  | load | clearTrial | writeBit | writeWord => exact hm.elim
  | propose x =>
      exact Mutation.ofOption_induction hrefused fun w h => .loaded (loads_of_propose? hspans h)
  | tryBit i b => exact Mutation.ofOption_induction hrefused fun w h => trialChange_tryBit h
  | commit => exact Mutation.ofOption_induction hrefused fun w h => hv.trialChange_commit h
  | «repair» downFirst x =>
      exact Mutation.ofOption_induction hrefused fun w h => .loaded (hv.loads_of_repair? hspans h)
  | sampleAtMost src tmp =>
      apply Mutation.proposed_induction _ hrefused hloaded
      exact proposed_sampleAtMost Packed.ofShape_spans hspans.2 src d
  | sampleAtLeast src tmp =>
      apply Mutation.proposed_induction _ hrefused hloaded
      exact proposed_sampleAtLeast Packed.ofShape_spans hspans.2 src d
  | sampleBetween lo hi tmp =>
      apply Mutation.proposed_induction _ hrefused hloaded
      exact proposed_sampleBetween Packed.ofShape_spans hspans.2 lo hi d
  | limitSign k => exact .kept rfl (fun _ => Iff.rfl) fun hproposes => hproposes.elim
  | pin i b => exact Mutation.ofExcept_induction hrefused fun w h => .pinned i b rfl h
  | restrict l r =>
      refine Mutation.ofExcept_induction hrefused fun w h => ?_
      rcases eq_or_sameValues_of_restrict hv.regular h with ⟨-, rfl⟩ | ⟨-, hsame, htrial⟩
      · exact hrefused
      · exact .kept htrial hsame.completes_iff fun hproposes => hproposes.elim
  | tighten =>
      refine Mutation.ofExcept_induction hrefused fun w h => ?_
      obtain ⟨hsame, htrial⟩ := sameValues_of_tighten hv.regular h
      exact .kept htrial hsame.completes_iff fun hproposes => hproposes.elim

end Sound

/-! ## What a run keeps -/

/-- The trial value is a value of the envelope. -/
def TrialAllowed (v : Valuation) : Prop := v.Allows v.trial.toNat

/-- The trial value is a completion of the pins. -/
def TrialCompletes (v : Valuation) : Prop := v.Completes v.trial.toNat

/-- The words of the trial value beyond those that carry a value are clear. -/
def TrialHeadroomClear (v : Valuation) : Prop :=
  v.trial.headroom v.width = (Packed.blank v.width).headroom v.width

namespace Sound

variable (hv : v.Sound width)
include hv

theorem trialAllowed_of_loads (h : Loads v w) : w.TrialAllowed := by
  obtain ⟨x, hx, hadmits, rfl⟩ := h
  have hallows := (hv.regular.admits_iff hx).mp hadmits
  rw [TrialAllowed, hv.toNat_trial_load hx, Nat.mod_eq_of_lt hallows.1]
  exact hallows

theorem trialCompletes_of_change (h : TrialChange v m w) (htrial : v.TrialCompletes) :
    w.TrialCompletes := by
  cases h with
  | kept trial_eq completes_iff _ =>
      rw [TrialCompletes, trial_eq, completes_iff]
      exact htrial
  | loaded loads => exact (Envelope.allows_iff.mp (hv.trialAllowed_of_loads loads)).1
  | tried i b _ free _ => exact hv.regular.completes_setBit hv.trial htrial free
  | pinned i b _ done =>
      obtain ⟨hi, hsame, hw⟩ := sameValues_of_pin hv.regular done
      rw [TrialCompletes, hw, hsame.completes_iff]
      exact hv.regular.completes_pin hi b hv.trial htrial

/-- A proposal is tested against the envelope. A single bit is tested against its own pin only; the
other pins hold because they held before. -/
theorem trialAllowed_of_change (h : TrialChange v m w) (hm : m.Proposes)
    (htrial : v.TrialAllowed) : w.TrialAllowed := by
  cases h with
  | kept trial_eq _ allows_iff =>
      rw [TrialAllowed, trial_eq, allows_iff hm]
      exact htrial
  | loaded loads => exact hv.trialAllowed_of_loads loads
  | tried i b _ free inside =>
      have hcompletes := (Envelope.allows_iff.mp htrial).1
      have hspans := hv.trial.of_shape (Packed.shape_setBit v.trial i b)
      exact Envelope.allows_iff.mpr ⟨hv.regular.completes_setBit hv.trial hcompletes free,
        (hv.regular.inRange_iff hspans).mp inside⟩
  | pinned i b eq _ =>
      rw [eq] at hm
      exact hm.elim

theorem trialHeadroomClear_of_change (h : TrialChange v m w) (hwidth : w.width = v.width)
    (hbelow : m.TriesBelow v.width) (htrial : v.TrialHeadroomClear) : w.TrialHeadroomClear := by
  rw [TrialHeadroomClear, hwidth]
  refine Eq.trans ?_ htrial
  cases h with
  | kept trial_eq _ _ => rw [trial_eq]
  | loaded loads =>
      obtain ⟨x, -, -, rfl⟩ := loads
      exact Envelope.headroom_dropOverflow.trans hv.trial.headroom_copyFrom
  | tried i b eq _ _ =>
      rw [eq] at hbelow
      exact Packed.headroom_setBit (Packed.lt_words_of_lt hbelow) b
  | pinned i b _ done =>
      obtain ⟨hi, -, hw⟩ := sameValues_of_pin hv.regular done
      rw [hw, Packed.headroom_setBit (Packed.lt_words_of_lt hi)]

/-- An admitted trial value becomes the committed value. -/
theorem exists_commit_run (htrial : v.admits v.trial = true) (d : Draws) :
    ∃ w, Mutation.commit.run v d = (.accepted, w, d) ∧
      w.current.toNat = v.trial.toNat ∧ w.trial = v.trial := by
  have hcommit : v.commit? =
      some { v with current := v.current.copyFrom v.wordCount v.trial } := if_pos htrial
  exact ⟨_, congrArg (fun o => Mutation.ofOption v (o, d)) hcommit,
    Envelope.toNat_copy hv.regular.current.toSpans hv.trial, rfl⟩

end Sound

/-! ## Runs -/

theorem trialAllowed_steps (hv : v.Sound width) (htrial : v.TrialAllowed)
    (h : Relation.ReflTransGen (Mutation.StepOf fun m => m.Proposes ∧ m.Spans width) v w) :
    w.Sound width ∧ w.TrialAllowed := by
  refine Mutation.steps_induction ?_ hv htrial h
  rintro u m d hu ⟨hproposes, hspans⟩ hallowed
  have hchange := hu.trialChange_run hproposes.keepsTrialTested (hu.width_eq.symm ▸ hspans) d
  exact hu.trialAllowed_of_change hchange hproposes hallowed

theorem trialCompletes_steps
    (h : Relation.ReflTransGen (Mutation.StepOf fun m => m.KeepsTrialTested ∧ m.Spans width)
      (blank width) w) : w.Sound width ∧ w.TrialCompletes := by
  have hblank := sound_blank width
  refine Mutation.steps_induction ?_ hblank hblank.regular.completes_current h
  rintro u m d hu ⟨htested, hspans⟩ hcompletes
  have hchange := hu.trialChange_run htested (hu.width_eq.symm ▸ hspans) d
  exact hu.trialCompletes_of_change hchange hcompletes

theorem trialHeadroomClear_steps
    (h : Relation.ReflTransGen
      (Mutation.StepOf fun m => (m.KeepsTrialTested ∧ m.Spans width) ∧ m.TriesBelow width)
      (blank width) w) : w.Sound width ∧ w.TrialHeadroomClear := by
  refine Mutation.steps_induction ?_ (sound_blank width) rfl h
  rintro u m d hu ⟨⟨htested, hspans⟩, hbelow⟩ hclear
  obtain rfl := hu.width_eq
  have hwidth := (hu.change (m.change_run u d)).width_eq
  exact hu.trialHeadroomClear_of_change (hu.trialChange_run htested hspans d) hwidth hbelow hclear

/-- Of a trial value that the envelope admits, a run of proposals leads to one that it admits, so a
commit is accepted and makes it the committed value. In a run from the unrestricted valuation that
never overwrites the trial value untested, the trial value keeps the pins and has no bit above the
width; nor has its headroom, if no position above the width is tried. -/
theorem trial_committable (width : Nat) :
    (∀ v w, Reachable width v → v.admits v.trial = true →
      Relation.ReflTransGen (Mutation.StepOf fun m => m.Proposes ∧ m.Spans width) v w →
      w.admits w.trial = true ∧
        ∀ d, ∃ u, Mutation.commit.run w d = (.accepted, u, d) ∧
          u.current.toNat = w.trial.toNat ∧ u.trial = w.trial) ∧
    (∀ w, Relation.ReflTransGen
        (Mutation.StepOf fun m => m.KeepsTrialTested ∧ m.Spans width) (blank width) w →
      w.agrees w.trial = true ∧ w.hasOverflow w.trial = false) ∧
    ∀ w, Relation.ReflTransGen
        (Mutation.StepOf fun m => (m.KeepsTrialTested ∧ m.Spans width) ∧ m.TriesBelow width)
        (blank width) w →
      ∀ i, width ≤ i → w.trial.bit i = false := by
  refine ⟨?_, ?_, ?_⟩
  · intro v w hreachable hadmits hrun
    have hv := hreachable.sound
    have hallowed := (hv.regular.admits_iff hv.trial).mp hadmits
    obtain ⟨hw, htrial⟩ := trialAllowed_steps hv hallowed hrun
    have hadmits' := (hw.regular.admits_iff hw.trial).mpr htrial
    exact ⟨hadmits', hw.exists_commit_run hadmits'⟩
  · intro w hrun
    obtain ⟨hw, htrial⟩ := trialCompletes_steps hrun
    exact ⟨(hw.regular.agrees_iff hw.trial).mpr htrial,
      (Envelope.hasOverflow_eq_false_iff hw.trial).mpr htrial.1⟩
  · intro w hrun i hi
    obtain ⟨hw, hclear⟩ := trialHeadroomClear_steps hrun
    have htested := Relation.ReflTransGen.mono
      (fun _ _ hstep => Mutation.StepOf.mono hstep fun _ hm => hm.1) _ _ hrun
    obtain ⟨-, htrial⟩ := trialCompletes_steps htested
    obtain rfl := hw.width_eq
    rcases Nat.lt_or_ge i (32 * Word.count w.width) with hc | hc
    · have hvalue : w.trial.IsValue w.width := ⟨hw.trial, htrial.1⟩
      exact hvalue.bit_of_le hi hc
    · rw [Packed.bit_eq_of_headroom_eq hclear hc, Packed.bit_blank]

/-- From the odd numbers outside the gap, with one as the trial value, bit four is set, bit zero
cannot be cleared, and the seventeen that results can be committed. -/
theorem trial_committable_oddOutsideGap :
    Reachable 8 oddOutsideGap ∧ oddOutsideGap.admits oddOutsideGap.trial = true ∧
      oddOutsideGap.trial.toNat = 1 ∧
      (∃ w u, Relation.ReflTransGen
          (Mutation.StepOf fun m => m.Proposes ∧ m.Spans 8) oddOutsideGap w ∧
        w.trial.toNat = 17 ∧
        Mutation.commit.run w (Draws.start [] 0) = (.accepted, u, Draws.start [] 0) ∧
        u.current.toNat = 17) ∧
      oddOutsideGap.agrees oddOutsideGap.trial = true ∧
      ∀ i, 8 ≤ i → oddOutsideGap.trial.bit i = false := by
  obtain ⟨hproposals, htested, hclear⟩ := trial_committable 8
  have hadmits : oddOutsideGap.admits oddOutsideGap.trial = true := by decide
  have hset : Mutation.StepOf (fun m => m.Proposes ∧ m.Spans 8) oddOutsideGap
      ((Mutation.tryBit 4 true).run oddOutsideGap (Draws.start [] 0)).2.1 :=
    ⟨.tryBit 4 true, Draws.start [] 0, ⟨trivial, trivial⟩, rfl⟩
  have hrefused : Mutation.StepOf (fun m => m.Proposes ∧ m.Spans 8)
      ((Mutation.tryBit 4 true).run oddOutsideGap (Draws.start [] 0)).2.1
      ((Mutation.tryBit 0 false).run
        ((Mutation.tryBit 4 true).run oddOutsideGap (Draws.start [] 0)).2.1
        (Draws.start [] 0)).2.1 :=
    ⟨.tryBit 0 false, Draws.start [] 0, ⟨trivial, trivial⟩, rfl⟩
  have hrun := (Relation.ReflTransGen.single hset).tail hrefused
  obtain ⟨-, hcommit⟩ := hproposals _ _ reachable_oddOutsideGap hadmits hrun
  obtain ⟨u, hu, hcurrent, -⟩ := hcommit (Draws.start [] 0)
  have hseventeen : ((Mutation.tryBit 0 false).run
      ((Mutation.tryBit 4 true).run oddOutsideGap (Draws.start [] 0)).2.1
      (Draws.start [] 0)).2.1.trial.toNat = 17 := by
    decide
  have hpin : Mutation.StepOf
      (fun m => (m.KeepsTrialTested ∧ m.Spans 8) ∧ m.TriesBelow 8) (blank 8)
      ((Mutation.pin 0 true).run (blank 8) (Draws.start [] 0)).2.1 :=
    ⟨.pin 0 true, Draws.start [] 0, ⟨⟨trivial, trivial⟩, trivial⟩, rfl⟩
  have hrestrict : Mutation.StepOf
      (fun m => (m.KeepsTrialTested ∧ m.Spans 8) ∧ m.TriesBelow 8)
      ((Mutation.pin 0 true).run (blank 8) (Draws.start [] 0)).2.1 oddOutsideGap :=
    ⟨.restrict 10 5, Draws.start [] 0, ⟨⟨trivial, trivial⟩, trivial⟩, rfl⟩
  have hbuilt := (Relation.ReflTransGen.single hpin).tail hrestrict
  have htested' := htested _ (Relation.ReflTransGen.mono
    (fun _ _ hstep => Mutation.StepOf.mono hstep fun _ hm => hm.1) _ _ hbuilt)
  exact ⟨reachable_oddOutsideGap, hadmits, by decide,
    ⟨_, u, hrun, hseventeen, hu, hcurrent.trans hseventeen⟩, htested'.1,
    hclear _ hbuilt⟩

end Valuation

end BitEnvelope
