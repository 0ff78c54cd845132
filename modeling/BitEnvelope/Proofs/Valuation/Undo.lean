import BitEnvelope.Proofs.Valuation.Change

/-!
# Undoing a change

What a mutation in place writes back after a test that failed is all that it has written, so a
mutation that is refused or fails leaves every word of the valuation as it was, headroom included.
Carried out in place, a mutation comes to the same as the change that is made at once or not at all.
-/

namespace BitEnvelope

namespace Valuation

variable (v : Valuation)

/-! ## Writing back -/

@[simp] theorem writeBit_writeBit_bit (i : Nat) (b : Bool) :
    (v.writeBit i b).writeBit i (v.trial.bit i) = v := by
  simp only [writeBit, Packed.setBit_setBit_bit]

@[simp] theorem writePin_writePin_bit (i : Nat) (pinned current trial : Bool) :
    (v.writePin i pinned current trial).writePin i (v.pins.bit i) (v.current.bit i)
      (v.trial.bit i) = v := by
  simp only [writePin, Packed.setBit_setBit_bit]

@[simp] theorem writeBounds_writeBounds (lo hi : Packed) :
    (v.writeBounds lo hi).writeBounds v.lo v.hi = v := rfl

/-! ## One mutation -/

open Mutation (inPlace ofExcept ofOption)

theorem proposeInPlace_eq (x : Packed) (d : Draws) :
    inPlace (v.proposeInPlace x, d) = ofOption v (v.propose? x, d) := by
  rw [proposeInPlace, propose?]
  split
  · rfl
  · rfl

theorem tryBitInPlace_eq (i : Nat) (b : Bool) (d : Draws) :
    inPlace (v.tryBitInPlace i b, d) = ofOption v (v.tryBit? i b, d) := by
  rw [tryBitInPlace, tryBit?]
  dsimp only
  split
  · rfl
  · split
    · rfl
    · rw [writeBit_writeBit_bit]
      rfl

theorem commitInPlace_eq (d : Draws) :
    inPlace (v.commitInPlace, d) = ofOption v (v.commit?, d) := by
  rw [commitInPlace, commit?]
  split
  · rfl
  · rfl

/-- The sweep is proposed only if the candidate is out of range once its pins and its sign prefix
are right. -/
theorem repairInPlace_eq (downFirst : Bool) (x : Packed) (d : Draws) :
    inPlace (v.repairInPlace downFirst x, d) =
      ofOption v ((v.repair? downFirst x).map Prod.snd, d) := by
  rw [repairInPlace, repair?, Envelope.repair?]
  dsimp only
  split
  · rfl
  · rw [proposeInPlace]
    split
    · rfl
    · rfl

theorem tightenInPlace_eq : v.tightenInPlace =
    match v.tighten with
    | .ok w => (.done, w)
    | .error e => (.failed e, v) := by
  rw [tightenInPlace, tighten, Envelope.tighten]
  split
  · cases v.relocate? with
    | some x => rfl
    | none => rfl
  · rfl

theorem pinInPlace_eq (i : Nat) (b : Bool) (d : Draws) :
    inPlace (v.pinInPlace i b, d) = ofExcept v d (v.pin i b) := by
  rw [pinInPlace, pin]
  split
  · change _ = ofExcept v d (v.writePin i true b b).tighten
    rw [tightenInPlace_eq]
    cases (v.writePin i true b b).tighten with
    | ok w => rfl
    | error e =>
        simp only [writePin_writePin_bit]
        rfl
  · rfl

theorem tighten_writeBounds (lo hi : Packed) :
    (v.writeBounds lo hi).tighten =
      ({ v.toEnvelope with lo, hi } : Envelope).tighten.map fun e => { v with toEnvelope := e } :=
  rfl

theorem restrictInPlace_eq (l h : Int) (d : Draws) :
    inPlace (v.restrictInPlace l h, d) = ofExcept v d (v.restrict l h) := by
  rw [restrictInPlace, restrict, Envelope.restrict]
  split
  · rfl
  · dsimp only
    rw [tightenInPlace_eq, tighten_writeBounds]
    cases Envelope.tighten _ with
    | ok e => rfl
    | error e =>
        change (Outcome.failed e, (v.writeBounds _ _).writeBounds v.lo v.hi, d) = _
        rw [writeBounds_writeBounds]
        rfl

end Valuation

namespace Mutation

/-- Testing before a write, and writing back after a test that failed, come to the same as changing
all at once or not at all. -/
theorem perform_eq_run (m : Mutation) (v : Valuation) (d : Draws) : m.perform v d = m.run v d := by
  cases m with
  | limitSign | load | clearTrial | writeBit | writeWord => rfl
  | sampleAtMost | sampleAtLeast | sampleBetween => rfl
  | propose x => exact v.proposeInPlace_eq x d
  | tryBit i b => exact v.tryBitInPlace_eq i b d
  | commit => exact v.commitInPlace_eq d
  | pin i b => exact v.pinInPlace_eq i b d
  | restrict l h => exact v.restrictInPlace_eq l h d
  | tighten =>
      change inPlace (v.tightenInPlace, d) = ofExcept v d v.tighten
      rw [v.tightenInPlace_eq]
      cases v.tighten <;> rfl
  | «repair» downFirst x => exact v.repairInPlace_eq downFirst x d

end Mutation

/-! ## Rejection -/

/-- The outcome of a mutation that has not been carried out. -/
def Outcome.IsRejection (o : Outcome) : Prop := o = .refused ∨ ∃ e, o = .failed e

namespace Mutation

open BitEnvelope.Valuation (proposed_sampleAtMost proposed_sampleAtLeast proposed_sampleBetween)

variable {v : Valuation} {d : Draws}

theorem ofOption_of_isRejection {o : Option Valuation × Draws}
    (h : (ofOption v o).1.IsRejection) : (ofOption v o).2.1 = v := by
  obtain ⟨o, d⟩ := o
  cases o with
  | none => rfl
  | some w =>
      obtain h | ⟨e, h⟩ := h
      · cases h
      · cases h

theorem ofExcept_of_isRejection {o : Except EnvelopeError Valuation}
    (h : (ofExcept v d o).1.IsRejection) : (ofExcept v d o).2.1 = v := by
  cases o with
  | error e => rfl
  | ok w =>
      obtain h | ⟨e, h⟩ := h
      · cases h
      · cases h

theorem inPlace_of_isRejection {Q : Packed → Prop} {r : (Outcome × Valuation) × Draws}
    (hr : v.Proposed Q r.1) (h : (inPlace r).1.IsRejection) : (inPlace r).2.1 = v := by
  obtain ⟨⟨o, w⟩, d⟩ := r
  cases hr with
  | accepted =>
      obtain h | ⟨e, h⟩ := h
      · cases h
      · cases h
  | refused => rfl

theorem run_of_isRejection (m : Mutation) (h : (m.run v d).1.IsRejection) :
    (m.run v d).2.1 = v := by
  cases m with
  | limitSign | load | clearTrial | writeBit | writeWord =>
      obtain h | ⟨e, h⟩ := h
      · cases h
      · cases h
  | propose | tryBit | commit | «repair» => exact ofOption_of_isRejection h
  | pin | restrict | tighten => exact ofExcept_of_isRejection h
  | sampleAtMost src tmp =>
      exact inPlace_of_isRejection (proposed_sampleAtMost Packed.ofShape_true trivial src d) h
  | sampleAtLeast src tmp =>
      exact inPlace_of_isRejection (proposed_sampleAtLeast Packed.ofShape_true trivial src d) h
  | sampleBetween lo hi tmp =>
      exact inPlace_of_isRejection (proposed_sampleBetween Packed.ofShape_true trivial lo hi d) h

/-- A mutation in place is all or nothing: it comes to the change made at once, or it is refused or
fails and leaves every word of the valuation as it was. -/
theorem perform_all_or_nothing (m : Mutation) (v : Valuation) (d : Draws) :
    m.perform v d = m.run v d ∧
      ((m.perform v d).1.IsRejection → (m.perform v d).2.1 = v) := by
  have heq := m.perform_eq_run v d
  refine ⟨heq, fun h => ?_⟩
  rw [heq] at h ⊢
  exact m.run_of_isRejection h

end Mutation

/-! ## A pin that is put back -/

open BitEnvelope.Valuation

/-- The numbers of four bits from eight to eleven. Bit three is pinned, but clear in the trial
value. -/
def Valuation.eightToEleven : Valuation :=
  ((Mutation.writeBit 3 false).run
    ((Mutation.pin 3 true).run
      ((Mutation.restrict 8 12).run (blank 4) (Draws.start [] 0)).2.1
      (Draws.start [] 0)).2.1 (Draws.start [] 0)).2.1

/-- To pin bit three to zero leaves no number. By then the bit is zero in the committed value too,
where it is put back; in the trial value it stays zero, and its position stays pinned. -/
theorem Mutation.perform_all_or_nothing_eightToEleven :
    (eightToEleven.writePin 3 true false false).current.bit 3 = false ∧
      (Mutation.pin 3 false).perform eightToEleven (Draws.start [] 0) =
        (.failed (.empty 8 12), eightToEleven, Draws.start [] 0) := by
  have hfailed : ((Mutation.pin 3 false).perform eightToEleven (Draws.start [] 0)).1 =
      .failed (.empty 8 12) := by
    decide
  have hkept :=
    ((Mutation.pin 3 false).perform_all_or_nothing eightToEleven (Draws.start [] 0)).2
      (.inr ⟨_, hfailed⟩)
  exact ⟨by decide, Prod.ext hfailed (Prod.ext hkept rfl)⟩

end BitEnvelope
