import BitEnvelope.Checked.Valuation
import BitEnvelope.Proofs.Envelope.Checked
import BitEnvelope.Proofs.Valuation.Change

/-!
# Samplers that answer

A sampler whose bounds and whose scratch value span the envelope meets nothing on its way that is
not right for it, if the free positions can be counted in a word: what it finds and what it changes
has the shape of its scratch value. Where a sampler answers at all, the answer is that of the
unchecked one.
-/

namespace BitEnvelope.Valuation

variable {v : Valuation} {x src lo hi tmp : Packed}

theorem answers_checkedProposeInPlace :
    Answers (x.Spans v.width) (v.checkedProposeInPlace x) (v.proposeInPlace x) :=
  .bind Envelope.answers_checkedAdmits (.pure _)

/-! ## One sampler -/

section Near

variable {right : Prop} {search : Envelope → Packed → Except Misuse (Option Packed)}
  {find : Envelope → Packed → Option Packed} {extreme : Packed → Bool}
  {change : Packed → Draws → Except Misuse (Packed × Draws)}
  {move : Packed → Draws → Packed × Draws} {fits : Packed → Except Misuse Bool}
  {meets : Packed → Bool}
  (hsearch : ∀ x, Answers (right ∧ x.Spans v.width) (search v.toEnvelope x) (find v.toEnvelope x))
  (hfind : ∀ x y, find v.toEnvelope x = some y → y.shape = x.shape)
  (hfits : ∀ x, Answers (right ∧ x.Spans v.width) (fits x) (meets x))

include hfits in
theorem answers_checkedProposeIf : Answers (right ∧ x.Spans v.width) (v.checkedProposeIf fits x)
    (if meets x && v.admits x then (.accepted, v.load x) else (.refused, v)) := by
  refine .bind (hfits x) ?_
  cases meets x with
  | false => exact .pure _
  | true => exact answers_checkedProposeInPlace.mono And.right

include hsearch hfind hfits

theorem answers_checkedProposeOrSearch :
    Answers (right ∧ x.Spans v.width) (v.checkedProposeOrSearch search fits x)
      (v.proposeOrSearch find meets x) := by
  rw [proposeOrSearch_eq]
  refine .bind (answers_checkedProposeIf hfits) ?_
  cases meets x && v.admits x with
  | true => exact .pure _
  | false =>
      -- What is refused leaves `v`, so the search is one in the envelope of `v`.
      refine .bind (hsearch x) ?_
      cases hfound : find v.toEnvelope x with
      | none => exact .pure _
      | some y =>
          exact answers_checkedProposeInPlace.mono fun h => h.2.of_shape (hfind x y hfound)

variable (hchange : ∀ x d, Answers (right ∧ x.Spans v.width) (change x d) (move x d))
  (hmove : ∀ x d, (move x d).1.shape = x.shape)
include hchange hmove

/-- A sampler answers if its search, its change and its test do on every value that spans the
envelope. -/
theorem answers_checkedSampleNear (d : Draws) :
    Answers (right ∧ tmp.Spans v.width) (v.checkedSampleNear search extreme change fits tmp d)
      (v.sampleNear find extreme move meets tmp d) := by
  rw [sampleNear]
  refine .bind (hsearch tmp) ?_
  cases hfound : find v.toEnvelope tmp with
  | none => exact .pure _
  | some bound =>
      have hbound : right ∧ tmp.Spans v.width → right ∧ bound.Spans v.width :=
        fun h => ⟨h.1, h.2.of_shape (hfind tmp bound hfound)⟩
      have hproposed : ∀ d : Draws, Answers (right ∧ tmp.Spans v.width)
          (do return (← v.checkedProposeInPlace bound, d)) (v.proposeInPlace bound, d) :=
        fun d => .bind (answers_checkedProposeInPlace.mono fun h => (hbound h).2) (.pure _)
      apply Answers.ite
      · intro _
        exact hproposed d
      · intro _
        apply Answers.ite
        · intro _
          exact hproposed d.coin.2
        · intro _
          refine .bind ((hchange bound _).mono hbound) (.bind ?_ (.pure _))
          refine (answers_checkedProposeOrSearch hsearch hfind hfits).mono fun h => ?_
          exact ⟨h.1, (hbound h).2.of_shape (hmove bound d.coin.2)⟩

end Near

/-! ## The samplers -/

theorem answers_checkedScatterBelow (x : Packed) (d : Draws) :
    Answers (x.Spans v.width ∧ v.freeCount < 2 ^ 32) (v.checkedScatterBelow x d)
      (v.scatterBelow x d) :=
  (Envelope.answers_checkedScatterBelow d).mono fun h =>
    ⟨h.1, Nat.lt_of_le_of_lt (v.length_freeOnes_le x) h.2⟩

theorem answers_checkedSampleAtMost (d : Draws) :
    Answers ((src.Spans v.width ∧ v.freeCount < 2 ^ 32) ∧ tmp.Spans v.width)
      (v.checkedSampleAtMost src tmp d) (v.sampleAtMost src tmp d) := by
  apply answers_checkedSampleNear
  · intro x
    exact Envelope.answers_checkedFloor?.mono fun h => ⟨h.1.1, h.2⟩
  · exact fun _ _ => Envelope.shape_of_floor?
  · intro x
    exact Packed.answers_checkedLe.mono fun h => ⟨h.2, h.1.1⟩
  · intro x d
    exact (answers_checkedScatterBelow x d).mono fun h => ⟨h.2, h.1.2⟩
  · exact v.shape_scatterBelow

theorem answers_checkedSampleAtLeast (d : Draws) :
    Answers (src.Spans v.width ∧ tmp.Spans v.width)
      (v.checkedSampleAtLeast src tmp d) (v.sampleAtLeast src tmp d) := by
  apply answers_checkedSampleNear
  · intro x
    exact Envelope.answers_checkedCeil?
  · exact fun _ _ => Envelope.shape_of_ceil?
  · intro x
    exact Packed.answers_checkedLe
  · intro x d
    exact .pure _
  · exact v.shape_scatterAbove

theorem answers_checkedFitsBetween (x : Packed) :
    Answers ((lo.Spans v.width ∧ hi.Spans v.width) ∧ x.Spans v.width)
      (v.checkedFitsBetween lo hi x) (v.fitsBetween lo hi x) := by
  rw [fitsBetween]
  refine .bind (Envelope.answers_checkedInRange.mono And.right) ?_
  cases v.inRange x with
  | false => exact .pure _
  | true =>
      refine .bind (Packed.answers_checkedLe.mono fun h => ⟨h.1.1, h.2⟩) ?_
      cases lo.le x with
      | false => exact .pure _
      | true => exact Packed.answers_checkedLe.mono fun h => ⟨h.2, h.1.2⟩

theorem answers_checkedRelaxDown (x : Packed) (d : Draws) :
    Answers (x.Spans v.width ∧ v.freeCount < 2 ^ 32) (v.checkedRelaxDown lo x d)
      (v.relaxDown lo x d) :=
  .bind (answers_checkedScatterBelow x d) (.pure _)

theorem answers_checkedSampleBetween (d : Draws) :
    Answers (((lo.Spans v.width ∧ hi.Spans v.width) ∧ v.freeCount < 2 ^ 32) ∧ tmp.Spans v.width)
      (v.checkedSampleBetween lo hi tmp d) (v.sampleBetween lo hi tmp d) := by
  have hfits : ∀ x : Packed, Answers
      (((lo.Spans v.width ∧ hi.Spans v.width) ∧ v.freeCount < 2 ^ 32) ∧ x.Spans v.width)
      (v.checkedFitsBetween lo hi x) (v.fitsBetween lo hi x) :=
    fun x => (answers_checkedFitsBetween x).mono fun h => ⟨h.1.1, h.2⟩
  apply Answers.ite
  · intro _
    apply answers_checkedSampleNear
    · intro x
      exact Envelope.answers_checkedCeilUpTo?.mono fun h => ⟨h.1.1, h.2⟩
    · exact fun _ _ => Envelope.shape_of_ceilUpTo?
    · exact hfits
    · intro x d
      exact .pure _
    · exact v.shape_relaxUp hi
  · intro _
    apply answers_checkedSampleNear
    · intro x
      exact Envelope.answers_checkedFloorDownTo?.mono fun h => ⟨h.1.1, h.2⟩
    · exact fun _ _ => Envelope.shape_of_floorDownTo?
    · exact hfits
    · intro x d
      exact (answers_checkedRelaxDown x d).mono fun h => ⟨h.2, h.1.2⟩
    · exact v.shape_relaxDown lo

end BitEnvelope.Valuation
