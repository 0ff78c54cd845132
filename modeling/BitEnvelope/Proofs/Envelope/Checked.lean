import BitEnvelope.Checked.Envelope
import BitEnvelope.Proofs.Envelope.Scatter
import BitEnvelope.Proofs.Envelope.Search

/-!
# Operands that span an envelope

A checked question, a checked search and a checked random change answer as the unchecked ones do, and
they do answer on operands that have the words of a value of the envelope. Only a random change
downward can then still fail: it counts the free set bits in a word, and from `2 ^ 32` of them on it
draws a number below zero.
-/

namespace BitEnvelope

/-! ## Comparisons -/

namespace Packed

variable {x y : Packed} {w : Nat}

theorem answers_checkedCompare :
    Answers (x.Spans w ∧ y.Spans w) (x.checkedCompare y) (x.compare y) := by
  refine .bind (.check fun h => ?_) (.pure _)
  rw [h.1.wordCount_eq.trans h.2.wordCount_eq.symm, beq_self_eq_true]
  rfl

theorem answers_checkedLt : Answers (x.Spans w ∧ y.Spans w) (x.checkedLt y) (x.lt y) :=
  .bind answers_checkedCompare (.pure _)

theorem answers_checkedLe : Answers (x.Spans w ∧ y.Spans w) (x.checkedLe y) (x.le y) :=
  .bind answers_checkedCompare (.pure _)

end Packed

namespace Envelope

variable {e : Envelope} {x src lo hi dst : Packed}

theorem spans_eq_true (hx : x.Spans e.width) : e.spans x = true := decide_eq_true hx.count_le

theorem placeable_eq_true (hx : x.Spans e.width) : e.placeable x = true := by
  have hcomparable : e.comparable x = true := beq_iff_eq.mpr hx.wordCount_eq
  rw [placeable, hcomparable, Bool.or_true]

theorem checkSpans_eq {xs : List Packed} (h : ∀ x ∈ xs, x.Spans e.width) :
    e.checkSpans xs = .ok () := by
  have hall : xs.all e.spans = true := List.all_eq_true.mpr fun x hx => spans_eq_true (h x hx)
  rw [checkSpans, hall]
  rfl

theorem answers_checkSpans : Answers (x.Spans e.width) (e.checkSpans [x]) () := by
  apply Answers.check
  intro hx
  exact checkSpans_eq (List.forall_mem_singleton.mpr hx)

theorem answers_checkPlaceable : Answers (x.Spans e.width) (e.checkPlaceable x) () := by
  apply Answers.check
  intro hx
  rw [checkPlaceable, placeable_eq_true hx]
  rfl

/-! ## Questions -/

theorem answers_checkedInRange :
    Answers (x.Spans e.width) (e.checkedInRange x) (e.inRange x) :=
  .bind answers_checkSpans (.bind answers_checkPlaceable (.pure _))

theorem answers_checkedAdmits : Answers (x.Spans e.width) (e.checkedAdmits x) (e.admits x) := by
  refine .bind answers_checkSpans (.bind (.check fun hx => ?_) (.pure _))
  rw [placeable_eq_true hx, Bool.or_true]
  rfl

/-! ## Searches -/

theorem answers_checkSpans_pair :
    Answers (src.Spans e.width ∧ dst.Spans e.width) (e.checkSpans [src, dst]) () := by
  apply Answers.check
  rintro ⟨hsrc, hdst⟩
  exact checkSpans_eq (List.forall_mem_cons.mpr ⟨hsrc, List.forall_mem_singleton.mpr hdst⟩)

theorem answers_checkedFloor? : Answers (src.Spans e.width ∧ dst.Spans e.width)
    (e.checkedFloor? src dst) (e.floor? src dst) := by
  rw [checkedFloor?]
  refine .bind answers_checkSpans_pair ?_
  split
  · exact .bind (answers_checkPlaceable.mono And.right) (.pure _)
  · exact .pure _

theorem answers_checkedCeil? : Answers (src.Spans e.width ∧ dst.Spans e.width)
    (e.checkedCeil? src dst) (e.ceil? src dst) := by
  rw [checkedCeil?]
  refine .bind answers_checkSpans_pair ?_
  split
  · exact .bind (answers_checkPlaceable.mono And.right) (.pure _)
  · exact .pure _

/-- What is found is dropped if `p` says so. -/
theorem filter_not_some (p : Packed → Bool) (x : Packed) :
    ((some x).filter fun y => !p y) = if p x then none else some x := by
  rw [Option.filter_some]
  cases p x with
  | true => rfl
  | false => rfl

theorem answers_checkedCeilUpTo? :
    Answers ((lo.Spans e.width ∧ hi.Spans e.width) ∧ dst.Spans e.width)
      (e.checkedCeilUpTo? lo hi dst) (e.ceilUpTo? lo hi dst) := by
  refine .bind (answers_checkedCeil?.mono fun h => ⟨h.1.1, h.2⟩) ?_
  rw [ceilUpTo?]
  cases hfound : e.ceil? lo dst with
  | none => exact .pure _
  | some x =>
      rw [filter_not_some hi.lt]
      refine .bind (Packed.answers_checkedLt.mono fun h => ⟨h.1.2, ?_⟩) (.pure _)
      exact h.2.of_shape (shape_of_ceil? hfound)

theorem answers_checkedFloorDownTo? :
    Answers ((lo.Spans e.width ∧ hi.Spans e.width) ∧ dst.Spans e.width)
      (e.checkedFloorDownTo? lo hi dst) (e.floorDownTo? lo hi dst) := by
  refine .bind (answers_checkedFloor?.mono fun h => ⟨h.1.2, h.2⟩) ?_
  rw [floorDownTo?]
  cases hfound : e.floor? hi dst with
  | none => exact .pure _
  | some x =>
      rw [filter_not_some (·.lt lo)]
      refine .bind (Packed.answers_checkedLt.mono fun h => ⟨?_, h.1.1⟩) (.pure _)
      exact h.2.of_shape (shape_of_floor? hfound)

/-! ## Random changes -/

theorem answers_checkedScatterBelow (d : Draws) :
    Answers (x.Spans e.width ∧ (e.freeOnes x).length < 2 ^ 32) (e.checkedScatterBelow x d)
      (e.scatterBelow x d) := by
  refine .bind (answers_checkSpans.mono And.left) ?_
  exact .bind ((Draws.answers_checkedChoose (e.freeOnes x) d).mono And.right) (.pure _)

theorem checkedScatterBelow_eq_error (hx : x.Spans e.width)
    (hcount : 2 ^ 32 ≤ (e.freeOnes x).length) (d : Draws) :
    e.checkedScatterBelow x d = .error .emptyChoice := by
  rw [checkedScatterBelow, checkSpans_eq (List.forall_mem_singleton.mpr hx),
    Draws.checkedChoose_eq_error hcount]
  rfl

end Envelope

end BitEnvelope
