import BitEnvelope.Proofs.Envelope.Narrow
import BitEnvelope.Proofs.Envelope.Pinned
import BitEnvelope.Proofs.Valuation.Change
import BitEnvelope.Valuation.Reachable
import Mathlib.Logic.Relation

/-!
# The invariant of a search

Every valuation that mutations lead to is sound: its envelope is regular and the committed value is
one of its values, so the envelope is never empty. Soundness is proved for the unrestricted
valuation and for each change that a mutation can make. A restriction of the interval, once there
is one, stays: moved bounds never meet, because the committed value stands between them.
-/

namespace BitEnvelope

namespace Valuation

/-- The invariant of a search over a variable of `width` bits. -/
structure Sound (width : Nat) (v : Valuation) : Prop where
  width_eq : v.width = width
  regular : v.Regular
  trial : v.trial.Spans v.width
  allows_current : v.Allows v.current.toNat

variable {width : Nat} {v w : Valuation}

/-! ## The unrestricted valuation -/

/-- Of the words that carry a value, the positions at or above the width are pinned. -/
theorem isFree_blank {i : Nat} (hi : i < 32 * Word.count width) :
    (blank width).isFree i = decide (i < width) := by
  have hcount : Word.count width = (width + 31) / 32 := rfl
  have hstored : Word.count width - 1 < (Packed.blank width).words.length := by
    rw [Packed.length_blank, Packed.storageFor]
    omega
  change (!((Packed.blank width).setWord (Word.count width - 1) (~~~Word.topMask width)).bit i) = _
  rw [Packed.bit, Packed.word_setWord _ hstored]
  split
  · rename_i hdiv
    rw [BitVec.getLsbD_not, Word.getLsbD_topMask_mod hdiv hi]
    simp [Nat.mod_lt]
  · have hfree : i < width := by omega
    have hclear := Packed.bit_blank width i
    rw [Packed.bit] at hclear
    rw [hclear, decide_eq_true hfree]
    rfl

theorem sound_blank (width : Nat) : (blank width).Sound width := by
  have hblank := Packed.isValue_blank width
  have hregular : (blank width).Regular := by
    refine ⟨hblank, hblank.toSpans.of_shape (Packed.shape_setWord _ _ _), hblank, hblank,
      fun i hi hc => ?_⟩
    have hbeyond : width ≤ i := hi
    exact (isFree_blank hc).trans (decide_eq_false (Nat.not_lt.mpr hbeyond))
  exact ⟨rfl, hregular, hblank.toSpans,
    Envelope.allows_iff.mpr ⟨hregular.completes_current, inArc_of_eq rfl⟩⟩

/-! ## Changes of the envelope -/

theorem exists_of_map_eq_ok {α β : Type} {f : α → β} {o : Except EnvelopeError α} {y : β}
    (h : o.map f = .ok y) : ∃ x, o = .ok x ∧ f x = y := by
  cases o with
  | error => cases h
  | ok x => exact ⟨x, rfl, Except.ok.inj h⟩

theorem exists_map_eq_ok_iff {α β : Type} {f : α → β} {o : Except EnvelopeError α} :
    (∃ y, o.map f = .ok y) ↔ ∃ x, o = .ok x := by
  cases o <;> simp [Except.map]

theorem map_eq_error_iff {α β : Type} {f : α → β} {o : Except EnvelopeError α}
    {err : EnvelopeError} : o.map f = .error err ↔ o = .error err := by
  cases o <;> simp [Except.map]

theorem sameValues_of_tighten (hv : v.Regular) (h : v.tighten = .ok w) :
    v.toEnvelope.SameValues w.toEnvelope ∧ w.trial = v.trial := by
  obtain ⟨e, he, rfl⟩ := exists_of_map_eq_ok h
  exact ⟨hv.sameValues_of_tighten he, rfl⟩

/-- A commit moves the committed value to another value of the envelope. -/
theorem sameValues_of_commit (hv : v.Regular) (htrial : v.trial.Spans v.width)
    (h : v.admits v.trial = true) :
    v.toEnvelope.SameValues
      { v.toEnvelope with current := v.current.copyFrom v.wordCount v.trial } := by
  have hallows := (hv.admits_iff htrial).mp h
  refine hv.sameValues_of_current
    (Envelope.isValue_copy hv.current.toSpans ⟨htrial, hallows.1⟩) ?_
  rw [Envelope.toNat_copy hv.current.toSpans htrial]
  exact hallows

/-- A pin that is carried out tightens the envelope with the pin set. -/
theorem sameValues_of_pin (hv : v.Regular) {i : Nat} {b : Bool} (h : v.pin i b = .ok w) :
    i < v.width ∧ (v.pinned i b).SameValues w.toEnvelope ∧ w.trial = v.trial.setBit i b := by
  rw [pin] at h
  split at h
  · rename_i hi
    exact ⟨hi, sameValues_of_tighten (hv.pin hi b) h⟩
  · cases h

/-- A restriction that is carried out changes nothing or tightens the narrowed envelope. -/
theorem eq_or_sameValues_of_restrict (hv : v.Regular) {l r : Int} (h : v.restrict l r = .ok w) :
    (v.residue l = v.residue r ∧ w = v) ∨
      (v.residue l ≠ v.residue r ∧ (v.narrowed l r).SameValues w.toEnvelope ∧
        w.trial = v.trial) := by
  obtain ⟨e, he, rfl⟩ := exists_of_map_eq_ok h
  rw [Envelope.restrict_eq] at he
  split at he
  · rename_i heq
    cases he
    exact .inl ⟨heq, rfl⟩
  · rename_i hne
    exact .inr ⟨hne, (hv.narrowed_regular l r).sameValues_of_tighten he, rfl⟩

namespace Sound

variable (hv : v.Sound width)
include hv

/-- What a tightened envelope needs to make a sound valuation is a trial value of its width. -/
theorem of_sameValues {e : Envelope} (h : e.SameValues w.toEnvelope) (hwidth : e.width = v.width)
    (hw : w.trial.shape = v.trial.shape) : w.Sound width := by
  have heq : w.width = v.width := h.width_eq.trans hwidth
  refine ⟨heq.trans hv.width_eq, h.regular, ?_, h.allows_current⟩
  rw [heq]
  exact hv.trial.of_shape hw

/-- Every change keeps a valuation sound. -/
theorem change (h : Change v w) : w.Sound width := by
  cases h with
  | trial x hx => exact ⟨hv.width_eq, hv.regular, hv.trial.of_shape hx, hv.allows_current⟩
  | limitSign k =>
      exact ⟨hv.width_eq, ⟨hv.regular.current, hv.regular.pins, hv.regular.lo, hv.regular.hi,
        hv.regular.overflow⟩, hv.trial, hv.allows_current⟩
  | commit hadmits =>
      exact hv.of_sameValues (sameValues_of_commit hv.regular hv.trial hadmits) rfl rfl
  | pin i b h =>
      obtain ⟨-, hsame, htrial⟩ := sameValues_of_pin hv.regular h
      exact hv.of_sameValues hsame rfl (by rw [htrial]; exact Packed.shape_setBit _ _ _)
  | restrict l r h =>
      rcases eq_or_sameValues_of_restrict hv.regular h with ⟨-, rfl⟩ | ⟨-, hsame, htrial⟩
      · exact hv
      · exact hv.of_sameValues hsame rfl (by rw [htrial])
  | tighten h =>
      obtain ⟨hsame, htrial⟩ := sameValues_of_tighten hv.regular h
      exact hv.of_sameValues hsame rfl (by rw [htrial])

/-- No change lifts the restriction of the interval. -/
theorem hasRange_of_change (h : Change v w) (hrange : v.hasRange = true) :
    w.hasRange = true := by
  have hw := hv.change h
  have hne := hv.regular.hasRange_iff.mp hrange
  cases h with
  | trial x hx => exact hrange
  | limitSign k => exact hrange
  | commit hadmits => exact hrange
  | pin i b h =>
      obtain ⟨-, hsame, -⟩ := sameValues_of_pin hv.regular h
      exact hw.regular.hasRange_iff.mpr (hsame.lo_ne_hi hne)
  | restrict l r h =>
      rcases eq_or_sameValues_of_restrict hv.regular h with ⟨-, rfl⟩ | ⟨hlr, hsame, -⟩
      · exact hrange
      · obtain ⟨hlo, hhi⟩ := hv.regular.toNat_narrowed l r
        refine hw.regular.hasRange_iff.mpr (hsame.lo_ne_hi ?_)
        rw [hlo, hhi]
        exact Envelope.narrowedBounds_ne hlr
  | tighten h =>
      obtain ⟨hsame, -⟩ := sameValues_of_tighten hv.regular h
      exact hw.regular.hasRange_iff.mpr (hsame.lo_ne_hi hne)

end Sound

end Valuation

/-! ## Runs -/

open BitEnvelope.Valuation

variable {width : Nat} {v w : Valuation}

theorem Valuation.Sound.step (hv : v.Sound width) (h : Mutation.Step width v w) :
    w.Sound width ∧ (v.hasRange = true → w.hasRange = true) := by
  obtain ⟨m, d, -, rfl⟩ := h
  have hchange := m.change_run v d
  exact ⟨hv.change hchange, hv.hasRange_of_change hchange⟩

/-- What a run keeps: soundness, and a restriction of the interval once there is one. -/
theorem Valuation.Sound.steps (hv : v.Sound width)
    (h : Relation.ReflTransGen (Mutation.Step width) v w) :
    w.Sound width ∧ (v.hasRange = true → w.hasRange = true) := by
  induction h with
  | refl => exact ⟨hv, id⟩
  | tail _ step ih =>
      obtain ⟨hsound, hrange⟩ := ih.1.step step
      exact ⟨hsound, hrange ∘ ih.2⟩

theorem Reachable.sound (h : Reachable width v) : v.Sound width := by
  induction h with
  | blank => exact sound_blank width
  | run _ m _ d ih => exact ih.change (m.change_run _ d)

/-- In every valuation that mutations lead to, the committed value and the bounds have the width of
the variable, the positions above the width are pinned, and the committed value is a value of the
envelope. Once the interval restricts the value, it does so in every later valuation. -/
theorem Reachable.committed_value_feasible (h : Reachable width v) :
    (v.width = width ∧ v.current.toNat < 2 ^ width ∧ v.lo.toNat < 2 ^ width ∧
      v.hi.toNat < 2 ^ width) ∧
    (∀ i, width ≤ i → i < 32 * Word.count width → v.pins.bit i = true) ∧
    (v.admits v.current = true ∧ v.wellFormed = true ∧ v.Allows v.current.toNat) ∧
    ∀ w, Relation.ReflTransGen (Mutation.Step width) v w →
      v.hasRange = true → w.hasRange = true := by
  have hv := h.sound
  obtain rfl := hv.width_eq
  have hcurrent := hv.regular.current
  have hadmits := (hv.regular.admits_iff hcurrent.toSpans).mpr hv.allows_current
  refine ⟨⟨rfl, hcurrent.toNat_lt, hv.regular.lo.toNat_lt, hv.regular.hi.toNat_lt⟩,
    fun i hi hc => ?_, ⟨hadmits, ?_, hv.allows_current⟩, fun w hw => (hv.steps hw).2⟩
  · simpa [Envelope.isFree] using hv.regular.overflow i hi hc
  · rw [Envelope.wellFormed, (Envelope.hasOverflow_eq_false_iff hcurrent.toSpans).mpr
      hcurrent.toNat_lt]
    exact (Bool.and_eq_true _ _ ▸ hadmits).2

/-! ## A restricted search -/

/-- The odd numbers of eight bits outside the gap from five to nine. -/
def Valuation.oddOutsideGap : Valuation :=
  ((Mutation.restrict 10 5).run
    ((Mutation.pin 0 true).run (blank 8) (Draws.start [] 0)).2.1 (Draws.start [] 0)).2.1

theorem reachable_oddOutsideGap : Reachable 8 oddOutsideGap :=
  .run (.run .blank (.pin 0 true) trivial (Draws.start [] 0)) (.restrict 10 5) trivial
    (Draws.start [] 0)

theorem Reachable.committed_value_feasible_oddOutsideGap :
    Reachable 8 oddOutsideGap ∧ oddOutsideGap.hasRange = true ∧
      oddOutsideGap.Allows oddOutsideGap.current.toNat ∧
      ∀ w, Relation.ReflTransGen (Mutation.Step 8) oddOutsideGap w → w.hasRange = true := by
  have hrange : oddOutsideGap.hasRange = true := by decide
  obtain ⟨-, -, ⟨-, -, hallows⟩, hlater⟩ := reachable_oddOutsideGap.committed_value_feasible
  exact ⟨reachable_oddOutsideGap, hrange, hallows, fun w hw => hlater w hw hrange⟩

end BitEnvelope
