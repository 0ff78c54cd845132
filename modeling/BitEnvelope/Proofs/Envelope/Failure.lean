import BitEnvelope.Proofs.Envelope.Narrow
import BitEnvelope.Proofs.Envelope.Search

/-!
# When tightening fails

Tightening looks for a completion at the start of the interval and, if the interval wraps around,
at zero. Whatever value an envelope has, the least completion on its side of the gap is a value as
well, so tightening fails only for an envelope without values. The error names the bounds of the
interval.
-/

namespace BitEnvelope.Envelope

variable {e : Envelope} {x : Packed}

namespace Regular

variable (he : e.Regular)
include he

/-- The pins applied to zero give the least completion: a completion below it would lack a bit
that only a pin can have set. -/
theorem toNat_applyPins_setZero_le (hx : x.Spans e.width) {n : Nat} (hn : e.Completes n) :
    (e.applyPins (e.setZero x)).toNat ≤ n := by
  have hzero := hx.of_shape (shape_setZero e x)
  have hy := hzero.of_shape (shape_applyPins e (e.setZero x))
  have hc := he.completes_applyPins hzero
  by_contra hbelow
  obtain ⟨i, hni, hyi, -⟩ := TurnsTo.true_iff_lt.mpr (Nat.lt_of_not_le hbelow)
  have hi : i < e.width := by
    by_contra hge
    have hpow := Nat.pow_le_pow_right (n := 2) (by decide) (Nat.le_of_not_lt hge)
    rw [Nat.testBit_lt_two_pow (Nat.lt_of_lt_of_le hc.1 hpow)] at hyi
    cases hyi
  have hic := Packed.lt_words_of_lt hi
  cases hfree : e.isFree i with
  | true =>
      have hclear := hzero.testBit_toNat i
      rw [toNat_setZero hx, Nat.zero_testBit] at hclear
      rw [hy.testBit_toNat, bit_applyPins hzero hic, hfree, if_pos rfl, ← hclear] at hyi
      cases hyi
  | false =>
      rw [hn.2 i hi hfree, ← hc.2 i hi hfree, hyi] at hni
      cases hni

/-- For a value at or above the start of the interval, the first completion from the start on is
in range. -/
theorem exists_inRange_fromLo {n : Nat} (hn : e.Allows n) (hside : e.lo.toNat ≤ n) :
    ∃ y, e.ceilCompletion? (e.current.copyFrom e.wordCount e.lo) = some y ∧
      e.inRange y = true := by
  obtain ⟨hc, harc⟩ := allows_iff.mp hn
  obtain ⟨y, hfrom, ⟨-, hlo⟩, hleast⟩ := (he.finds_fromLo he.current).exists_eq_some ⟨hc, hside⟩
  have hle : y.toNat ≤ n := hleast ⟨hc, hside⟩
  refine ⟨y, hfrom, ?_⟩
  rw [he.inRange_iff (he.current.toSpans.of_shape (shape_of_fromLo hfrom))]
  rw [InArc] at harc ⊢
  omega

/-- For a value below the start of the interval, the least completion is in range. -/
theorem inRange_fromZero {n : Nat} (hn : e.Allows n) (hside : n < e.lo.toNat) :
    e.inRange (e.applyPins (e.setZero e.current)) = true := by
  obtain ⟨hc, harc⟩ := allows_iff.mp hn
  have hzero := he.current.toSpans.of_shape (shape_setZero e e.current)
  have hle := he.toNat_applyPins_setZero_le he.current.toSpans hc
  rw [he.inRange_iff (hzero.of_shape (shape_applyPins e _))]
  rw [InArc] at harc ⊢
  omega

/-- An envelope that has a value has one that the committed value can be moved to. -/
theorem exists_relocate? {n : Nat} (hn : e.Allows n) : ∃ x, e.relocate? = some x := by
  simp only [relocate?]
  split
  · exact ⟨e.current, rfl⟩
  · rename_i hout
    rcases Nat.lt_or_ge n e.lo.toNat with hbelow | habove
    · have hin := he.inRange_fromZero hn hbelow
      have hwraps : e.hi.lt e.lo = true := by
        have harc := (allows_iff.mp hn).2
        rw [he.inRange_iff he.current.toSpans] at hout
        rw [he.hi.toSpans.lt_iff he.lo.toSpans]
        rw [InArc] at harc hout
        omega
      rw [if_pos hwraps, Option.filter_some, if_pos hin]
      exact Option.isSome_iff_exists.mp (by simp)
    · obtain ⟨y, hfrom, hin⟩ := he.exists_inRange_fromLo hn habove
      exact ⟨y, by simp [hfrom, hin]⟩

/-- Tightening fails if and only if the envelope has no value. -/
theorem tighten_eq_error_iff {err : EnvelopeError} :
    e.tighten = .error err ↔ (∀ n, ¬ e.Allows n) ∧ err = .empty e.lo.toNat e.hi.toNat := by
  have hlo : e.lo.natOfFirst e.wordCount = e.lo.toNat := he.lo.toSpans.toNat_eq.symm
  have hhi : e.hi.natOfFirst e.wordCount = e.hi.toNat := he.hi.toSpans.toNat_eq.symm
  have hfailed : ∀ err, e.tighten = .error err → err = .empty e.lo.toNat e.hi.toNat := by
    intro err h
    rw [tighten, hlo, hhi] at h
    split at h
    · split at h
      · cases h
      · exact (Except.error.inj h).symm
    · cases h
  constructor
  · intro h
    refine ⟨fun n hn => ?_, hfailed err h⟩
    obtain ⟨x, hx⟩ := he.exists_relocate? hn
    rw [tighten, hx] at h
    split at h <;> cases h
  · rintro ⟨hempty, rfl⟩
    cases h : e.tighten with
    | error err => rw [hfailed err h]
    | ok e' =>
        have hsame := he.sameValues_of_tighten h
        exact absurd ((hsame.allows_iff _).mp hsame.allows_current) (hempty _)

/-- Tightening succeeds if and only if the envelope has a value. -/
theorem exists_tighten_iff : (∃ e', e.tighten = .ok e') ↔ ∃ n, e.Allows n := by
  cases h : e.tighten with
  | error err =>
      refine iff_of_false (fun ⟨_, hok⟩ => ?_) (not_exists.mpr (he.tighten_eq_error_iff.mp h).1)
      cases hok
  | ok e' =>
      have hsame := he.sameValues_of_tighten h
      exact iff_of_true ⟨e', rfl⟩ ⟨_, (hsame.allows_iff _).mp hsame.allows_current⟩

/-- A restriction fails if and only if the narrowed interval holds no value. -/
theorem restrict_eq_error_iff {l h : Int} (hlh : e.residue l ≠ e.residue h)
    {err : EnvelopeError} :
    e.restrict l h = .error err ↔ (∀ n, ¬ (e.narrowed l h).Allows n) ∧
      err = .empty (e.narrowed l h).lo.toNat (e.narrowed l h).hi.toNat := by
  rw [restrict_eq, if_neg hlh]
  exact (he.narrowed_regular l h).tighten_eq_error_iff

end Regular

end BitEnvelope.Envelope
