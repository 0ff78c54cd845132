import BitEnvelope.Proofs.Envelope.Failure
import BitEnvelope.Proofs.Envelope.Headroom

/-!
# Tightened envelopes

Tightening leaves an interval that starts at a completion of the pins or, where no completion is
left above the old start, at zero. If it starts at a completion, nothing is left to do: to put this
start in place of the old one and to tighten again comes to the same envelope, word for word.
-/

namespace BitEnvelope.Envelope

variable {e e' : Envelope}

/-- The interval starts at a completion or at zero; where nothing is restricted, it is zero at both
ends. -/
structure Anchored (e : Envelope) : Prop where
  start : e.lo.toNat = 0 ∨ e.Completes e.lo.toNat
  start_of_eq : e.lo.toNat = e.hi.toNat → e.lo.toNat = 0

theorem Anchored.of_sameValues (h : e.Anchored) (hsame : e.SameValues e') (hlo : e'.lo = e.lo) :
    e'.Anchored := by
  refine ⟨?_, ?_⟩
  · rw [hlo]
    exact h.start.imp_right (hsame.completes_iff _).mpr
  · rw [hlo, hsame.hi_eq]
    exact h.start_of_eq

namespace Regular

variable (he : e.Regular)
include he

theorem anchored_of_tighten (h : e.tighten = .ok e')
    (hstart : e.lo.toNat = e.hi.toNat → e.lo.toNat = 0) : e'.Anchored := by
  have hsame := he.sameValues_of_tighten h
  have hlo := lo_of_tighten h
  by_cases hrange : e.hasRange = true
  · have hne := he.hasRange_iff.mp hrange
    rw [if_pos hrange] at hlo
    refine ⟨?_, fun heq => absurd heq (hsame.lo_ne_hi hne)⟩
    rw [hlo, raisedLo]
    cases hfound : e.ceilCompletion? e.lo with
    | none => exact .inl (toNat_setZero he.lo.toSpans)
    | some y =>
        have hleast := he.isLeast_ceilCompletion he.lo hfound
        exact .inr ((hsame.completes_iff _).mpr hleast.1.1)
  · have hzero := hstart (not_not.mp (hrange ∘ he.hasRange_iff.mpr))
    rw [if_neg hrange] at hlo
    rw [← hlo] at hzero
    exact ⟨.inl hzero, fun _ => hzero⟩

/-- Every anchored envelope has a completion from the start of its interval on. -/
theorem exists_completes_ge (h : e.Anchored) : ∃ n, e.Completes n ∧ e.lo.toNat ≤ n := by
  rcases h.start with hzero | hcompletes
  · exact ⟨e.current.toNat, he.completes_current, by omega⟩
  · exact ⟨e.lo.toNat, hcompletes, Nat.le_refl _⟩

/-! ## Tightening again -/

/-- Where the committed value moves to, if a value of the envelope lies at or above the start of the
interval. -/
theorem relocate?_eq {n : Nat} (hn : e.Allows n) (hside : e.lo.toNat ≤ n) :
    e.relocate? = if e.inRange e.current then some e.current
      else e.ceilCompletion? (e.current.copyFrom e.wordCount e.lo) := by
  obtain ⟨z, hz, hin⟩ := he.exists_inRange_fromLo hn hside
  simp only [relocate?, hz, Option.filter_some, hin, if_true, Option.some_or]

/-- The search finds the same completion from a copy of a value, over the copy. -/
theorem ceilCompletion?_copy {x y dst : Packed} (hx : x.IsValue e.width) (hdst : dst.Spans e.width)
    (h : e.ceilCompletion? x = some y) :
    e.ceilCompletion? (dst.copyFrom e.wordCount x) = some (dst.copyFrom e.wordCount y) := by
  have hleast := he.isLeast_ceilCompletion hx h
  have hy := hx.toSpans.of_shape (shape_of_ceilCompletion? h)
  have hfinds := he.finds_ceilCompletion (isValue_copy hdst hx)
  rw [toNat_copy hdst hx.toSpans] at hfinds
  obtain ⟨z, hz, hzleast⟩ := hfinds.exists_eq_some hleast.1
  have hshape := (shape_of_ceilCompletion? hz).trans (Packed.shape_copyFrom dst _ x)
  have hcopy := hdst.of_shape (Packed.shape_copyFrom dst e.wordCount y)
  have hhead : z.headroom e.width = (dst.copyFrom e.wordCount y).headroom e.width :=
    ((headroom_of_ceilCompletion? hz).trans hdst.headroom_copyFrom).trans
      hdst.headroom_copyFrom.symm
  have hnat : z.toNat = (dst.copyFrom e.wordCount y).toNat :=
    (hzleast.unique hleast).trans (toNat_copy hdst hy).symm
  rw [hz, (hdst.of_shape hshape).eq_of_toNat_eq hcopy hhead hnat]

end Regular

/-- An envelope with a value and with a completion from the start of its interval on has a value
there. -/
theorem exists_allows_ge {m : Nat} (hm : e.Allows m)
    (hstart : ∃ n, e.Completes n ∧ e.lo.toNat ≤ n) : ∃ n, e.Allows n ∧ e.lo.toNat ≤ n := by
  obtain ⟨n, hn, hge⟩ := hstart
  have harc := (allows_iff.mp hm).2
  by_cases hmlo : e.lo.toNat ≤ m
  · exact ⟨m, hm, hmlo⟩
  · refine ⟨n, allows_iff.mpr ⟨hn, ?_⟩, hge⟩
    rw [InArc] at harc ⊢
    omega

/-- The envelope with the start of its interval raised. -/
def raised (e : Envelope) : Envelope := { e with lo := e.raisedLo }

section Raised

variable (he : e.Regular) {n : Nat} (hn : e.Allows n) (hge : e.lo.toNat ≤ n)
include he hn hge

/-- The raised start is the least completion from the old one on. -/
theorem ceilCompletion?_lo : e.ceilCompletion? e.lo = some e.raisedLo := by
  rw [raisedLo]
  cases hfound : e.ceilCompletion? e.lo with
  | none =>
      have hbelow := he.lt_of_ceilCompletion?_eq_none he.lo hfound (allows_iff.mp hn).1
      exact absurd hge (Nat.not_le.mpr hbelow)
  | some y => rfl

theorem isLeast_raisedLo : IsLeast {k | e.Completes k ∧ e.lo.toNat ≤ k} e.raisedLo.toNat :=
  he.isLeast_ceilCompletion he.lo (ceilCompletion?_lo he hn hge)

theorem regular_raised : e.raised.Regular := by
  have hspans := he.lo.toSpans.of_shape (shape_raisedLo e)
  exact ⟨he.current, he.pins, ⟨hspans, (isLeast_raisedLo he hn hge).1.1.1⟩, he.hi, he.overflow⟩

theorem raisedLo_raised : e.raised.raisedLo = e.raisedLo := by
  have hraised := regular_raised he hn hge
  have hcompletes : e.raised.Completes e.raised.lo.toNat := (isLeast_raisedLo he hn hge).1.1
  rw [raisedLo, hraised.ceilCompletion?_of_completes hraised.lo hcompletes]
  rfl

variable (hne : e.lo.toNat ≠ e.hi.toNat)
include hne

/-- The committed value moves to the same place from the raised start. -/
theorem relocate?_raised : e.raised.relocate? = e.relocate? := by
  have hraised := regular_raised he hn hge
  have hleast := isLeast_raisedLo he hn hge
  obtain ⟨-, -, harc⟩ := he.inArc_raisedLo hne hn
  obtain ⟨hnc, hnr⟩ := allows_iff.mp hn
  have hn' : e.raised.Allows n := allows_iff.mpr ⟨hnc, (harc n hnc).mpr hnr⟩
  have hin : e.raised.inRange e.current = e.inRange e.current := by
    rw [Bool.eq_iff_iff, hraised.inRange_iff he.current.toSpans, he.inRange_iff he.current.toSpans]
    exact harc _ he.completes_current
  have hcurrent := he.current.toSpans
  have hlo : e.raisedLo.IsValue e.width := hraised.lo
  have hcompletes : e.Completes (e.current.copyFrom e.wordCount e.raisedLo).toNat := by
    rw [toNat_copy hcurrent hlo.toSpans]
    exact hleast.1.1
  have hold := he.ceilCompletion?_copy he.lo hcurrent (ceilCompletion?_lo he hn hge)
  have hnew := hraised.ceilCompletion?_of_completes (isValue_copy hcurrent hlo) hcompletes
  rw [he.relocate?_eq hn hge, hraised.relocate?_eq hn' (hleast.2 ⟨hnc, hge⟩), hold]
  exact congrArg₂ (fun (c : Bool) o => if c then some e.current else o) hin hnew

end Raised

/-- Once the start of the interval has been raised, tightening comes to the same envelope, if there
is a completion from the old start on. -/
theorem Regular.tighten_raised (he : e.Regular) (hstart : ∃ n, e.Completes n ∧ e.lo.toNat ≤ n)
    (h : e.tighten = .ok e') : ({ e with lo := e'.lo } : Envelope).tighten = .ok e' := by
  cases hrange : e.hasRange with
  | false =>
      rw [tighten_of_not_hasRange hrange] at h
      cases h
      exact tighten_of_not_hasRange hrange
  | true =>
      obtain ⟨x, hx, rfl⟩ := (tighten_eq_ok_iff hrange).mp h
      have hne := he.hasRange_iff.mp hrange
      have hm := (he.allows_of_relocate? hx).2
      obtain ⟨n, hn, hge⟩ := exists_allows_ge hm hstart
      have hraised : e.raised.hasRange = true :=
        (regular_raised he hn hge).hasRange_iff.mpr (he.inArc_raisedLo hne hm).2.1
      refine (tighten_eq_ok_iff hraised).mpr ⟨x, (relocate?_raised he hn hge hne).trans hx, ?_⟩
      rw [raisedLo_raised he hn hge]
      rfl

end BitEnvelope.Envelope
