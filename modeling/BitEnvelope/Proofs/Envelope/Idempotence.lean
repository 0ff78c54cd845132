import BitEnvelope.Proofs.Envelope.Tightened

/-!
# Tightening and restricting again

While the committed value is in range, tightening only raises the start of the interval, to the
least completion from there on, and leaves an envelope that it does not change any more. A
restriction that has been carried out has moved the bounds as far as the request moves them: neither
requested bound lies inside the interval, behind its start. The same request then moves no bound and
comes to tightening alone.
-/

namespace BitEnvelope.Envelope

/-! ## Tightening again -/

namespace Regular

variable {e e' : Envelope} (he : e.Regular) (hcurrent : e.Allows e.current.toNat)
include he

/-- A start that does not move agrees with the pins. -/
theorem raisedLo_eq_lo_iff : e.raisedLo = e.lo ↔ e.agrees e.lo = true := by
  rw [he.agrees_iff he.lo.toSpans]
  constructor
  · intro hsame
    rw [raisedLo] at hsame
    cases hfound : e.ceilCompletion? e.lo with
    | none =>
        have hzero := toNat_setZero he.lo.toSpans
        have hbelow := he.lt_of_ceilCompletion?_eq_none he.lo hfound he.completes_current
        rw [hfound, Option.getD_none] at hsame
        rw [hsame] at hzero
        omega
    | some y =>
        rw [hfound, Option.getD_some] at hsame
        exact hsame ▸ (he.isLeast_ceilCompletion he.lo hfound).1.1
  · intro hcompletes
    rw [raisedLo, he.ceilCompletion?_of_completes he.lo hcompletes, Option.getD_some]

include hcurrent

theorem eq_of_tighten (h : e.tighten = .ok e') : e' = { e with lo := e'.lo } := by
  have hin := (he.inRange_iff he.current.toSpans).mpr (allows_iff.mp hcurrent).2
  cases hrange : e.hasRange with
  | true =>
      obtain ⟨x, hx, rfl⟩ := (tighten_eq_ok_iff hrange).mp h
      rw [relocate?, if_pos hin] at hx
      cases hx
      rfl
  | false =>
      rw [tighten_of_not_hasRange hrange] at h
      cases h
      rfl

theorem eq_self_iff_of_tighten (h : e.tighten = .ok e') :
    e' = e ↔ (e.hasRange = true → e.agrees e.lo = true) := by
  have hlo := lo_of_tighten h
  rw [← he.raisedLo_eq_lo_iff]
  constructor
  · rintro rfl hrange
    rw [if_pos hrange] at hlo
    exact hlo.symm
  · intro hkept
    rw [he.eq_of_tighten hcurrent h, hlo]
    split
    · rename_i hrange
      rw [hkept hrange]
    · rfl

variable (hanchored : e.Anchored)
include hanchored

/-- The start of an interval is raised to the least completion from there on. -/
theorem isLeast_lo_of_tighten (hrange : e.hasRange = true) (h : e.tighten = .ok e') :
    IsLeast {n | e.Completes n ∧ e.lo.toNat ≤ n} e'.lo.toNat := by
  obtain ⟨n, hn, hge⟩ := exists_allows_ge hcurrent (he.exists_completes_ge hanchored)
  rw [lo_of_tighten h, if_pos hrange]
  exact isLeast_raisedLo he hn hge

/-- Tightening a second time changes nothing. -/
theorem tighten_of_tighten (h : e.tighten = .ok e') : e'.tighten = .ok e' := by
  have hagain := he.tighten_raised (he.exists_completes_ge hanchored) h
  rwa [← he.eq_of_tighten hcurrent h] at hagain

/-- In an interval that does not wrap around, the raised start is the least value. -/
theorem isLeast_allows_of_tighten (hlt : e.lo.toNat < e.hi.toNat) (h : e.tighten = .ok e') :
    IsLeast {n | e.Allows n} e'.lo.toNat := by
  have hrange := he.hasRange_iff.mpr (Nat.ne_of_lt hlt)
  obtain ⟨⟨hcompletes, hge⟩, hleast⟩ := he.isLeast_lo_of_tighten hcurrent hanchored hrange h
  have hbounds := fun n (hn : e.Allows n) => (inArc_iff_of_lt hlt).mp (allows_iff.mp hn).2
  have below := fun n (hn : e.Allows n) => hleast ⟨(allows_iff.mp hn).1, (hbounds n hn).1⟩
  have hend := Nat.lt_of_le_of_lt (below _ hcurrent) (hbounds _ hcurrent).2
  exact ⟨allows_iff.mpr ⟨hcompletes, (inArc_iff_of_lt hlt).mpr ⟨hge, hend⟩⟩, below⟩

end Regular

/-! ## Restricting again -/

/-- The number `n` lies in the interval from `lo` to `hi`, behind its start. -/
def Inside (lo hi n : Nat) : Prop := InArc lo hi n ∧ n ≠ lo

section Bounds

variable {lo hi l h : Nat}

/-- Bounds that do not lie inside the interval do not narrow it. -/
theorem narrowedBounds_eq_self (hne : lo ≠ hi) (hl : ¬ Inside lo hi l) (hh : ¬ Inside lo hi h) :
    narrowedBounds lo hi l h = (lo, hi) := by
  simp only [Inside, InArc] at hl hh
  simp only [narrowedBounds, if_neg hne]
  split
  · rw [if_neg (by omega), if_neg (by omega)]
  · rw [if_neg (by omega), if_neg (by omega)]

/-- Once they have narrowed an interval, the requested bounds do not lie inside it any more. -/
theorem not_inside_narrowedBounds (lo hi l h : Nat) :
    ¬ Inside (narrowedBounds lo hi l h).1 (narrowedBounds lo hi l h).2 l ∧
      ¬ Inside (narrowedBounds lo hi l h).1 (narrowedBounds lo hi l h).2 h := by
  simp only [narrowedBounds, Inside, InArc]
  split
  · omega
  · split <;> split <;> split <;> omega

end Bounds

namespace Regular

variable {e e' : Envelope} (he : e.Regular)
include he

/-- No number comes to lie inside the interval when its start is raised. -/
theorem inside_of_inside_raisedLo {m n : Nat} (hm : e.Allows m)
    (hn : Inside e.raisedLo.toNat e.hi.toNat n) : Inside e.lo.toNat e.hi.toNat n := by
  obtain ⟨hmc, hmr⟩ := allows_iff.mp hm
  rw [raisedLo] at hn
  cases hfound : e.ceilCompletion? e.lo with
  | none =>
      have hbelow := he.lt_of_ceilCompletion?_eq_none he.lo hfound hmc
      rw [hfound, Option.getD_none, toNat_setZero he.lo.toSpans] at hn
      simp only [Inside, InArc] at *
      omega
  | some y =>
      obtain ⟨⟨-, hge⟩, hleast⟩ := he.isLeast_ceilCompletion he.lo hfound
      have hmy := fun hle => hleast ⟨hmc, hle⟩
      rw [hfound, Option.getD_some] at hn
      simp only [Inside, InArc] at *
      omega

theorem not_inside_of_tighten (h : e.tighten = .ok e') {n : Nat}
    (hn : ¬ Inside e.lo.toNat e.hi.toNat n) : ¬ Inside e'.lo.toNat e'.hi.toNat n := by
  have hsame := he.sameValues_of_tighten h
  have hallows := (hsame.allows_iff _).mp hsame.allows_current
  rw [hsame.hi_eq, lo_of_tighten h]
  split
  · exact mt (he.inside_of_inside_raisedLo hallows) hn
  · exact hn

theorem narrowed_eq_self {l r : Int} (hne : e.lo.toNat ≠ e.hi.toNat)
    (hl : ¬ Inside e.lo.toNat e.hi.toNat (e.residue l))
    (hr : ¬ Inside e.lo.toNat e.hi.toNat (e.residue r)) : e.narrowed l r = e := by
  have hlo : e.lo.natOfFirst e.wordCount = e.lo.toNat := he.lo.toSpans.toNat_eq.symm
  have hhi : e.hi.natOfFirst e.wordCount = e.hi.toNat := he.hi.toSpans.toNat_eq.symm
  simp only [narrowed, hlo, hhi, narrowedBounds_eq_self hne hl hr]
  rw [setNat_toNat he.lo.toSpans he.lo rfl, setNat_toNat he.hi.toSpans he.hi rfl]

/-- A request that has been carried out narrows nothing the second time. -/
theorem narrowed_of_tighten_narrowed {l r : Int} (hlr : e.residue l ≠ e.residue r)
    (h : (e.narrowed l r).tighten = .ok e') : e'.narrowed l r = e' := by
  have hnarrowed := he.narrowed_regular l r
  have hsame := hnarrowed.sameValues_of_tighten h
  obtain ⟨hlo, hhi⟩ := he.toNat_narrowed l r
  obtain ⟨hl, hr⟩ := not_inside_narrowedBounds e.lo.toNat e.hi.toNat (e.residue l) (e.residue r)
  have hne : (e.narrowed l r).lo.toNat ≠ (e.narrowed l r).hi.toNat := by
    rw [hlo, hhi]
    exact narrowedBounds_ne hlr
  rw [← hlo, ← hhi] at hl hr
  refine hsame.regular.narrowed_eq_self (hsame.lo_ne_hi hne) ?_ ?_
  · rw [residue_congr hsame.width_eq]
    exact hnarrowed.not_inside_of_tighten h hl
  · rw [residue_congr hsame.width_eq]
    exact hnarrowed.not_inside_of_tighten h hr

/-- The second time, a restriction only tightens. -/
theorem restrict_of_restrict {l r : Int} (hlr : e.residue l ≠ e.residue r)
    (h : e.restrict l r = .ok e') : e'.restrict l r = e'.tighten := by
  rw [restrict_eq, if_neg hlr] at h
  have hresidue := residue_congr ((he.narrowed_regular l r).sameValues_of_tighten h).width_eq
  have hlr' : e'.residue l ≠ e'.residue r := by
    rw [hresidue, hresidue]
    exact hlr
  rw [restrict_eq, if_neg hlr', he.narrowed_of_tighten_narrowed hlr h]

end Regular

end BitEnvelope.Envelope
