import BitEnvelope.Proofs.Envelope.Tightened
import BitEnvelope.Proofs.Valuation.Sound

/-!
# How an envelope is stored

What a run keeps of the fields of an envelope besides soundness. No mutation writes the headroom of
the committed value, of the pins or of the bounds, so it is as clear as in the unrestricted
valuation, and the stored words are determined by the numbers that they stand for. The interval
starts at a completion of the pins or at zero. The sign prefix is no longer than the value. The
trial value is not covered: a search may write any of its words.
-/

namespace BitEnvelope

open BitEnvelope.Envelope

namespace Valuation

/-- What a run keeps of the fields of an envelope. -/
structure Stored (v : Valuation) : Prop where
  clear : v.ClearHeadroom
  anchored : v.Anchored
  prefix_le : v.signedPrefix ≤ v.width

variable {width : Nat} {v w : Valuation}

theorem stored_blank (width : Nat) : (blank width).Stored := by
  have hlo : (blank width).lo.toNat = 0 := Packed.toNat_blank width
  refine ⟨⟨rfl, ?_, rfl, rfl⟩, ⟨.inl hlo, fun _ => hlo⟩, Nat.zero_le _⟩
  rcases Nat.eq_zero_or_pos width with rfl | hpos
  · rfl
  · refine Packed.headroom_setWord ?_ _
    change Word.count width - 1 < Word.count width
    unfold Word.count
    omega

/-- Tightening an envelope that is stored so but for the start of its interval. -/
theorem Stored.of_tighten {e : Envelope} {e' : Envelope} (he : e.Regular) (hclear : e.ClearHeadroom)
    (hstart : e.lo.toNat = e.hi.toNat → e.lo.toNat = 0) (hsign : e.signedPrefix ≤ e.width)
    (h : e.tighten = .ok e') (x : Packed) : Stored ⟨e', x⟩ := by
  have hsame := he.sameValues_of_tighten h
  refine ⟨hclear.tighten he h, he.anchored_of_tighten h hstart, ?_⟩
  change e'.signedPrefix ≤ e'.width
  rw [hsame.signedPrefix_eq, hsame.width_eq]
  exact hsign

theorem Stored.change (hstored : v.Stored) (hv : v.Sound width) (h : Change v w) : w.Stored := by
  obtain ⟨hclear, hanchored, hsign⟩ := hstored
  cases h with
  | trial x hx => exact ⟨hclear, hanchored, hsign⟩
  | limitSign k =>
      exact ⟨⟨hclear.current, hclear.pins, hclear.lo, hclear.hi⟩,
        ⟨hanchored.start, hanchored.start_of_eq⟩, Nat.min_le_right k v.width⟩
  | commit hadmits =>
      have hsame := sameValues_of_commit hv.regular hv.trial hadmits
      exact ⟨⟨hv.regular.current.toSpans.headroom_copyFrom.trans hclear.current, hclear.pins,
        hclear.lo, hclear.hi⟩, hanchored.of_sameValues hsame rfl, hsign⟩
  | pin i b h =>
      rw [pin] at h
      split at h
      · rename_i hi
        obtain ⟨e, he, rfl⟩ := exists_of_map_eq_ok h
        exact .of_tighten (hv.regular.pin hi b) (hclear.pin hi b) hanchored.start_of_eq hsign he _
      · cases h
  | restrict l r h =>
      obtain ⟨e, he, rfl⟩ := exists_of_map_eq_ok h
      rw [restrict_eq] at he
      split at he
      · cases he
        exact ⟨hclear, hanchored, hsign⟩
      · rename_i hlr
        obtain ⟨hlo, hhi⟩ := hv.regular.toNat_narrowed l r
        refine .of_tighten (hv.regular.narrowed_regular l r) (hclear.narrowed hv.regular l r)
          (fun heq => ?_) hsign he _
        rw [hlo, hhi] at heq
        exact absurd heq (narrowedBounds_ne hlr)
  | tighten h =>
      obtain ⟨e, he, rfl⟩ := exists_of_map_eq_ok h
      exact .of_tighten hv.regular hclear hanchored.start_of_eq hsign he _

end Valuation

theorem Reachable.stored {width : Nat} {v : Valuation} (h : Reachable width v) : v.Stored := by
  induction h with
  | blank => exact Valuation.stored_blank width
  | run hv m _ d ih => exact ih.change hv.sound (m.change_run _ d)

end BitEnvelope
