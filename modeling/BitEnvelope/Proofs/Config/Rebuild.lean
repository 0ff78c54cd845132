import BitEnvelope.Proofs.Config.Build
import BitEnvelope.Proofs.Envelope.Alike

/-!
# Export and rebuild

The configuration of a valuation describes its envelope and not its committed value. Building it
again tightens the same envelope, but with no bit set in the committed value except the pinned ones
(`bare`): the values of the envelope are the same, while the interval may start at a later
completion. A rebuilt valuation is rebuilt as it is: its interval starts where tightening has left
it, so to tighten once more moves nothing.
-/

namespace BitEnvelope

open BitEnvelope.Envelope

namespace Valuation

/-! ## The envelope without its free bits -/

/-- The pinned positions below the width, lowest first. -/
def pinnedPositions (v : Valuation) : List Nat := (List.range v.width).filter fun i => !v.isFree i

/-- The valuation `v` with no bit set in the committed and in the trial value except the pinned
ones. -/
def bare (v : Valuation) : Valuation :=
  { v with
    current := (Packed.blank v.width).setBits v.pinnedPositions v.current.bit
    trial := (Packed.blank v.width).setBits v.pinnedPositions v.current.bit }

variable {width : Nat} {v w : Valuation}

theorem mem_pinnedPositions {i : Nat} :
    i ∈ v.pinnedPositions ↔ i < v.width ∧ v.isFree i = false := by
  rw [pinnedPositions, List.mem_filter, List.mem_range, Bool.not_eq_true']

theorem bit_current_bare (v : Valuation) (i : Nat) :
    v.bare.current.bit i = if i ∈ v.pinnedPositions then v.current.bit i else false := by
  have hblank := (Packed.isValue_blank v.width).toSpans
  have hcap : ∀ j ∈ v.pinnedPositions, j < (Packed.blank v.width).capacity := fun j hj =>
    hblank.lt_capacity (Packed.lt_words_of_lt (mem_pinnedPositions.mp hj).1)
  have hbit := Packed.bit_setBits (Packed.blank v.width) hcap v.current.bit i
  rw [Packed.bit_blank] at hbit
  exact hbit

theorem alike_bare (v : Valuation) : v.toEnvelope.Alike v.bare.toEnvelope := by
  refine ⟨rfl, rfl, rfl, rfl, rfl, fun i hi hpin => ?_⟩
  rw [bit_current_bare, if_pos (mem_pinnedPositions.mpr ⟨hi, hpin⟩)]

theorem Sound.regular_bare (hv : v.Sound width) : v.bare.Regular := by
  have hspans := (Packed.isValue_blank v.width).toSpans.of_shape
    (Packed.shape_setBits (Packed.blank v.width) v.pinnedPositions v.current.bit)
  refine ⟨⟨hspans, hspans.toNat_lt_of_bit fun i hi hc => ?_⟩, hv.regular.pins, hv.regular.lo,
    hv.regular.hi, hv.regular.overflow⟩
  refine (bit_current_bare v i).trans (if_neg fun hmem => ?_)
  exact Nat.not_lt.mpr hi (mem_pinnedPositions.mp hmem).1

/-- The free bits do not show. -/
theorem bare_congr (h : v.toEnvelope.Alike w.toEnvelope) : w.bare = v.bare := by
  have hpositions : w.pinnedPositions = v.pinnedPositions := by
    simp only [pinnedPositions, isFree, h.width_eq, h.pins_eq]
  have hvalue : (Packed.blank w.width).setBits w.pinnedPositions w.current.bit =
      (Packed.blank v.width).setBits v.pinnedPositions v.current.bit := by
    rw [hpositions, h.width_eq]
    refine Packed.setBits_congr _ fun i hi => ?_
    obtain ⟨hlt, hpin⟩ := mem_pinnedPositions.mp hi
    exact h.current_bit_eq i hlt hpin
  rw [bare, bare, hvalue, h.width_eq, h.pins_eq, h.lo_eq, h.hi_eq, h.signedPrefix_eq]

/-! ## The pins alone -/

section Pins

variable (hv : v.Sound width) (hstored : v.Stored)
include hv hstored

/-- To pin the pinned positions of `v` anew gives the words of its pins. -/
theorem setBits_pins_blank :
    (blank v.width).pins.setBits v.pinnedPositions (fun _ => true) = v.pins := by
  have hblank : (blank v.width).pins.Spans v.width := (sound_blank v.width).regular.pins
  have hwords : ∀ i ∈ v.pinnedPositions, i < 32 * Word.count v.width := fun i hi =>
    Packed.lt_words_of_lt (mem_pinnedPositions.mp hi).1
  have hspans := hblank.of_shape (Packed.shape_setBits _ v.pinnedPositions fun _ => true)
  have hhead := (Packed.headroom_setBits hwords fun _ => true).trans
    (stored_blank v.width).clear.pins
  refine hspans.eq_of_toNat_eq hv.regular.pins (hhead.trans hstored.clear.pins.symm) ?_
  apply Nat.eq_of_testBit_eq
  intro i
  rw [hspans.testBit_toNat, hv.regular.pins.testBit_toNat]
  by_cases hc : i < 32 * Word.count v.width
  · have hfree := isFree_blank hc
    have hpin : v.pins.bit i = !v.isFree i := (Bool.not_not _).symm
    rw [isFree, Bool.not_eq_eq_eq_not] at hfree
    rw [Packed.bit_setBits _ (fun j hj => hblank.lt_capacity (hwords j hj)), hfree, hpin]
    by_cases hi : i < v.width
    · cases hvi : v.isFree i <;> simp [mem_pinnedPositions, hi, hvi]
    · simp [mem_pinnedPositions, hi, hv.regular.overflow i (Nat.le_of_not_lt hi) hc]
  · simp [hc]

/-- The pins of `v` on an unrestricted valuation are the bare envelope of `v` without its
interval. -/
theorem writePins_blank :
    ((blank v.width).limitSign v.signedPrefix).writePins v.pinnedPositions v.current.bit =
      v.bare.writeBounds (Packed.blank v.width) (Packed.blank v.width) := by
  have hsign : min v.signedPrefix v.width = v.signedPrefix := Nat.min_eq_left hstored.prefix_le
  have hpins := setBits_pins_blank hv hstored
  simp only [writePins, limitSign, Envelope.limitSign, bare, writeBounds]
  rw [hpins]
  change Valuation.mk (Envelope.mk _ _ _ _ _ (min v.signedPrefix v.width)) _ = _
  rw [hsign]
  rfl

/-- Where nothing is restricted, both bounds are stored as zero. -/
theorem bounds_of_not_hasRange (hrange : v.hasRange = false) :
    v.lo = Packed.blank v.width ∧ v.hi = Packed.blank v.width := by
  have heq : v.lo.toNat = v.hi.toNat := by
    by_contra hne
    rw [hv.regular.hasRange_iff.mpr hne] at hrange
    cases hrange
  have hzero := hstored.anchored.start_of_eq heq
  have hblank := (Packed.isValue_blank v.width).toSpans
  have hnat := Packed.toNat_blank v.width
  exact ⟨hv.regular.lo.toSpans.eq_of_toNat_eq hblank hstored.clear.lo (hzero.trans hnat.symm),
    hv.regular.hi.toSpans.eq_of_toNat_eq hblank hstored.clear.hi
      ((heq.symm.trans hzero).trans hnat.symm)⟩

/-- To narrow the bare envelope without its interval to the bounds of `v` gives it its interval. -/
theorem narrowed_bare :
    (v.bare.writeBounds (Packed.blank v.width) (Packed.blank v.width)).narrowed
      v.lo.toNat v.hi.toNat = v.bare.toEnvelope := by
  have hblank := (Packed.isValue_blank v.width).toSpans
  have hlo : v.setNat (Packed.blank v.width) v.lo.toNat = v.lo :=
    setNat_toNat hblank hv.regular.lo hstored.clear.lo.symm
  have hhi : v.setNat (Packed.blank v.width) v.hi.toNat = v.hi :=
    setNat_toNat hblank hv.regular.hi hstored.clear.hi.symm
  rw [narrowed_of_lo_eq_hi rfl]
  change Envelope.mk v.width v.bare.current v.pins
    (v.setNat (Packed.blank v.width) (v.residue v.lo.toNat))
    (v.setNat (Packed.blank v.width) (v.residue v.hi.toNat)) v.signedPrefix = v.bare.toEnvelope
  rw [residue_natCast, residue_natCast, Nat.mod_eq_of_lt hv.regular.lo.toNat_lt,
    Nat.mod_eq_of_lt hv.regular.hi.toNat_lt, hlo, hhi]
  rfl

/-- To restrict the bare envelope without its interval by the bounds of `v` is to tighten it with
them. -/
theorem restrict_bare (hrange : v.hasRange = true) :
    (v.bare.writeBounds (Packed.blank v.width) (Packed.blank v.width)).restrict
      v.lo.toNat v.hi.toNat = v.bare.tighten := by
  have hne : v.residue v.lo.toNat ≠ v.residue v.hi.toNat := by
    rw [residue_natCast, residue_natCast, Nat.mod_eq_of_lt hv.regular.lo.toNat_lt,
      Nat.mod_eq_of_lt hv.regular.hi.toNat_lt]
    exact hv.regular.hasRange_iff.mp hrange
  have htight : (v.bare.writeBounds (Packed.blank v.width)
      (Packed.blank v.width)).toEnvelope.restrict v.lo.toNat v.hi.toNat =
        v.bare.toEnvelope.tighten := by
    rw [restrict_eq, narrowed_bare hv hstored]
    exact if_neg hne
  exact congrArg (Except.map _) htight

/-! ## The configuration, carried out -/

/-- The pins of `v`, carried out on an unrestricted valuation, give the bare envelope of `v` without
its interval. -/
theorem pinAll_pinsOf (hsize : v.width < UInt64.size) :
    Config.pinAll ((blank v.width).limitSign v.signedPrefix) (Config.pinsOf v) =
      .ok (v.bare.writeBounds (Packed.blank v.width) (Packed.blank v.width)) := by
  have hfree : ((blank v.width).limitSign v.signedPrefix).hasRange = false := by
    rw [← Bool.not_eq_true]
    exact fun h => (sound_blank v.width).regular.hasRange_iff.mp h rfl
  have hlt : ∀ i ∈ v.pinnedPositions, i < v.width := fun i hi => (mem_pinnedPositions.mp hi).1
  rw [← writePins_blank hv hstored]
  exact pinAll_of_not_hasRange hfree hsize hlt v.current.bit

/-- The interval of `v`, carried out after its pins, comes to tightening its bare envelope. -/
theorem restrictAll_rangesOf :
    Config.restrictAll (v.bare.writeBounds (Packed.blank v.width) (Packed.blank v.width))
      (Config.rangesOf v) = v.bare.tighten := by
  rw [Config.rangesOf]
  cases hrange : v.hasRange with
  | true =>
      have hlo : v.lo.natOfFirst v.wordCount = v.lo.toNat := hv.regular.lo.toSpans.toNat_eq.symm
      have hhi : v.hi.natOfFirst v.wordCount = v.hi.toNat := hv.regular.hi.toSpans.toNat_eq.symm
      rw [hlo, hhi, ← restrict_bare hv hstored hrange]
      exact (Config.restrictAll_ofInts _ [(_, _)]).trans (bind_pure _)
  | false =>
      obtain ⟨hlo, hhi⟩ := bounds_of_not_hasRange hv hstored hrange
      have hbounds : v.bare.writeBounds (Packed.blank v.width) (Packed.blank v.width) = v.bare :=
        calc v.bare.writeBounds (Packed.blank v.width) (Packed.blank v.width)
            = v.bare.writeBounds v.lo v.hi := by rw [hlo, hhi]
          _ = v.bare := rfl
      have htight : v.bare.tighten = .ok v.bare :=
        congrArg (Except.map _) (tighten_of_not_hasRange (e := v.bare.toEnvelope) hrange)
      rw [hbounds, htight]
      rfl

/-! ## The bare envelope, tightened -/

theorem sharesPins_bare : v.toEnvelope.SharesPins v.bare.current :=
  (alike_bare v).sharesPins hv.regular hv.regular_bare hstored.clear

/-- The committed value of `v` is a value of its bare envelope, so that one is not empty. -/
theorem exists_tighten_bare : ∃ e, v.bare.toEnvelope.tighten = .ok e := by
  have hcurrent := (sharesPins_bare hv hstored).allows_iff.mpr hv.allows_current
  exact hv.regular_bare.exists_tighten_iff.mpr ⟨_, hcurrent⟩

/-- The bare envelope of what tightening the bare envelope of `v` gives is the one of `v` with the
start of its interval raised, and tightening comes to the same from there. -/
theorem tighten_bare_again {e : Envelope} (htight : v.bare.toEnvelope.tighten = .ok e) :
    (bare ⟨e, v.bare.trial⟩).tighten = .ok ⟨e, v.bare.trial⟩ := by
  have hsame := hv.regular_bare.sameValues_of_tighten htight
  have halike : (v.writeBounds e.lo v.hi).toEnvelope.Alike e :=
    ⟨hsame.width_eq, hsame.pins_eq, rfl, hsame.hi_eq, hsame.signedPrefix_eq, fun i hi hpin =>
      (hsame.current_bit_eq hi hpin).trans ((alike_bare v).current_bit_eq i hi hpin)⟩
  have hraised : bare ⟨e, v.bare.trial⟩ = v.bare.writeBounds e.lo v.hi :=
    bare_congr (w := ⟨e, v.bare.trial⟩) halike
  have hstart : ∃ n, v.bare.Completes n ∧ v.bare.lo.toNat ≤ n := by
    obtain ⟨n, hn, hge⟩ := hv.regular.exists_completes_ge hstored.anchored
    exact ⟨n, (sharesPins_bare hv hstored).completes_iff.mpr hn, hge⟩
  rw [hraised]
  exact congrArg (Except.map _) (hv.regular_bare.tighten_raised hstart htight)

end Pins

end Valuation

namespace Config

open BitEnvelope.Valuation

variable {v w : Valuation}

/-- The configuration of a valuation passes its validation. -/
theorem validate_ofValuation (hsize : v.width < UInt64.size) (hpos : 0 < v.width)
    (hsign : v.signedPrefix ≤ v.width) : (ofValuation v).validate = .ok () := by
  have hwidth : (UInt64.ofNat v.width).toNat = v.width := UInt64.toNat_ofNat_of_lt' hsize
  refine validate_eq_ok (fun hzero => ?_) ?_ (fun p hp => ?_) fun r hr => ?_
  · have hnat := congrArg UInt64.toNat hzero
    change (UInt64.ofNat v.width).toNat = 0 at hnat
    omega
  · change UInt64.ofNat v.signedPrefix ≤ UInt64.ofNat v.width
    rw [UInt64.le_iff_toNat_le, hwidth, UInt64.toNat_ofNat_of_lt' (Nat.lt_of_le_of_lt hsign hsize)]
    exact hsign
  · obtain ⟨i, hi, rfl⟩ := List.mem_map.mp hp
    have hlt := (mem_pinnedPositions.mp hi).1
    change UInt64.ofNat i < UInt64.ofNat v.width
    rw [UInt64.lt_iff_toNat_lt, hwidth, UInt64.toNat_ofNat_of_lt' (Nat.lt_trans hlt hsize)]
    exact hlt
  · change r ∈ rangesOf v at hr
    rw [rangesOf] at hr
    split at hr
    · rw [List.mem_singleton.mp hr]
      exact ⟨_, RangeText.bounds_ofInts _ _⟩
    · cases hr

theorem width_ofValuation {width : UInt64} (h : Reachable width.toNat v) :
    (ofValuation v).width = width := by
  change UInt64.ofNat v.width = width
  rw [h.sound.width_eq, UInt64.ofNat_toNat]

/-- What is built from the configuration of a valuation is its bare envelope, tightened. -/
theorem build_ofValuation {width : UInt64} (hwidth : width ≠ 0) (h : Reachable width.toNat v) :
    (ofValuation v).build = v.bare.tighten := by
  have hv := h.sound
  have hsize : v.width < UInt64.size := hv.width_eq ▸ width.toNat_lt
  have hpos : 0 < v.width := by
    rw [hv.width_eq]
    exact Nat.pos_of_ne_zero fun hzero => hwidth (UInt64.toNat_inj.mp hzero)
  have hw : (UInt64.ofNat v.width).toNat = v.width := UInt64.toNat_ofNat_of_lt' hsize
  have hp : (UInt64.ofNat v.signedPrefix).toNat = v.signedPrefix :=
    UInt64.toNat_ofNat_of_lt' (Nat.lt_of_le_of_lt h.stored.prefix_le hsize)
  rw [build_eq_of_validate (validate_ofValuation hsize hpos h.stored.prefix_le)]
  change pinAll ((blank (UInt64.ofNat v.width).toNat).limitSign
    (UInt64.ofNat v.signedPrefix).toNat) (pinsOf v) >>= (fun u => restrictAll u (rangesOf v)) = _
  rw [hw, hp, pinAll_pinsOf hv h.stored hsize]
  exact restrictAll_rangesOf hv h.stored

end Config

open BitEnvelope.Valuation

/-- Rebuilding a valuation from its configuration succeeds and gives the same width, sign prefix,
pins, pinned bits, end of the interval and values; what is rebuilt once is rebuilt as it is. -/
theorem Reachable.rebuild {width : UInt64} {v : Valuation} (hwidth : width ≠ 0)
    (h : Reachable width.toNat v) :
    ∃ w, (Config.ofValuation v).build = .ok w ∧
      (w.width = v.width ∧ w.signedPrefix = v.signedPrefix ∧ w.pins = v.pins ∧ w.hi = v.hi) ∧
      (∀ i < v.width, v.isFree i = false → w.current.bit i = v.current.bit i) ∧
      (∀ n, w.Allows n ↔ v.Allows n) ∧
      (Config.ofValuation w).build = .ok w := by
  have hv := h.sound
  obtain ⟨e, htight⟩ := exists_tighten_bare hv h.stored
  have hsame := hv.regular_bare.sameValues_of_tighten htight
  have hbuild : (Config.ofValuation v).build = .ok ⟨e, v.bare.trial⟩ :=
    (Config.build_ofValuation hwidth h).trans (congrArg (Except.map _) htight)
  have hw : Reachable width.toNat ⟨e, v.bare.trial⟩ := by
    have hreach := Config.reachable_of_build hbuild
    rwa [Config.width_ofValuation h] at hreach
  refine ⟨⟨e, v.bare.trial⟩, hbuild,
    ⟨hsame.width_eq, hsame.signedPrefix_eq, hsame.pins_eq, hsame.hi_eq⟩,
    fun i hi hpin => ?_, fun n => ?_, ?_⟩
  · exact (hsame.current_bit_eq hi hpin).trans ((alike_bare v).current_bit_eq i hi hpin)
  · exact (hsame.allows_iff n).trans (sharesPins_bare hv h.stored).allows_iff
  · exact (Config.build_ofValuation hwidth hw).trans (tighten_bare_again hv h.stored htight)

/-! ## An interval that a pin has emptied above its start -/

/-- The odd numbers of eight bits from 255 on and below five, without those from 128 on. -/
def Valuation.oddBelowFive : Valuation :=
  ((Mutation.pin 7 false).run ((Mutation.restrict 255 5).run
    ((Mutation.pin 0 true).run (blank 8) (Draws.start [] 0)).2.1 (Draws.start [] 0)).2.1
      (Draws.start [] 0)).2.1

theorem reachable_oddBelowFive : Reachable (8 : UInt64).toNat oddBelowFive :=
  .run (.run (.run .blank (.pin 0 true) trivial _) (.restrict 255 5) trivial _) (.pin 7 false)
    trivial _

/-- The interval of `oddBelowFive` starts at zero, the rebuilt one at the first odd number. -/
theorem Reachable.rebuild_oddBelowFive :
    (8 : UInt64) ≠ 0 ∧ Reachable (8 : UInt64).toNat oddBelowFive ∧ oddBelowFive.lo.toNat = 0 ∧
      ∃ w, (Config.ofValuation oddBelowFive).build = .ok w ∧ w.lo.toNat = 1 ∧
        (∀ n, w.Allows n ↔ oddBelowFive.Allows n) ∧ (Config.ofValuation w).build = .ok w := by
  have hwidth : (8 : UInt64) ≠ 0 := by decide
  obtain ⟨w, hbuild, -, -, hallows, hagain⟩ := Reachable.rebuild hwidth reachable_oddBelowFive
  have htight : oddBelowFive.bare.tighten = .ok w :=
    (Config.build_ofValuation hwidth reachable_oddBelowFive).symm.trans hbuild
  have hlo : (oddBelowFive.bare.tighten.map fun u => u.lo.toNat) = .ok 1 := by decide
  rw [htight] at hlo
  exact ⟨hwidth, reachable_oddBelowFive, by decide, w, hbuild, Except.ok.inj hlo, hallows,
    hagain⟩

end BitEnvelope
