import BitEnvelope.Proofs.Envelope.Failure
import BitEnvelope.Proofs.Valuation.Sound

/-!
# Tightening in the middle of a change

When a bound has been moved or a position pinned, the committed value may lie outside the interval
until the valuation is tightened. Tightening then fails if no value is left. Otherwise it leaves the
values of the envelope as they are, and `Relocates` says where the committed value goes.
-/

namespace BitEnvelope

namespace Envelope

/-- Tightening moves the committed value to `x`: it stays if it is in range, and otherwise becomes
the least value at or above the start of the interval. Only an interval that wraps around can have
no value there; then it becomes the least completion. -/
inductive Relocates (e : Envelope) (x : Packed) : Prop
  | kept (inside : e.inRange e.current = true) (eq : x = e.current)
  | raised (outside : e.inRange e.current = false)
      (least : IsLeast {n | e.Allows n ∧ e.lo.toNat ≤ n} x.toNat)
  | wrapped (outside : e.inRange e.current = false) (wraps : e.hi.toNat < e.lo.toNat)
      (none_above : ∀ n, e.Allows n → ¬ e.lo.toNat ≤ n)
      (least : IsLeast {n | e.Completes n} x.toNat)

variable {e e' : Envelope} {x : Packed}

namespace Regular

variable (he : e.Regular)
include he

/-- A completion from the start of the interval on that is in range is the least value there. -/
theorem isLeast_allows_fromLo
    (hfound : e.ceilCompletion? (e.current.copyFrom e.wordCount e.lo) = some x)
    (hin : e.inRange x = true) : IsLeast {n | e.Allows n ∧ e.lo.toNat ≤ n} x.toNat := by
  have hx := he.current.toSpans.of_shape (shape_of_fromLo hfound)
  have hfinds := he.finds_fromLo he.current
  rw [hfound] at hfinds
  obtain ⟨⟨hcompletes, hge⟩, hleast⟩ := hfinds
  refine ⟨⟨allows_iff.mpr ⟨hcompletes, (he.inRange_iff hx).mp hin⟩, hge⟩, ?_⟩
  intro n hn
  exact hleast ⟨(allows_iff.mp hn.1).1, hn.2⟩

theorem relocates_of_relocate? (h : e.relocate? = some x) : e.Relocates x := by
  simp only [relocate?] at h
  split at h
  · rename_i hin
    cases h
    exact .kept hin rfl
  · rename_i hout
    rw [Bool.not_eq_true] at hout
    rcases Option.or_eq_some_iff.mp h with hlo | ⟨hnone, hzero⟩
    · obtain ⟨hfound, hin⟩ := Option.filter_eq_some_iff.mp hlo
      exact .raised hout (he.isLeast_allows_fromLo hfound hin)
    · obtain ⟨hfound, -⟩ := Option.filter_eq_some_iff.mp hzero
      split at hfound
      · rename_i hwraps
        cases hfound
        have hzero := he.current.toSpans.of_shape (shape_setZero e e.current)
        refine .wrapped hout ((he.hi.toSpans.lt_iff he.lo.toSpans).mp hwraps) ?_
          ⟨he.completes_applyPins hzero, ?_⟩
        · intro n hn hge
          obtain ⟨y, hy, hin⟩ := he.exists_inRange_fromLo hn hge
          rw [hy, Option.filter_some, if_pos hin] at hnone
          cases hnone
        · intro n hn
          exact he.toNat_applyPins_setZero_le he.current.toSpans hn
      · cases hfound

/-- Without an interval, every completion is in range. -/
theorem inRange_of_not_hasRange (hx : x.Spans e.width) (hrange : e.hasRange = false) :
    e.inRange x = true := by
  refine (he.inRange_iff hx).mpr (inArc_of_eq ?_)
  by_contra hne
  rw [he.hasRange_iff.mpr hne] at hrange
  cases hrange

theorem relocates_of_tighten (h : e.tighten = .ok e') :
    e.Relocates e'.current ∧ e'.hasRange = e.hasRange := by
  cases hrange : e.hasRange with
  | false =>
      rw [tighten_of_not_hasRange hrange] at h
      cases h
      exact ⟨.kept (he.inRange_of_not_hasRange he.current.toSpans hrange) rfl, hrange⟩
  | true =>
      have hsame := he.sameValues_of_tighten h
      obtain ⟨x, hx, rfl⟩ := (tighten_eq_ok_iff hrange).mp h
      have hne := hsame.lo_ne_hi (he.hasRange_iff.mp hrange)
      exact ⟨he.relocates_of_relocate? hx, hsame.regular.hasRange_iff.mpr hne⟩

end Regular

end Envelope

namespace Valuation

variable {v : Valuation}

/-- Tightening a valuation whose bounds and committed value have its width, in range or not, fails
if and only if an interval is set and no value is left. Otherwise it keeps the values of the
envelope, the end of the interval, the pins, the trial value and the pinned bits of the committed
value, which becomes a value of the envelope. -/
theorem tighten_relocates (hv : v.Regular) :
    (∀ err, v.tighten = .error err ↔
      (v.hasRange = true ∧ ∀ n, ¬ v.Allows n) ∧ err = .empty v.lo.toNat v.hi.toNat) ∧
    ∀ w, v.tighten = .ok w →
      (∀ n, w.Allows n ↔ v.Allows n) ∧
      (w.hi = v.hi ∧ w.pins = v.pins ∧ w.trial = v.trial ∧
        ∀ i < v.width, v.isFree i = false → w.current.bit i = v.current.bit i) ∧
      w.hasRange = v.hasRange ∧
      w.Allows w.current.toNat ∧ v.Relocates w.current := by
  constructor
  · intro err
    rw [tighten, map_eq_error_iff, hv.tighten_eq_error_iff]
    refine and_congr_left fun _ => ⟨fun hempty => ⟨?_, hempty⟩, And.right⟩
    by_contra hrange
    rw [Bool.not_eq_true] at hrange
    have hin := hv.inRange_of_not_hasRange hv.current.toSpans hrange
    refine hempty v.current.toNat (Envelope.allows_iff.mpr ⟨hv.completes_current, ?_⟩)
    exact (hv.inRange_iff hv.current.toSpans).mp hin
  · intro w h
    obtain ⟨e, he, rfl⟩ := exists_of_map_eq_ok h
    have hsame := hv.sameValues_of_tighten he
    obtain ⟨hmoves, hrange⟩ := hv.relocates_of_tighten he
    exact ⟨hsame.allows_iff,
      ⟨hsame.hi_eq, hsame.pins_eq, rfl, fun i hi hpin => hsame.current_bit_eq hi hpin⟩,
      hrange, hsame.allows_current, hmoves⟩

/-- The odd numbers of eight bits below one hundred and twenty-eight, with one hundred and one as
the committed value. -/
def oddAtHundredOne : Valuation :=
  (Mutation.commit.run
    ((Mutation.propose (Packed.ofNat 8 101)).run
      ((Mutation.pin 7 false).run
        ((Mutation.pin 0 true).run (blank 8) (Draws.start [] 0)).2.1
        (Draws.start [] 0)).2.1 (Draws.start [] 0)).2.1 (Draws.start [] 0)).2.1

theorem reachable_oddAtHundredOne : Reachable 8 oddAtHundredOne := by
  have hfits : (Packed.ofNat 8 101).Fits 8 := by decide
  exact .run (.run (.run (.run .blank (.pin 0 true) trivial _) (.pin 7 false) trivial _)
    (.propose (Packed.ofNat 8 101)) hfits _) .commit trivial _

/-- The same after the bounds have been moved to two hundred and five: the committed value lies in
the gap. -/
def oddAtHundredOneInGap : Valuation :=
  { oddAtHundredOne with toEnvelope := oddAtHundredOne.narrowed 200 5 }

/-- No odd number below one hundred and twenty-eight is two hundred or more, so the committed value
moves down to one, the least completion, and the interval starts at zero. -/
theorem tighten_relocates_oddAtHundredOne :
    oddAtHundredOneInGap.Regular ∧ oddAtHundredOneInGap.current.toNat = 101 ∧
      ∃ w, oddAtHundredOneInGap.tighten = .ok w ∧
        w.current.toNat = 1 ∧ w.lo.toNat = 0 ∧ w.Allows 1 ∧ oddAtHundredOneInGap.Allows 3 ∧
        w.Allows 3 ∧ oddAtHundredOneInGap.Relocates w.current := by
  have hregular : oddAtHundredOneInGap.Regular :=
    reachable_oddAtHundredOne.sound.regular.narrowed_regular 200 5
  obtain ⟨w, hok, hw⟩ : ∃ w, oddAtHundredOneInGap.tighten = .ok w ∧
      (Mutation.tighten.run oddAtHundredOneInGap (Draws.start [] 0)).2.1 = w :=
    ⟨(Mutation.tighten.run oddAtHundredOneInGap (Draws.start [] 0)).2.1, by rfl, rfl⟩
  obtain ⟨hvalues, -, -, hcurrent, hmoves⟩ := (tighten_relocates hregular).2 w hok
  have hone : w.current.toNat = 1 := by
    rw [← hw]
    decide
  have hthree : oddAtHundredOneInGap.Allows 3 := by decide
  refine ⟨hregular, by decide, w, hok, hone, ?_, hone ▸ hcurrent, hthree,
    (hvalues 3).mpr hthree, hmoves⟩
  rw [← hw]
  decide

end Valuation

end BitEnvelope
