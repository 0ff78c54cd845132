import BitEnvelope.Proofs.Envelope.Scatter
import BitEnvelope.Proofs.Envelope.Sweep
import BitEnvelope.Proofs.Valuation.Sampling

/-!
# What the samplers can draw

Without a sign prefix, a sampler misses no value that it may return. The search finds the greatest
value under the bound. On heads that value is drawn itself; on tails every smaller completion of the
pins can be drawn from it, and one that meets the bounds is left alone by what follows.
-/

namespace BitEnvelope

open Draws (CanGive)

namespace Valuation

variable {v w : Valuation} {search : Envelope → Packed → Option Packed} {extreme : Packed → Bool}
  {change : Packed → Draws → Packed × Draws} {fits : Packed → Bool} {tmp bound x : Packed}

/-! ## Proposals near a bound -/

section Near

variable (hfound : search v.toEnvelope tmp = some bound)
include hfound

/-- What the search finds can be drawn. -/
theorem canGive_bound (h : v.proposeInPlace bound = (.accepted, w)) :
    CanGive (v.sampleNear search extreme change fits tmp) (.accepted, w) := by
  cases hextreme : extreme bound with
  | true =>
      have hrun : v.sampleNear search extreme change fits tmp = fun d => ((.accepted, w), d) := by
        funext d
        simp only [sampleNear, hfound, hextreme, if_true, h]
      exact hrun ▸ .pure _
  | false =>
      refine (CanGive.coin true).andThen (.pure (Outcome.accepted, w)) fun d d' hcoin => ?_
      simp only [sampleNear, hfound, hextreme, hcoin, Bool.false_eq_true, if_false, if_true, h]

/-- What the change of it can give can be drawn, if it fits and is admitted. -/
theorem canGive_changed (hextreme : extreme bound = false) (hchange : CanGive (change bound) x)
    (hfits : fits x = true) (hadmits : v.admits x = true) :
    CanGive (v.sampleNear search extreme change fits tmp) (.accepted, v.load x) := by
  have htaken : v.proposeOrSearch search fits x = (.accepted, v.load x) := by
    rw [proposeOrSearch_eq, hfits, hadmits]
    rfl
  let tails := fun d =>
    (v.proposeOrSearch search fits (change bound d).1, (change bound d).2)
  have htails : CanGive tails (.accepted, v.load x) := by
    refine hchange.andThen (.pure (Outcome.accepted, v.load x)) fun d d' hchanged => ?_
    change (v.proposeOrSearch search fits (change bound d).1, (change bound d).2) = _
    rw [hchanged, htaken]
  refine (CanGive.coin false).andThen htails fun d d' hcoin => ?_
  simp only [sampleNear, hfound, hextreme, hcoin, Bool.false_eq_true, if_false, tails]

end Near

/-- A goal that holds leaves the value alone. -/
theorem canGive_relaxDown {lo : Packed} (hsign : v.signedPrefix = 0)
    (h : CanGive (v.scatterBelow bound) x) (hgoal : (lo.le x && v.inRange x) = true) :
    CanGive (v.relaxDown lo bound) x := by
  refine h.andThen (.pure x) fun d d' hscattered => ?_
  rw [relaxDown, hscattered]
  change (v.raiseInto lo x, d') = _
  rw [raiseInto, Envelope.raiseUntil, Envelope.sweepUp, Envelope.sweep_of_goal hgoal,
    Envelope.extendSign_of_signedPrefix_eq_zero hsign]

/-! ## The samplers -/

/-- Some draws make `sample` accept with the trial value `m`. -/
def CanDraw (sample : Draws → (Outcome × Valuation) × Draws) (m : Nat) : Prop :=
  ∃ w : Valuation, w.trial.toNat = m ∧ CanGive sample (.accepted, w)

theorem CanDraw.exists_run {sample : Draws → (Outcome × Valuation) × Draws} {m : Nat}
    (h : CanDraw sample m) :
    ∃ (ws : List Word) (w : Valuation), w.trial.toNat = m ∧ ∀ rest state,
      sample (Draws.start (ws ++ rest) state) = ((.accepted, w), ⟨rest, state, ws.length⟩) := by
  obtain ⟨w, hw, ws, hws⟩ := h
  refine ⟨ws, w, hw, fun rest state => ?_⟩
  rw [Draws.start, hws, Nat.zero_add]

namespace Sound

variable {width m : Nat} (hv : v.Sound width) (hm : v.Allows m)
include hv hm

/-- A value of the envelope can be drawn near a bound if the search finds it, or if the change of
what the search finds can give it and it fits. -/
theorem canDraw_sampleNear (hfound : search v.toEnvelope tmp = some bound)
    (hbound : bound.IsValue v.width) (hle : m ≤ bound.toNat)
    (hchange : m < bound.toNat →
      ∃ y, y.Spans v.width ∧ y.toNat = m ∧ CanGive (change bound) y ∧ fits y = true) :
    CanDraw (v.sampleNear search v.isZero change fits tmp) m := by
  have hload : ∀ y : Packed, y.Spans v.width → y.toNat = m →
      (v.load y).trial.toNat = m ∧ v.Allows y.toNat := by
    intro y hy hnat
    rw [hv.toNat_trial_load hy, hnat]
    exact ⟨Nat.mod_eq_of_lt hm.1, hm⟩
  rcases Nat.eq_or_lt_of_le hle with heq | hlt
  · obtain ⟨hnat, hallows⟩ := hload bound hbound.toSpans heq.symm
    exact ⟨v.load bound, hnat,
      canGive_bound hfound (hv.proposeInPlace_of_allows hbound.toSpans hallows)⟩
  · obtain ⟨y, hy, hvalue, hgive, hfits⟩ := hchange hlt
    obtain ⟨hnat, hallows⟩ := hload y hy hvalue
    have hwidth : 0 < v.width := by
      by_contra hzero
      have hone := hbound.toNat_lt
      rw [Nat.eq_zero_of_not_pos hzero] at hone
      omega
    have hpositive : v.isZero bound = false := by
      rw [← Bool.not_eq_true, Envelope.isZero_iff hbound hwidth]
      omega
    exact ⟨v.load y, hnat,
      canGive_changed hfound hpositive hgive hfits ((hv.regular.admits_iff hy).mpr hallows)⟩

variable (hcount : v.freeCount < 2 ^ 32) (hsign : v.signedPrefix = 0) (htmp : tmp.Spans v.width)
include hcount hsign htmp

/-- The search under a bound that `m` meets finds a value of the envelope that is `m` or from which
`m` is reached. -/
theorem exists_floor_reaching {src : Packed} (hsrc : src.Spans v.width) (hle : m ≤ src.toNat) :
    ∃ bound, v.floor? src tmp = some bound ∧ bound.IsValue v.width ∧ m ≤ bound.toNat ∧
      (m < bound.toNat →
        ∃ y, y.Spans v.width ∧ y.toNat = m ∧ CanGive (v.scatterBelow bound) y) := by
  have hfinds := hv.regular.finds_floor_of_spans hsrc htmp
  obtain ⟨bound, hfound, ⟨hallows, -⟩, hgreatest⟩ := hfinds.exists_eq_some ⟨hm, hle⟩
  have hbound : bound.IsValue v.width :=
    ⟨htmp.of_shape (Envelope.shape_of_floor? hfound), hallows.1⟩
  obtain ⟨hcompletes, -⟩ := Envelope.allows_iff.mp hallows
  obtain ⟨hm', -⟩ := Envelope.allows_iff.mp hm
  have hfew := Nat.lt_of_le_of_lt (v.length_freeOnes_le bound) hcount
  exact ⟨bound, hfound, hbound, hgreatest ⟨hm, hle⟩,
    Envelope.canGive_scatterBelow hbound hcompletes hm' hfew hsign⟩

theorem canDraw_sampleAtMost {src : Packed} (hsrc : src.Spans v.width) (hle : m ≤ src.toNat) :
    CanDraw (v.sampleAtMost src tmp) m := by
  obtain ⟨bound, hfound, hbound, hmax, hreach⟩ :=
    hv.exists_floor_reaching hm hcount hsign htmp hsrc hle
  refine hv.canDraw_sampleNear hm hfound hbound hmax fun hlt => ?_
  obtain ⟨y, hy, hnat, hgive⟩ := hreach hlt
  exact ⟨y, hy, hnat, hgive, (hy.le_iff hsrc).mpr (hnat ▸ hle)⟩

/-- On tails the sampler between two bounds starts from the greatest value under the upper one. -/
theorem canDraw_sampleBetween {lo hi : Packed} (hlo : lo.Spans v.width) (hhi : hi.Spans v.width)
    (hge : lo.toNat ≤ m) (hle : m ≤ hi.toNat) : CanDraw (v.sampleBetween lo hi tmp) m := by
  obtain ⟨bound, hfound, hbound, hmax, hreach⟩ :=
    hv.exists_floor_reaching hm hcount hsign htmp hhi hle
  have hinside : bound.lt lo = false := by
    rw [← Bool.not_eq_true, hbound.toSpans.lt_iff hlo]
    omega
  have hfoundDown : v.floorDownTo? lo hi tmp = some bound := by
    rw [Envelope.floorDownTo?, hfound, Option.filter_some, hinside]
    rfl
  have hdown : CanDraw (v.sampleNear (·.floorDownTo? lo hi) v.isZero (v.relaxDown lo)
      (v.fitsBetween lo hi) tmp) m := by
    refine hv.canDraw_sampleNear hm hfoundDown hbound hmax fun hlt => ?_
    obtain ⟨y, hy, hnat, hgive⟩ := hreach hlt
    have hrange : v.inRange y = true :=
      (hv.regular.inRange_iff hy).mpr (hnat ▸ (Envelope.allows_iff.mp hm).2)
    have hlower : lo.le y = true := (hlo.le_iff hy).mpr (hnat ▸ hge)
    have hupper : y.le hi = true := (hy.le_iff hhi).mpr (hnat ▸ hle)
    refine ⟨y, hy, hnat, canGive_relaxDown hsign hgive ?_, ?_⟩
    · rw [hlower, hrange]
      rfl
    · rw [fitsBetween, hrange, hlower, hupper]
      rfl
  obtain ⟨w, hw, hgive⟩ := hdown
  refine ⟨w, hw, (CanGive.coin false).andThen hgive fun d d' hcoin => ?_⟩
  rw [sampleBetween, hcoin]
  rfl

end Sound

end Valuation

open BitEnvelope.Valuation

variable {width : Nat} {v : Valuation} {tmp : Packed}

/-- Without a sign prefix, every value of the envelope at or below a bound can be drawn under it,
and every one between two bounds can be drawn between them: some words, drawn to the end and no
further, make the sampler answer that it has accepted it as the trial value. There are to be fewer
than `2 ^ 32` free positions, which the samplers count in a word. -/
theorem Reachable.samplers_reach (h : Reachable width v) (hsign : v.signedPrefix = 0)
    (hcount : v.freeCount < 2 ^ 32) (htmp : tmp.Spans width) :
    (∀ (src : Packed) (m : Nat), src.Spans width → v.Allows m → m ≤ src.toNat →
      ∃ (ws : List Word) (w : Valuation), w.trial.toNat = m ∧ ∀ rest state,
        v.checkedSampleAtMost src tmp (Draws.start (ws ++ rest) state) =
          .ok ((.accepted, w), ⟨rest, state, ws.length⟩)) ∧
    ∀ (lo hi : Packed) (m : Nat), lo.Spans width → hi.Spans width → v.Allows m →
      lo.toNat ≤ m → m ≤ hi.toNat →
      ∃ (ws : List Word) (w : Valuation), w.trial.toNat = m ∧ ∀ rest state,
        v.checkedSampleBetween lo hi tmp (Draws.start (ws ++ rest) state) =
          .ok ((.accepted, w), ⟨rest, state, ws.length⟩) := by
  have hv := h.sound
  obtain rfl := hv.width_eq
  constructor
  · intro src m hsrc hm hle
    obtain ⟨ws, w, hw, hrun⟩ :=
      (hv.canDraw_sampleAtMost hm hcount hsign htmp hsrc hle).exists_run
    refine ⟨ws, w, hw, fun rest state => ?_⟩
    rw [(answers_checkedSampleAtMost _).eq_ok ⟨⟨hsrc, hcount⟩, htmp⟩, hrun]
  · intro lo hi m hlo hhi hm hge hle
    obtain ⟨ws, w, hw, hrun⟩ :=
      (hv.canDraw_sampleBetween hm hcount hsign htmp hlo hhi hge hle).exists_run
    refine ⟨ws, w, hw, fun rest state => ?_⟩
    rw [(answers_checkedSampleBetween _).eq_ok ⟨⟨⟨hlo, hhi⟩, hcount⟩, htmp⟩, hrun]

/-- Under one hundred, three can be drawn, which lies below the gap; from one to two hundred,
seventy-seven. -/
theorem Reachable.samplers_reach_oddOutsideGap :
    let v := oddOutsideGap
    let tmp := Packed.ofNat 8 255
    Reachable 8 v ∧ v.signedPrefix = 0 ∧ v.freeCount = 7 ∧ tmp.Spans 8 ∧
      (∃ (ws : List Word) (w : Valuation), w.trial.toNat = 3 ∧ ∀ rest state,
        v.checkedSampleAtMost (Packed.ofNat 8 100) tmp (Draws.start (ws ++ rest) state) =
          .ok ((.accepted, w), ⟨rest, state, ws.length⟩)) ∧
      ∃ (ws : List Word) (w : Valuation), w.trial.toNat = 77 ∧ ∀ rest state,
        v.checkedSampleBetween (Packed.ofNat 8 1) (Packed.ofNat 8 200) tmp
          (Draws.start (ws ++ rest) state) =
          .ok ((.accepted, w), ⟨rest, state, ws.length⟩) := by
  intro v tmp
  have hspans : ∀ n, (Packed.ofNat 8 n).Spans 8 := fun n =>
    ⟨rfl, by rw [Packed.ofNat, Packed.length_write, Packed.length_blank]; decide⟩
  have hsign : v.signedPrefix = 0 := by decide
  have hseven : v.freeCount = 7 := by decide
  have hcount : v.freeCount < 2 ^ 32 := by
    rw [hseven]
    decide
  obtain ⟨hatMost, hbetween⟩ :=
    reachable_oddOutsideGap.samplers_reach hsign hcount (hspans 255)
  exact ⟨reachable_oddOutsideGap, hsign, hseven, hspans 255,
    hatMost (Packed.ofNat 8 100) 3 (hspans 100) (by decide) (by decide),
    hbetween (Packed.ofNat 8 1) (Packed.ofNat 8 200) 77 (hspans 1) (hspans 200) (by decide)
      (by decide) (by decide)⟩

end BitEnvelope
