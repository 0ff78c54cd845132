import BitEnvelope.Proofs.Valuation.Checked
import BitEnvelope.Proofs.Valuation.Sound

/-!
# What the samplers draw

A sampler answers by the values of the envelope alone: it accepts if and only if one of them meets
the bounds, whatever the draws are. The value nearest to a bound decides this, and it is at hand
when a random change of it fails. So the draws only choose which of the values becomes the trial
value.
-/

namespace BitEnvelope

namespace Valuation

/-! ## Proposals -/

namespace Sound

variable {width : Nat} {v w : Valuation} {x : Packed} (hv : v.Sound width)
include hv

/-- What is loaded becomes the trial value, without its stray bits. -/
theorem toNat_trial_load (hx : x.Spans v.width) :
    (v.load x).trial.toNat = x.toNat % 2 ^ v.width := by
  have hcopy : (v.trial.copyFrom v.wordCount x).Spans v.width :=
    hv.trial.of_shape (Packed.shape_copyFrom v.trial _ x)
  change (v.dropOverflow (v.trial.copyFrom v.wordCount x)).toNat = x.toNat % 2 ^ v.width
  rw [Envelope.toNat_dropOverflow hcopy, Envelope.toNat_copy hv.trial hx]

theorem proposeInPlace_of_allows (hx : x.Spans v.width) (hallows : v.Allows x.toNat) :
    v.proposeInPlace x = (.accepted, v.load x) :=
  if_pos ((hv.regular.admits_iff hx).mpr hallows)

end Sound

/-! ## Draws from a set -/

/-- What a sampler of `v` that draws from `s` answers: it accepts, and its trial value is a number
of `s`, or it refuses, and the trial value stays. It accepts if and only if `s` has a number, and
changes nothing but the trial value. -/
structure DrawsFrom (v : Valuation) (s : Set Nat) (r : Outcome × Valuation) : Prop where
  answers : r.1 = .accepted ∨ r.1 = .refused
  accepted_iff : r.1 = .accepted ↔ ∃ n, n ∈ s
  trial_mem : r.1 = .accepted → r.2.trial.toNat ∈ s
  trial_eq : r.1 = .refused → r.2.trial = v.trial
  envelope_eq : r.2.toEnvelope = v.toEnvelope

theorem drawsFrom_refused {v : Valuation} {s : Set Nat} (h : s = ∅) :
    v.DrawsFrom s (.refused, v) where
  answers := .inr rfl
  accepted_iff := iff_of_false nofun fun ⟨_, hn⟩ => h.subset hn
  trial_mem := nofun
  trial_eq := fun _ => rfl
  envelope_eq := rfl

/-- Two draws from one set are answered alike. -/
theorem DrawsFrom.answer_eq {v : Valuation} {s : Set Nat} {r r' : Outcome × Valuation}
    (h : v.DrawsFrom s r) (h' : v.DrawsFrom s r') : r.1 = r'.1 := by
  have hiff := h.accepted_iff.trans h'.accepted_iff.symm
  rcases h.answers with haccepted | hrefused
  · rw [haccepted, hiff.mp haccepted]
  · rcases h'.answers with haccepted' | hrefused'
    · rw [hiff.mpr haccepted', haccepted']
    · rw [hrefused, hrefused']

namespace Sound

variable {width : Nat} {v : Valuation} {s : Set Nat} {x tmp : Packed} (hv : v.Sound width)
include hv

theorem drawsFrom_load (hx : x.Spans v.width) (hallows : v.Allows x.toNat) (hs : x.toNat ∈ s) :
    v.DrawsFrom s (.accepted, v.load x) where
  answers := .inl rfl
  accepted_iff := iff_of_true rfl ⟨_, hs⟩
  trial_mem := fun _ => by
    rw [hv.toNat_trial_load hx, Nat.mod_eq_of_lt hallows.1]
    exact hs
  trial_eq := nofun
  envelope_eq := rfl

theorem drawsFrom_proposeInPlace (hx : x.Spans v.width) (hallows : v.Allows x.toNat)
    (hs : x.toNat ∈ s) : v.DrawsFrom s (v.proposeInPlace x) := by
  rw [hv.proposeInPlace_of_allows hx hallows]
  exact hv.drawsFrom_load hx hallows hs

/-- A sampler draws from `s` if its search finds the best number of `s` over any scratch value:
what a change has left there does not matter, and a change that does not lead to a number of `s` is
given up. -/
theorem drawsFrom_sampleNear {best : Set Nat → Nat → Prop}
    {search : Envelope → Packed → Option Packed} {extreme : Packed → Bool}
    {change : Packed → Draws → Packed × Draws} {fits : Packed → Bool}
    (hsub : ∀ n, n ∈ s → v.Allows n) (hbest : ∀ n, best s n → n ∈ s)
    (hfinds : ∀ x, x.Spans v.width → Finds best s (search v.toEnvelope x))
    (hsearch : ∀ x y, search v.toEnvelope x = some y → y.shape = x.shape)
    (hchange : ∀ x d, (change x d).1.shape = x.shape)
    (hfits : ∀ x : Packed, x.Spans v.width → fits x = true → v.Allows x.toNat → x.toNat ∈ s)
    (htmp : tmp.Spans v.width) (d : Draws) :
    v.DrawsFrom s (v.sampleNear search extreme change fits tmp d).1 := by
  refine sampleNear_induction Packed.ofShape_spans htmp hsearch hchange
    (fun x hx hnone => ?_) (fun x y hx hy => ?_) (fun x hx hfit hadmits => ?_) d
  · have hfound := hfinds x hx
    rw [hnone] at hfound
    exact drawsFrom_refused hfound
  · have hfound := hfinds x hx
    rw [hy] at hfound
    have hmem := hbest _ hfound
    exact hv.drawsFrom_proposeInPlace (hx.of_shape (hsearch x y hy)) (hsub _ hmem) hmem
  · have hallows := (hv.regular.admits_iff hx).mp hadmits
    exact hv.drawsFrom_load hx hallows (hfits x hx hfit hallows)

/-! ## The samplers -/

variable {src lo hi : Packed} (htmp : tmp.Spans v.width)
include htmp

theorem drawsFrom_sampleAtMost (hsrc : src.IsValue v.width) (d : Draws) :
    v.DrawsFrom {n | v.Allows n ∧ n ≤ src.toNat} (v.sampleAtMost src tmp d).1 :=
  hv.drawsFrom_sampleNear (fun _ hn => hn.1) (fun _ hn => hn.1)
    (fun _ hx => hv.regular.finds_floor hsrc hx) (fun _ _ => Envelope.shape_of_floor?)
    v.shape_scatterBelow
    (fun _ hx hfit hallows => And.intro hallows ((hx.le_iff hsrc.toSpans).mp hfit)) htmp d

theorem drawsFrom_sampleAtLeast (hsrc : src.IsValue v.width) (d : Draws) :
    v.DrawsFrom {n | v.Allows n ∧ src.toNat ≤ n} (v.sampleAtLeast src tmp d).1 :=
  hv.drawsFrom_sampleNear (fun _ hn => hn.1) (fun _ hn => hn.1)
    (fun _ hx => hv.regular.finds_ceil hsrc hx) (fun _ _ => Envelope.shape_of_ceil?)
    v.shape_scatterAbove
    (fun _ hx hfit hallows => And.intro hallows ((hsrc.toSpans.le_iff hx).mp hfit)) htmp d

/-- Both ways of the coin draw from the values between the bounds: the least value above the lower
bound and the greatest one below the upper bound lie between both if any value does. -/
theorem drawsFrom_sampleBetween (hlo : lo.IsValue v.width) (hhi : hi.IsValue v.width) (d : Draws) :
    v.DrawsFrom {n | v.Allows n ∧ lo.toNat ≤ n ∧ n ≤ hi.toNat}
      (v.sampleBetween lo hi tmp d).1 := by
  have hfits : ∀ x : Packed, x.Spans v.width → v.fitsBetween lo hi x = true →
      v.Allows x.toNat → v.Allows x.toNat ∧ lo.toNat ≤ x.toNat ∧ x.toNat ≤ hi.toNat := by
    intro x hx hfit hallows
    simp only [fitsBetween, Bool.and_eq_true, hlo.toSpans.le_iff hx, hx.le_iff hhi.toSpans] at hfit
    exact ⟨hallows, hfit.1.2, hfit.2⟩
  simp only [sampleBetween]
  split
  · exact hv.drawsFrom_sampleNear (fun _ hn => hn.1) (fun _ hn => hn.1)
      (fun _ hx => hv.regular.finds_ceilUpTo hlo hhi.toSpans hx)
      (fun _ _ => Envelope.shape_of_ceilUpTo?) (v.shape_relaxUp hi) hfits htmp _
  · exact hv.drawsFrom_sampleNear (fun _ hn => hn.1) (fun _ hn => hn.1)
      (fun _ hx => hv.regular.finds_floorDownTo hlo.toSpans hhi.toSpans hx)
      (fun _ _ => Envelope.shape_of_floorDownTo?) (v.shape_relaxDown lo) hfits htmp _

end Sound

end Valuation

open BitEnvelope.Valuation

variable {width : Nat} {v : Valuation} {src lo hi tmp : Packed}

/-- Whatever the draws are and whatever the scratch value holds, the samplers under and above a
bound draw from the values of the envelope at or below it and at or above it. Both answer; the one
under a bound counts free set bits in a word on its way, so for it there are to be fewer than
`2 ^ 32` free positions. The search over what a change has left finds what the first search has
found. -/
theorem Reachable.bounded_samplers_draw (h : Reachable width v) (hsrc : src.IsValue width)
    (htmp : tmp.Spans width) :
    ((v.freeCount < 2 ^ 32 → ∀ d, ∃ r, v.checkedSampleAtMost src tmp d = .ok r) ∧
      ∀ d r, v.checkedSampleAtMost src tmp d = .ok r →
        v.DrawsFrom {n | v.Allows n ∧ n ≤ src.toNat} r.1) ∧
    ((∀ d, ∃ r, v.checkedSampleAtLeast src tmp d = .ok r) ∧
      ∀ d r, v.checkedSampleAtLeast src tmp d = .ok r →
        v.DrawsFrom {n | v.Allows n ∧ src.toNat ≤ n} r.1) ∧
    ∀ x : Packed, x.Spans width →
      (v.floor? src x).map Packed.toNat = (v.floor? src tmp).map Packed.toNat ∧
        (v.ceil? src x).map Packed.toNat = (v.ceil? src tmp).map Packed.toNat := by
  have hv := h.sound
  obtain rfl := hv.width_eq
  refine ⟨⟨fun hcount d => ?_, fun d r hr => ?_⟩, ⟨fun d => ?_, fun d r hr => ?_⟩,
    fun x hx => ⟨?_, ?_⟩⟩
  · exact ⟨_, (answers_checkedSampleAtMost d).eq_ok ⟨⟨hsrc.toSpans, hcount⟩, htmp⟩⟩
  · rw [(answers_checkedSampleAtMost d).unique r hr]
    exact hv.drawsFrom_sampleAtMost htmp hsrc d
  · exact ⟨_, (answers_checkedSampleAtLeast d).eq_ok ⟨hsrc.toSpans, htmp⟩⟩
  · rw [(answers_checkedSampleAtLeast d).unique r hr]
    exact hv.drawsFrom_sampleAtLeast htmp hsrc d
  · exact (hv.regular.finds_floor hsrc hx).map_toNat_eq (hv.regular.finds_floor hsrc htmp)
      (fun _ hn => hn.1) fun m n hm hn => hm.unique hn
  · exact (hv.regular.finds_ceil hsrc hx).map_toNat_eq (hv.regular.finds_ceil hsrc htmp)
      (fun _ hn => hn.1) fun m n hm hn => hm.unique hn

/-- The odd numbers outside the gap, with a sign prefix of three bits. -/
def Valuation.signedOddOutsideGap : Valuation :=
  ((Mutation.limitSign 3).run oddOutsideGap (Draws.start [] 0)).2.1

theorem reachable_signedOddOutsideGap : Reachable 8 signedOddOutsideGap :=
  .run reachable_oddOutsideGap (.limitSign 3) trivial (Draws.start [] 0)

/-- Below one hundred and forty-five, the draws clear bit four, and the sign prefix then takes the
value above the bound. So the bound, which is a value of the envelope, is drawn. The scratch value
holds ones at first, which makes no difference. -/
theorem Reachable.bounded_samplers_draw_signed :
    let v := signedOddOutsideGap
    let src := Packed.ofNat 8 145
    let tmp := Packed.ofNat 8 255
    Reachable 8 v ∧ src.IsValue 8 ∧ tmp.Spans 8 ∧ v.freeCount = 7 ∧
      ∃ below above, v.checkedSampleAtMost src tmp (Draws.start [1, 1, 1] 0) = .ok below ∧
        below.1.1 = .accepted ∧
        (below.1.2.trial.toNat = 145 ∧ below.1.2.toEnvelope = v.toEnvelope) ∧
        v.checkedSampleAtLeast src tmp (Draws.start [1, 1, 1] 0) = .ok above ∧
        above.1.1 = .accepted ∧ 145 ≤ above.1.2.trial.toNat ∧ v.Allows above.1.2.trial.toNat ∧
        (v.floor? src v.scratch).map Packed.toNat = (v.floor? src tmp).map Packed.toNat := by
  intro v src tmp
  have hsrc : src.IsValue 8 := ⟨⟨rfl, by decide⟩, by decide⟩
  have htmp : tmp.Spans 8 := ⟨rfl, by decide⟩
  have hnat : src.toNat = 145 := by decide
  have hvalue : v.Allows 145 := by decide
  have hseven : v.freeCount = 7 := by decide
  have hcount : v.freeCount < 2 ^ 32 := by
    rw [hseven]
    decide
  obtain ⟨⟨hatMost, hbelow⟩, ⟨hatLeast, habove⟩, hagain⟩ :=
    reachable_signedOddOutsideGap.bounded_samplers_draw hsrc htmp
  obtain ⟨below, hdown⟩ := hatMost hcount (Draws.start [1, 1, 1] 0)
  obtain ⟨above, hup⟩ := hatLeast (Draws.start [1, 1, 1] 0)
  have haccepted := (hbelow _ _ hdown).accepted_iff.mpr ⟨145, hvalue, by decide⟩
  have haccepted' := (habove _ _ hup).accepted_iff.mpr ⟨145, hvalue, by decide⟩
  obtain ⟨hallows, hge⟩ := (habove _ _ hup).trial_mem haccepted'
  have hdrawn : below.1.2.trial.toNat = 145 := by
    rw [(answers_checkedSampleAtMost _).unique below hdown]
    decide
  exact ⟨reachable_signedOddOutsideGap, hsrc, htmp, hseven, below, above, hdown, haccepted,
    ⟨hdrawn, (hbelow _ _ hdown).envelope_eq⟩, hup, haccepted', hnat ▸ hge, hallows,
    (hagain v.scratch ⟨rfl, by decide⟩).1⟩

/-- Whatever the draws are and whatever the scratch value holds, the sampler between two bounds
draws from the values of the envelope between them, and neither changes whether it accepts. It
answers if there are fewer than `2 ^ 32` free positions, and the search over what a change has left
finds what the first search has found. -/
theorem Reachable.sampleBetween_draws (h : Reachable width v) (hlo : lo.IsValue width)
    (hhi : hi.IsValue width) (htmp : tmp.Spans width) :
    (v.freeCount < 2 ^ 32 → ∀ d, ∃ r, v.checkedSampleBetween lo hi tmp d = .ok r) ∧
    (∀ d r, v.checkedSampleBetween lo hi tmp d = .ok r →
      v.DrawsFrom {n | v.Allows n ∧ lo.toNat ≤ n ∧ n ≤ hi.toNat} r.1 ∧
      ∀ (tmp' : Packed) (d' : Draws) (r' : (Outcome × Valuation) × Draws), tmp'.Spans width →
        v.checkedSampleBetween lo hi tmp' d' = .ok r' → r'.1.1 = r.1.1) ∧
    ∀ x : Packed, x.Spans width →
      (v.ceilUpTo? lo hi x).map Packed.toNat = (v.ceilUpTo? lo hi tmp).map Packed.toNat ∧
        (v.floorDownTo? lo hi x).map Packed.toNat =
          (v.floorDownTo? lo hi tmp).map Packed.toNat := by
  have hv := h.sound
  obtain rfl := hv.width_eq
  have hdraws : ∀ (tmp : Packed) (d : Draws) (r : (Outcome × Valuation) × Draws),
      tmp.Spans v.width → v.checkedSampleBetween lo hi tmp d = .ok r →
        v.DrawsFrom {n | v.Allows n ∧ lo.toNat ≤ n ∧ n ≤ hi.toNat} r.1 := by
    intro tmp d r htmp hr
    rw [(answers_checkedSampleBetween d).unique r hr]
    exact hv.drawsFrom_sampleBetween htmp hlo hhi d
  have hup : ∀ x : Packed, x.Spans v.width → Finds IsLeast _ (v.ceilUpTo? lo hi x) :=
    fun _ hx => hv.regular.finds_ceilUpTo hlo hhi.toSpans hx
  have hdown : ∀ x : Packed, x.Spans v.width → Finds IsGreatest _ (v.floorDownTo? lo hi x) :=
    fun _ hx => hv.regular.finds_floorDownTo hlo.toSpans hhi.toSpans hx
  refine ⟨fun hcount d => ?_,
    fun d r hr => ⟨hdraws tmp d r htmp hr, fun tmp' d' r' htmp' hr' => ?_⟩, fun x hx => ⟨?_, ?_⟩⟩
  · have hspans := And.intro hlo.toSpans hhi.toSpans
    exact ⟨_, (answers_checkedSampleBetween d).eq_ok ⟨⟨hspans, hcount⟩, htmp⟩⟩
  · exact (hdraws tmp' d' r' htmp' hr').answer_eq (hdraws tmp d r htmp hr)
  · exact (hup x hx).map_toNat_eq (hup tmp htmp) (fun _ hn => hn.1) fun m n hm hn => hm.unique hn
  · exact (hdown x hx).map_toNat_eq (hdown tmp htmp) (fun _ hn => hn.1)
      fun m n hm hn => hm.unique hn

/-- From sixty to two hundred there are values of the envelope, so every draw is accepted. -/
theorem Reachable.sampleBetween_draws_signed :
    let v := signedOddOutsideGap
    let lo := Packed.ofNat 8 60
    let hi := Packed.ofNat 8 200
    let tmp := Packed.ofNat 8 255
    Reachable 8 v ∧ lo.IsValue 8 ∧ hi.IsValue 8 ∧ tmp.Spans 8 ∧
      (∀ d, ∃ r, v.checkedSampleBetween lo hi tmp d = .ok r ∧ r.1.1 = .accepted ∧
        v.Allows r.1.2.trial.toNat ∧ 60 ≤ r.1.2.trial.toNat ∧ r.1.2.trial.toNat ≤ 200) ∧
      (v.floorDownTo? lo hi v.scratch).map Packed.toNat =
        (v.floorDownTo? lo hi tmp).map Packed.toNat := by
  intro v lo hi tmp
  have hlo : lo.IsValue 8 := ⟨⟨rfl, by decide⟩, by decide⟩
  have hhi : hi.IsValue 8 := ⟨⟨rfl, by decide⟩, by decide⟩
  have htmp : tmp.Spans 8 := ⟨rfl, by decide⟩
  have hsixty : lo.toNat = 60 := by decide
  have htwoHundred : hi.toNat = 200 := by decide
  have hcount : v.freeCount < 2 ^ 32 := by
    rw [show v.freeCount = 7 by decide]
    decide
  obtain ⟨hanswers, hdraws, hagain⟩ :=
    reachable_signedOddOutsideGap.sampleBetween_draws hlo hhi htmp
  refine ⟨reachable_signedOddOutsideGap, hlo, hhi, htmp, fun d => ?_,
    (hagain v.scratch ⟨rfl, by decide⟩).2⟩
  obtain ⟨r, hr⟩ := hanswers hcount d
  obtain ⟨hdrawn, -⟩ := hdraws d r hr
  have haccepted := hdrawn.accepted_iff.mpr ⟨61, by decide, by decide, by decide⟩
  obtain ⟨hallows, hge, hle⟩ := hdrawn.trial_mem haccepted
  exact ⟨r, hr, haccepted, hallows, hsixty ▸ hge, htwoHundred ▸ hle⟩

end BitEnvelope
