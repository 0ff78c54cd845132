import BitEnvelope.Proofs.Envelope.PinsKept
import BitEnvelope.Proofs.Valuation.Sampling
import BitEnvelope.Proofs.Valuation.Stored

/-!
# Perturbations of a valuation

In every valuation that mutations lead to, no perturbation breaks a pin, whatever the draws, the
goal of a sweep and the sign prefix. Without a sign prefix, which would be made equal last, a
random change also has a direction: `scatterBelow` leads down as soon as there is a free set bit,
and `scatterAbove` never leads down.
-/

namespace BitEnvelope

open BitEnvelope.Valuation

variable {width : Nat} {v : Valuation} {dst : Packed}

/-- A value that has every pin and no stray bit still does after a sweep, after a random change and
after its sign prefix has been made equal; a random completion does, whatever the destination held.
A range of bits is filled unless a position of it is pinned to the other value, and then all of this
is kept too. -/
theorem Reachable.perturbations_keep_pins (h : Reachable width v)
    (hdst : v.wordCount ≤ dst.words.length) :
    (∀ x, v.KeepsPins x ↔ v.agrees x = true ∧ v.hasOverflow x = false) ∧
    (v.KeepsPins dst →
      (∀ goal, v.KeepsPins (v.raiseUntil goal dst) ∧ v.KeepsPins (v.lowerUntil goal dst)) ∧
      (∀ d, v.KeepsPins (v.scatterAbove dst d).1 ∧ v.KeepsPins (v.scatterBelow dst d).1) ∧
      v.KeepsPins (v.extendSign dst)) ∧
    (∀ d, v.KeepsPins (v.variant dst d).1) ∧
    ∀ lo hi b, hi ≤ v.pins.capacity → hi ≤ dst.capacity →
      v.checkedFill? dst lo hi b = .ok (v.fill? dst lo hi b) ∧
      (v.fill? dst lo hi b = none ↔
        ∃ i, (lo ≤ i ∧ i < hi) ∧ v.isFree i = false ∧ v.current.bit i ≠ b) ∧
      ∀ y, v.fill? dst lo hi b = some y → v.KeepsPins dst → v.KeepsPins y := by
  have hregular := h.sound.regular
  have hclear := h.stored.clear
  refine ⟨fun x => hclear.keepsPins_iff, fun hkeeps => ?_,
    fun d => hregular.keepsPins_variant hclear hdst d, fun lo hi b hpins hhi => ?_⟩
  · have hleaves : ∀ {y}, v.LeavesPins dst y → v.KeepsPins y :=
      hregular.keepsPins_of_leavesPins hkeeps
    exact ⟨fun goal => ⟨hleaves (.raiseUntil goal dst), hleaves (.lowerUntil goal dst)⟩,
      fun d => ⟨hleaves (.scatterAbove dst d), hleaves (.scatterBelow dst d)⟩,
      hleaves (.extendSign dst)⟩
  · refine ⟨Envelope.checkedFill?_eq b hpins hhi, Envelope.fill?_eq_none_iff, fun y hy hkeeps => ?_⟩
    rw [Envelope.eq_fill_of_fill?_eq_some hy]
    refine hregular.keepsPins_fill hkeeps hhi fun i hlo hlt hpin => ?_
    by_contra hne
    rw [Envelope.fill?_eq_none_iff.mpr ⟨i, ⟨hlo, hlt⟩, hpin, hne⟩] at hy
    cases hy

/-- Five has the only pin, which is bit zero. What is drawn sets five bits more, and the sign
prefix the last of them. A range with bit zero is not cleared, and one that goes on beyond the
width is. -/
theorem Reachable.perturbations_keep_pins_signed :
    let v := signedOddOutsideGap
    let dst := Packed.ofNat 8 5
    (Reachable 8 v ∧ v.wordCount ≤ dst.words.length ∧ v.KeepsPins dst) ∧
      v.KeepsPins (v.raiseUntil (·.le (Packed.ofNat 8 200)) dst) ∧
      v.KeepsPins (v.scatterAbove dst (Draws.start [162] 0)).1 ∧
      (v.scatterAbove dst (Draws.start [162] 0)).1.toNat = 231 ∧
      v.KeepsPins (v.variant dst (Draws.start [162] 0)).1 ∧
      v.fill? dst 0 8 false = none ∧ v.fill? dst 1 32 false = some (Packed.ofNat 8 1) ∧
      v.KeepsPins (Packed.ofNat 8 1) := by
  intro v dst
  have hdst : v.wordCount ≤ dst.words.length := by decide
  obtain ⟨hiff, hkept, hvariant, hfill⟩ :=
    reachable_signedOddOutsideGap.perturbations_keep_pins hdst
  have hkeeps : v.KeepsPins dst := (hiff dst).mpr ⟨by decide, by decide⟩
  obtain ⟨hsweeps, hscattered, -⟩ := hkept hkeeps
  obtain ⟨-, hrefused, -⟩ := hfill 0 8 false (by decide) (by decide)
  obtain ⟨-, -, hfilled⟩ := hfill 1 32 false (by decide) (by decide)
  have hone : v.fill? dst 1 32 false = some (Packed.ofNat 8 1) := by decide
  exact ⟨⟨reachable_signedOddOutsideGap, hdst, hkeeps⟩, (hsweeps _).1, (hscattered _).1, by decide,
    hvariant _, hrefused.mpr ⟨0, by decide, by decide, by decide⟩, hone, hfilled _ hone hkeeps⟩

/-- Without a sign prefix, `scatterBelow` changes nothing and draws nothing if no set bit is free,
and else it clears a free set bit, changes nothing above it, and so leads strictly down. It counts
the free set bits in a word, so from `2 ^ 32` of them on it fails, and changes nothing. What
`scatterAbove` returns has every bit that was set, and has the width still. -/
theorem Reachable.scatter_directions (h : Reachable width v) (hsign : v.signedPrefix = 0)
    (hdst : dst.IsValue width) (d : Draws) :
    ((∀ p < width, v.isFree p = true → dst.bit p = false) →
      v.checkedScatterBelow dst d = .ok (dst, d)) ∧
    ((∃ p < width, v.isFree p = true ∧ dst.bit p = true) → (v.freeOnes dst).length < 2 ^ 32 →
      ∃ y d', v.checkedScatterBelow dst d = .ok (y, d') ∧
        ∃ p < width, (v.isFree p = true ∧ dst.bit p = true) ∧ y.bit p = false ∧
          (∀ i, p < i → y.bit i = dst.bit i) ∧ y.toNat < dst.toNat) ∧
    (2 ^ 32 ≤ (v.freeOnes dst).length → v.checkedScatterBelow dst d = .error .emptyChoice) ∧
    (∀ i, dst.bit i = true → (v.scatterAbove dst d).1.bit i = true) ∧
    dst.toNat ≤ (v.scatterAbove dst d).1.toNat ∧ (v.scatterAbove dst d).1.toNat < 2 ^ width := by
  have hv := h.sound
  obtain rfl := hv.width_eq
  have habove : (v.scatterAbove dst d).1.IsValue v.width :=
    hv.regular.isValue_of_leavesPins hdst (hdst.toSpans.of_shape (v.shape_scatterAbove dst d))
      (.scatterAbove dst d)
  have hset : ∀ i, dst.bit i = true → (v.scatterAbove dst d).1.bit i = true :=
    fun i hi => Envelope.bit_scatterAbove_of_bit hsign hi d
  refine ⟨fun hnone => ?_, fun ⟨p, hp, hfree, hbit⟩ hcount => ?_,
    fun hover => Envelope.checkedScatterBelow_eq_error hdst.toSpans hover d, hset, ?_,
    habove.toNat_lt⟩
  · have hempty : v.freeOnes dst = [] := by
      rw [List.eq_nil_iff_forall_not_mem]
      intro p hmem
      obtain ⟨hp, hbit, hfree⟩ := Envelope.mem_freeOnes.mp hmem
      rw [hnone p hp hfree] at hbit
      cases hbit
    have hcount : (v.freeOnes dst).length < 2 ^ 32 := by
      rw [hempty]
      exact Nat.two_pow_pos 32
    rw [(Envelope.answers_checkedScatterBelow d).eq_ok ⟨hdst.toSpans, hcount⟩,
      Envelope.scatterBelow_of_freeOnes_eq_nil hempty]
  · have hsome : v.freeOnes dst ≠ [] :=
      List.ne_nil_of_mem (Envelope.mem_freeOnes.mpr ⟨hp, hbit, hfree⟩)
    obtain ⟨q, hq, hdown⟩ := Envelope.exists_scatterBelow_lt hsign hdst.toSpans hsome d
    obtain ⟨hqlt, hqbit, hqfree⟩ := Envelope.mem_freeOnes.mp hq
    exact ⟨_, _, (Envelope.answers_checkedScatterBelow d).eq_ok ⟨hdst.toSpans, hcount⟩, q, hqlt,
      ⟨hqfree, hqbit⟩, hdown⟩
  · apply Nat.le_of_testBit
    intro i hi
    rw [hdst.testBit_toNat, Bool.and_eq_true] at hi
    rw [habove.testBit_toNat, hi.1, hset i hi.2]
    rfl

/-- Thirteen has two free set bits, and here bit three is cleared. One has none. -/
theorem Reachable.scatter_directions_oddOutsideGap :
    let v := oddOutsideGap
    let thirteen := Packed.ofNat 8 13
    let one := Packed.ofNat 8 1
    (Reachable 8 v ∧ v.signedPrefix = 0 ∧ thirteen.IsValue 8 ∧ one.IsValue 8) ∧
      (v.freeOnes thirteen = [2, 3] ∧
        ∃ y d', v.checkedScatterBelow thirteen (Draws.start [0, 0, 1] 0) = .ok (y, d') ∧
          (∃ p < 8, y.bit p = false ∧ ∀ i, p < i → y.bit i = thirteen.bit i) ∧
          y.toNat < thirteen.toNat) ∧
      (v.scatterBelow thirteen (Draws.start [0, 0, 1] 0)).1.toNat = 5 ∧
      v.checkedScatterBelow one (Draws.start [7] 0) = .ok (one, Draws.start [7] 0) ∧
      thirteen.toNat ≤ (v.scatterAbove thirteen (Draws.start [162] 0)).1.toNat ∧
      (v.scatterAbove thirteen (Draws.start [162] 0)).1.toNat = 175 := by
  intro v thirteen one
  have hsign : v.signedPrefix = 0 := by decide
  have hthirteen : thirteen.IsValue 8 := ⟨⟨rfl, by decide⟩, by decide⟩
  have hone : one.IsValue 8 := ⟨⟨rfl, by decide⟩, by decide⟩
  have htwo : v.freeOnes thirteen = [2, 3] := by decide
  have hcount : (v.freeOnes thirteen).length < 2 ^ 32 := by
    rw [htwo]
    decide
  obtain ⟨-, hbelow, -⟩ :=
    reachable_oddOutsideGap.scatter_directions hsign hthirteen (Draws.start [0, 0, 1] 0)
  obtain ⟨hstays, -⟩ := reachable_oddOutsideGap.scatter_directions hsign hone (Draws.start [7] 0)
  obtain ⟨-, -, -, -, habove, -⟩ :=
    reachable_oddOutsideGap.scatter_directions hsign hthirteen (Draws.start [162] 0)
  obtain ⟨y, d', hy, p, hp, -, hcleared, hkept, hlt⟩ :=
    hbelow ⟨2, by decide, by decide, by decide⟩ hcount
  exact ⟨⟨reachable_oddOutsideGap, hsign, hthirteen, hone⟩,
    ⟨htwo, y, d', hy, ⟨p, hp, hcleared, hkept⟩, hlt⟩, by decide, hstays (by decide), habove,
    by decide⟩

end BitEnvelope
