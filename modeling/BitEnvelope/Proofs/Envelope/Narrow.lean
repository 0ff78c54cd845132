import BitEnvelope.Envelope.Narrow
import BitEnvelope.Proofs.Envelope.Completion
import Mathlib.Data.Int.ModEq

/-!
# Narrowing

Tightening moves the committed value and the start of the interval, but neither adds nor takes
away a value of the envelope: `SameValues` says what stays. A restriction first moves the bounds of
the interval and then tightens, so the values that it keeps are decided by the bounds alone.
-/

namespace BitEnvelope

namespace Envelope

variable {e : Envelope} {x : Packed}

/-! ## Writing numbers -/

@[simp] theorem shape_setZero (e : Envelope) (x : Packed) : (e.setZero x).shape = x.shape :=
  Packed.shape_write x _

@[simp] theorem shape_setNat (e : Envelope) (x : Packed) (m : Nat) :
    (e.setNat x m).shape = x.shape :=
  Packed.shape_write x _

theorem toNat_setZero (hx : x.Spans e.width) : (e.setZero x).toNat = 0 := by
  rw [setZero, hx.toNat_write (by simp [wordCount]), Words.toNat_replicate_zero]

/-- A number that is written over the words that carry a value is read back modulo `2 ^ width`. -/
theorem natOfFirst_setNat (hx : e.wordCount ≤ x.words.length) (m : Nat) :
    (e.setNat x m).natOfFirst e.wordCount = m % 2 ^ e.width := by
  have hlength := Words.length_ofNat e.wordCount (m % 2 ^ e.width)
  have hpow : 2 ^ e.width ≤ 2 ^ (32 * e.wordCount) := by
    apply Nat.pow_le_pow_right (by decide)
    simp only [wordCount, Word.count]
    omega
  rw [setNat, Packed.natOfFirst_write hlength.ge (by rwa [hlength]),
    List.take_of_length_le hlength.le, Words.toNat_ofNat]
  exact Nat.mod_eq_of_lt (Nat.lt_of_lt_of_le (Nat.mod_lt m (Nat.two_pow_pos e.width)) hpow)

theorem toNat_setNat (hx : x.Spans e.width) (m : Nat) :
    (e.setNat x m).toNat = m % 2 ^ e.width := by
  rw [(hx.of_shape (shape_setNat e x m)).toNat_eq]
  exact natOfFirst_setNat hx.count_le m

theorem isValue_setNat (hx : x.Spans e.width) (m : Nat) : (e.setNat x m).IsValue e.width :=
  ⟨hx.of_shape (shape_setNat e x m), by
    rw [toNat_setNat hx]
    exact Nat.mod_lt m (Nat.two_pow_pos e.width)⟩

/-- With its pins applied, any value is a completion. -/
theorem Regular.completes_applyPins (he : e.Regular) (hx : x.Spans e.width) :
    e.Completes (e.applyPins x).toNat := by
  have hy := hx.of_shape (shape_applyPins e x)
  rw [← he.agrees_iff hy, agrees_iff_bit]
  intro i hi hpin
  rw [bit_applyPins hx hi, hpin]
  rfl

/-! ## The start of the interval -/

theorem shape_raisedLo (e : Envelope) : e.raisedLo.shape = e.lo.shape := by
  rw [raisedLo]
  cases h : e.ceilCompletion? e.lo with
  | none => exact shape_setZero e e.lo
  | some y => exact shape_of_ceilCompletion? h

/-- Raising the start of an interval that is not empty leaves the same completions in it, and the
start does not meet the end: a value of the envelope stands between them. -/
theorem Regular.inArc_raisedLo (he : e.Regular) (hne : e.lo.toNat ≠ e.hi.toNat) {m : Nat}
    (hm : e.Allows m) :
    e.raisedLo.toNat < 2 ^ e.width ∧ e.raisedLo.toNat ≠ e.hi.toNat ∧
      ∀ n, e.Completes n →
        (InArc e.raisedLo.toNat e.hi.toNat n ↔ InArc e.lo.toNat e.hi.toNat n) := by
  obtain ⟨hmc, hmr⟩ := allows_iff.mp hm
  rw [raisedLo]
  cases h : e.ceilCompletion? e.lo with
  | none =>
      have below := fun n hn => he.lt_of_ceilCompletion?_eq_none he.lo h (k := n) hn
      have hmlo := below m hmc
      have hzero : ((none : Option Packed).getD (e.setZero e.lo)).toNat = 0 :=
        toNat_setZero he.lo.toSpans
      rw [InArc] at hmr
      rw [hzero]
      refine ⟨Nat.two_pow_pos _, by omega, fun n hn => ?_⟩
      have hnlo := below n hn
      simp only [InArc]
      omega
  | some y =>
      obtain ⟨⟨hyc, hlo⟩, least⟩ := he.isLeast_ceilCompletion he.lo h
      change y.toNat < _ ∧ y.toNat ≠ _ ∧ ∀ n, _ → (InArc y.toNat _ n ↔ _)
      have above : ∀ n, e.Completes n → e.lo.toNat ≤ n → y.toNat ≤ n :=
        fun n hn hle => least ⟨hn, hle⟩
      have hmy := above m hmc
      rw [InArc] at hmr
      refine ⟨hyc.1, by omega, fun n hn => ?_⟩
      have hny := above n hn
      simp only [InArc]
      omega

/-! ## Tightening -/

/-- The envelope `e'` has the values of `e`, and its committed value is one of them. The pins, the
end of the interval and the sign prefix are the same, and an interval stays an interval. -/
structure SameValues (e e' : Envelope) : Prop where
  width_eq : e'.width = e.width
  pins_eq : e'.pins = e.pins
  hi_eq : e'.hi = e.hi
  signedPrefix_eq : e'.signedPrefix = e.signedPrefix
  regular : e'.Regular
  allows_current : e'.Allows e'.current.toNat
  completes_iff : ∀ n, e'.Completes n ↔ e.Completes n
  allows_iff : ∀ n, e'.Allows n ↔ e.Allows n
  lo_ne_hi : e.lo.toNat ≠ e.hi.toNat → e'.lo.toNat ≠ e'.hi.toNat

namespace SameValues

variable {e' : Envelope} {i : Nat} (h : e.SameValues e')
include h

theorem isFree_eq : e'.isFree i = e.isFree i := by
  rw [isFree, isFree, h.pins_eq]

/-- The committed values of both envelopes are completions of the same pins. -/
theorem current_bit_eq (hi : i < e.width) (hpin : e.isFree i = false) :
    e'.current.bit i = e.current.bit i := by
  have hcurrent := (h.completes_iff _).mp (Envelope.allows_iff.mp h.allows_current).1
  have hbit := h.regular.current.testBit_of_lt (h.width_eq.symm ▸ hi)
  rw [← hbit]
  exact hcurrent.2 i hi hpin

end SameValues

/-- Moving the committed value to a completion changes no completion, since the pins keep their
values. -/
theorem completes_iff_of_current (hx : e.Completes x.toNat) (hvalue : x.IsValue e.width)
    {e' : Envelope} (hwidth : e'.width = e.width) (hpins : e'.pins = e.pins)
    (hcurrent : e'.current = x) (n : Nat) : e'.Completes n ↔ e.Completes n := by
  have hsame : ∀ i, i < e.width → e.isFree i = false → x.bit i = e.current.bit i := by
    intro i hi hpin
    rw [← hvalue.testBit_of_lt hi]
    exact hx.2 i hi hpin
  unfold Completes HasPins isFree
  rw [hwidth, hpins, hcurrent]
  refine and_congr_right fun _ => forall_congr' fun i => imp_congr_right fun hi =>
    imp_congr_right fun hpin => ?_
  rw [hsame i hi hpin]

/-- What tightening does to an interval. -/
theorem tighten_eq_ok_iff (hrange : e.hasRange = true) {e' : Envelope} :
    e.tighten = .ok e' ↔
      ∃ x, e.relocate? = some x ∧ e' = { e with current := x, lo := e.raisedLo } := by
  rw [tighten, if_pos hrange]
  cases e.relocate? with
  | none => simp
  | some x => simp [eq_comm]

theorem tighten_of_not_hasRange (hrange : e.hasRange = false) : e.tighten = .ok e := by
  rw [tighten, hrange]
  rfl

theorem lo_of_tighten {e' : Envelope} (h : e.tighten = .ok e') :
    e'.lo = if e.hasRange then e.raisedLo else e.lo := by
  cases hrange : e.hasRange with
  | true =>
      obtain ⟨x, -, rfl⟩ := (tighten_eq_ok_iff hrange).mp h
      rfl
  | false =>
      rw [tighten_of_not_hasRange hrange] at h
      cases h
      rfl

namespace Regular

variable (he : e.Regular)
include he

/-- Where the committed value is moved to is a value of the envelope. -/
theorem allows_of_relocate? (h : e.relocate? = some x) :
    x.shape = e.current.shape ∧ e.Allows x.toNat := by
  simp only [relocate?] at h
  split at h
  · rename_i hin
    cases h
    exact ⟨rfl, allows_iff.mpr ⟨he.completes_current, (he.inRange_iff he.current.toSpans).mp hin⟩⟩
  · have hcopy := isValue_copy he.current.toSpans he.lo
    rcases Option.or_eq_some_iff.mp h with hlo | ⟨-, hzero⟩
    · obtain ⟨hfound, hin⟩ := Option.filter_eq_some_iff.mp hlo
      have hshape : x.shape = e.current.shape :=
        (shape_of_ceilCompletion? hfound).trans (Packed.shape_copyFrom _ _ _)
      have hx := he.current.toSpans.of_shape hshape
      have hc := (he.isLeast_ceilCompletion hcopy hfound).1.1
      exact ⟨hshape, allows_iff.mpr ⟨hc, (he.inRange_iff hx).mp hin⟩⟩
    · obtain ⟨hfound, hin⟩ := Option.filter_eq_some_iff.mp hzero
      split at hfound
      · cases hfound
        have hshape : (e.applyPins (e.setZero e.current)).shape = e.current.shape := by simp
        have hx := he.current.toSpans.of_shape hshape
        have hz := he.current.toSpans.of_shape (shape_setZero e e.current)
        exact ⟨hshape,
          allows_iff.mpr ⟨he.completes_applyPins hz, (he.inRange_iff hx).mp hin⟩⟩
      · cases hfound

/-- The committed value may move to any value of the envelope. -/
theorem sameValues_of_current (hx : x.IsValue e.width) (h : e.Allows x.toNat) :
    SameValues e { e with current := x } := by
  have hcompletes : ∀ n, ({ e with current := x } : Envelope).Completes n ↔ e.Completes n :=
    completes_iff_of_current (allows_iff.mp h).1 hx rfl rfl rfl
  have hsame : ∀ n, ({ e with current := x } : Envelope).Allows n ↔ e.Allows n := by
    intro n
    rw [Envelope.allows_iff, Envelope.allows_iff, hcompletes]
  exact {
    width_eq := rfl
    pins_eq := rfl
    hi_eq := rfl
    signedPrefix_eq := rfl
    regular := ⟨hx, he.pins, he.lo, he.hi, he.overflow⟩
    allows_current := (hsame _).mpr h
    completes_iff := hcompletes
    allows_iff := hsame
    lo_ne_hi := id }

theorem sameValues_of_tighten {e' : Envelope} (h : e.tighten = .ok e') : SameValues e e' := by
  cases hrange : e.hasRange with
  | false =>
      have heq : e.lo.toNat = e.hi.toNat := by
        by_contra hne
        rw [he.hasRange_iff.mpr hne] at hrange
        cases hrange
      rw [tighten_of_not_hasRange hrange] at h
      cases h
      exact ⟨rfl, rfl, rfl, rfl, he,
        Envelope.allows_iff.mpr ⟨he.completes_current, inArc_of_eq heq⟩,
        fun _ => Iff.rfl, fun _ => Iff.rfl, fun hne => absurd heq hne⟩
  | true =>
      have hne := he.hasRange_iff.mp hrange
      obtain ⟨x, hx, rfl⟩ := (tighten_eq_ok_iff hrange).mp h
      obtain ⟨hshape, hallows⟩ := he.allows_of_relocate? hx
      have hvalue : x.IsValue e.width :=
        ⟨he.current.toSpans.of_shape hshape, (allows_iff.mp hallows).1.1⟩
      obtain ⟨hlt, hlohi, harc⟩ := he.inArc_raisedLo hne hallows
      have hcompletes : ∀ n, ({ e with current := x, lo := e.raisedLo } : Envelope).Completes n ↔
          e.Completes n :=
        completes_iff_of_current (allows_iff.mp hallows).1 hvalue rfl rfl rfl
      have hsame : ∀ n, ({ e with current := x, lo := e.raisedLo } : Envelope).Allows n ↔
          e.Allows n := by
        intro n
        rw [Envelope.allows_iff, Envelope.allows_iff, hcompletes]
        exact and_congr_right fun hn => harc n hn
      exact {
        width_eq := rfl
        pins_eq := rfl
        hi_eq := rfl
        signedPrefix_eq := rfl
        regular := ⟨hvalue, he.pins, ⟨he.lo.toSpans.of_shape (shape_raisedLo e), hlt⟩, he.hi,
          he.overflow⟩
        allows_current := (hsame _).mpr hallows
        completes_iff := hcompletes
        allows_iff := hsame
        lo_ne_hi := fun _ => hlohi }

end Regular

/-! ## Restricting -/

theorem residue_lt (e : Envelope) (n : Int) : e.residue n < 2 ^ e.width := by
  have hpos : (0 : Int) < 2 ^ e.width := Int.pow_pos (by decide)
  have hlt := Int.emod_lt_of_pos n hpos
  have hnonneg := Int.emod_nonneg n (Int.ne_of_gt hpos)
  exact (Int.toNat_lt hnonneg).mpr (by simpa using hlt)

theorem residue_natCast (e : Envelope) (n : Nat) : e.residue n = n % 2 ^ e.width := by
  have hpow : (2 : Int) ^ e.width = ((2 ^ e.width : Nat) : Int) := by simp
  rw [residue, hpow, ← Int.natCast_emod, Int.toNat_natCast]

theorem residue_congr {e' : Envelope} (h : e'.width = e.width) (n : Int) :
    e'.residue n = e.residue n := by
  rw [residue, residue, h]

theorem residue_eq_iff (e : Envelope) {l h : Int} :
    e.residue l = e.residue h ↔ l ≡ h [ZMOD 2 ^ e.width] := by
  have hne : (2 : Int) ^ e.width ≠ 0 := Int.ne_of_gt (Int.pow_pos (by decide))
  have hl := Int.emod_nonneg l hne
  have hh := Int.emod_nonneg h hne
  rw [residue, residue, Int.ModEq]
  omega

section Bounds

variable {lo hi l h bound : Nat}

theorem narrowedBounds_lt (hlo : lo < bound) (hhi : hi < bound) (hl : l < bound)
    (hh : h < bound) :
    (narrowedBounds lo hi l h).1 < bound ∧ (narrowedBounds lo hi l h).2 < bound := by
  simp only [narrowedBounds]
  split
  · exact ⟨hl, hh⟩
  · split <;> split <;> split <;> exact ⟨by assumption, by assumption⟩

/-- Narrowed bounds never meet, which would lift the restriction. -/
theorem narrowedBounds_ne (hlh : l ≠ h) :
    (narrowedBounds lo hi l h).1 ≠ (narrowedBounds lo hi l h).2 := by
  simp only [narrowedBounds]
  split
  · exact hlh
  · split <;> split <;> split <;> omega

/-- The interval from `l` to `h` meets the one from `lo` to `hi` in two pieces: on the way up from
`lo` one passes `h`, then `l`, and then `hi`. -/
def Splits (lo hi l h : Nat) : Prop :=
  lo ≠ hi ∧ (InArc lo hi l ∧ l ≠ lo) ∧ InArc lo l h ∧ h ≠ lo

instance (lo hi l h : Nat) : Decidable (Splits lo hi l h) :=
  inferInstanceAs (Decidable (lo ≠ hi ∧ (InArc lo hi l ∧ l ≠ lo) ∧ InArc lo l h ∧ h ≠ lo))

/-- Of two intervals that share a number, one starts in the other. -/
theorem start_of_shared {n : Nat} (hn : InArc lo hi n) (hrequest : InArc l h n) :
    InArc lo hi l ∨ InArc l h lo := by
  simp only [InArc] at *
  omega

/-- Which numbers stay in the interval: all of them if neither interval starts in the other, and
otherwise the requested ones, without the first piece if the request splits the interval in two. -/
theorem inArc_narrowedBounds (hlh : l ≠ h) {n : Nat} :
    InArc (narrowedBounds lo hi l h).1 (narrowedBounds lo hi l h).2 n ↔
      InArc lo hi n ∧ (InArc lo hi l ∨ InArc l h lo →
        InArc l h n ∧ ¬ (Splits lo hi l h ∧ InArc lo h n)) := by
  simp only [narrowedBounds]
  simp only [Splits, InArc]
  split
  · omega
  · split <;> split <;> split <;> omega

theorem narrowedBounds_self (lo l h : Nat) : narrowedBounds lo lo l h = (l, h) := if_pos rfl

end Bounds

/-- The envelope with the bounds of its interval moved, before it is tightened. -/
def narrowed (e : Envelope) (l h : Int) : Envelope :=
  let bounds := narrowedBounds (e.lo.natOfFirst e.wordCount) (e.hi.natOfFirst e.wordCount)
    (e.residue l) (e.residue h)
  { e with lo := e.setNat e.lo bounds.1, hi := e.setNat e.hi bounds.2 }

/-- Where nothing is restricted yet, the requested bounds become the bounds. -/
theorem narrowed_of_lo_eq_hi (heq : e.lo = e.hi) (l h : Int) :
    e.narrowed l h =
      { e with lo := e.setNat e.lo (e.residue l), hi := e.setNat e.hi (e.residue h) } := by
  rw [narrowed, heq, narrowedBounds_self]

theorem restrict_eq (e : Envelope) (l h : Int) :
    e.restrict l h = if e.residue l = e.residue h then .ok e else (e.narrowed l h).tighten := rfl

namespace Regular

variable (he : e.Regular)
include he

theorem toNat_narrowed (l h : Int) :
    (e.narrowed l h).lo.toNat =
        (narrowedBounds e.lo.toNat e.hi.toNat (e.residue l) (e.residue h)).1 ∧
      (e.narrowed l h).hi.toNat =
        (narrowedBounds e.lo.toNat e.hi.toNat (e.residue l) (e.residue h)).2 := by
  have hbound := narrowedBounds_lt he.lo.toNat_lt he.hi.toNat_lt (e.residue_lt l) (e.residue_lt h)
  have hlo : e.lo.natOfFirst e.wordCount = e.lo.toNat := he.lo.toSpans.toNat_eq.symm
  have hhi : e.hi.natOfFirst e.wordCount = e.hi.toNat := he.hi.toSpans.toNat_eq.symm
  simp only [narrowed]
  rw [toNat_setNat he.lo.toSpans, toNat_setNat he.hi.toSpans, hlo, hhi]
  exact ⟨Nat.mod_eq_of_lt hbound.1, Nat.mod_eq_of_lt hbound.2⟩

theorem narrowed_regular (l h : Int) : (e.narrowed l h).Regular :=
  ⟨he.current, he.pins, isValue_setNat he.lo.toSpans _, isValue_setNat he.hi.toSpans _,
    he.overflow⟩

theorem allows_narrowed {l h : Int} (hlh : e.residue l ≠ e.residue h) {n : Nat} :
    (e.narrowed l h).Allows n ↔ e.Allows n ∧
      (InArc e.lo.toNat e.hi.toNat (e.residue l) ∨ InArc (e.residue l) (e.residue h) e.lo.toNat →
        InArc (e.residue l) (e.residue h) n ∧
          ¬ (Splits e.lo.toNat e.hi.toNat (e.residue l) (e.residue h) ∧
            InArc e.lo.toNat (e.residue h) n)) := by
  obtain ⟨hlo, hhi⟩ := he.toNat_narrowed l h
  have hcompletes : (e.narrowed l h).Completes n ↔ e.Completes n := Iff.rfl
  rw [Envelope.allows_iff, Envelope.allows_iff, hlo, hhi, hcompletes, inArc_narrowedBounds hlh,
    and_assoc]

/-- Narrowing keeps the requested values, without those in the first piece of an interval that the
request splits in two. -/
theorem allows_narrowed_iff {l h : Int} (hlh : e.residue l ≠ e.residue h) {n : Nat}
    (hn : InArc (e.residue l) (e.residue h) n) :
    (e.narrowed l h).Allows n ↔ e.Allows n ∧
      ¬ (Splits e.lo.toNat e.hi.toNat (e.residue l) (e.residue h) ∧
        InArc e.lo.toNat (e.residue h) n) := by
  rw [he.allows_narrowed hlh]
  refine and_congr_right fun hallows => ⟨fun hkept => ?_, fun hkept _ => ⟨hn, hkept⟩⟩
  exact (hkept (start_of_shared (Envelope.allows_iff.mp hallows).2 hn)).2

end Regular

end Envelope

end BitEnvelope
