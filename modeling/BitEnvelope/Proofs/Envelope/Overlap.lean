import BitEnvelope.Proofs.Envelope.Narrow

/-!
# What a request shares with the interval

A request and the stored interval are arcs of the numbers modulo `2 ^ width`. They share no number,
one arc, or two arcs, which `Splits` describes. Narrowing leaves an interval alone that the request
does not meet, and otherwise keeps only requested numbers. So it is an intersection if what the two
share is one arc.
-/

namespace BitEnvelope

open Envelope

/-- The members of `s` below `bound` are one arc, which is not empty. -/
def IsArc (bound : Nat) (s : Set Nat) : Prop :=
  ∃ lo < bound, ∃ hi < bound, ∀ n < bound, n ∈ s ↔ InArc lo hi n

/-- The intervals from `lo` to `hi` and from `l` to `h` share a number below `bound`. -/
def Meets (bound lo hi l h : Nat) : Prop :=
  ∃ n < bound, InArc lo hi n ∧ InArc l h n

/-! ## Arcs -/

section Arc

variable {bound lo hi l h : Nat}

theorem inArc_start (lo hi : Nat) : InArc lo hi lo := by
  rw [InArc]
  omega

theorem not_inArc_end (h : lo ≠ hi) : ¬ InArc lo hi hi := by
  rw [InArc]
  omega

/-- Of two numbers in an arc, the way up from one to the other stays in the arc, or the way on from
there back to the first one does. -/
theorem InArc.between {x y z z' : Nat} (hx : InArc lo hi x) (hy : InArc lo hi y) (hxy : x ≠ y)
    (hz : InArc x y z) (hz' : InArc y x z') : InArc lo hi z ∨ InArc lo hi z' := by
  simp only [InArc] at *
  omega

/-- Arcs meet if and only if one of them starts in the other. -/
theorem meets_iff (hlo : lo < bound) (hl : l < bound) :
    Meets bound lo hi l h ↔ InArc lo hi l ∨ InArc l h lo := by
  constructor
  · rintro ⟨n, -, hn, hrequest⟩
    exact start_of_shared hn hrequest
  · rintro (hstart | hstart)
    · exact ⟨l, hl, hstart, inArc_start l h⟩
    · exact ⟨lo, hlo, inArc_start lo hi, hstart⟩

/-- What an unrestricted interval shares with a request is the request. -/
theorem isArc_inter_of_eq (heq : lo = hi) (hl : l < bound) (hh : h < bound) :
    IsArc bound {n | InArc lo hi n ∧ InArc l h n} :=
  ⟨l, hl, h, hh, fun _ _ => ⟨And.right, fun hn => ⟨inArc_of_eq heq, hn⟩⟩⟩

namespace IsArc

variable (harc : IsArc bound {n | InArc lo hi n ∧ InArc l h n})
include harc

theorem meets : Meets bound lo hi l h := by
  obtain ⟨a, ha, b, -, hs⟩ := harc
  exact ⟨a, ha, (hs a ha).mpr (inArc_start a b)⟩

/-- Between the two pieces of an interval that the request splits, one meets the end of the request
on the one way and the end of the interval on the other, and neither is a common number. -/
theorem not_splits (hlo : lo < bound) (hhi : hi < bound) (hl : l < bound) (hh : h < bound)
    (hlh : l ≠ h) : ¬ Splits lo hi l h := by
  rintro ⟨hne, ⟨hlin, hllo⟩, hhin, hhlo⟩
  obtain ⟨a, -, b, -, hs⟩ := harc
  have hloarc : InArc l h lo := by
    rw [InArc] at hhin ⊢
    omega
  have hhiback : InArc l lo hi := by
    rw [InArc] at hlin ⊢
    omega
  have hfirst : InArc a b lo := (hs lo hlo).mp ⟨inArc_start lo hi, hloarc⟩
  have hsecond : InArc a b l := (hs l hl).mp ⟨hlin, inArc_start l h⟩
  rcases hfirst.between hsecond hllo.symm hhin hhiback with hend | hend
  · exact not_inArc_end hlh ((hs h hh).mpr hend).2
  · exact not_inArc_end hne ((hs hi hhi).mpr hend).1

end IsArc

end Arc

/-! ## Values -/

namespace Envelope.Regular

variable {e : Envelope} {l h : Int} {n : Nat} (he : e.Regular)
include he

/-- A request that does not meet the interval takes no value away, and another one takes away what
has not been requested. -/
theorem allows_narrowed_iff_meets (hlh : e.residue l ≠ e.residue h) :
    (e.narrowed l h).Allows n ↔ e.Allows n ∧
      (Meets (2 ^ e.width) e.lo.toNat e.hi.toNat (e.residue l) (e.residue h) →
        InArc (e.residue l) (e.residue h) n ∧
          ¬ (Splits e.lo.toNat e.hi.toNat (e.residue l) (e.residue h) ∧
            InArc e.lo.toNat (e.residue h) n)) := by
  rw [meets_iff he.lo.toNat_lt (e.residue_lt l)]
  exact he.allows_narrowed hlh

/-- Narrowing is an intersection if what the request shares with the interval is one arc. -/
theorem allows_narrowed_iff_of_isArc (hlh : e.residue l ≠ e.residue h)
    (harc : IsArc (2 ^ e.width)
      {n | InArc e.lo.toNat e.hi.toNat n ∧ InArc (e.residue l) (e.residue h) n}) :
    (e.narrowed l h).Allows n ↔ e.Allows n ∧ InArc (e.residue l) (e.residue h) n := by
  have hwhole := harc.not_splits he.lo.toNat_lt he.hi.toNat_lt (e.residue_lt l) (e.residue_lt h) hlh
  rw [he.allows_narrowed_iff_meets hlh]
  refine and_congr_right fun _ => ⟨fun hkept => (hkept harc.meets).1, fun hrequest _ => ?_⟩
  exact ⟨hrequest, fun hpiece => hwhole hpiece.1⟩

/-- The narrowed interval of an envelope with a value holds none if and only if the request meets
the interval and every requested value lies in the first piece of a split one. -/
theorem narrowed_empty_iff (hlh : e.residue l ≠ e.residue h) (hn : e.Allows n) :
    (∀ m, ¬ (e.narrowed l h).Allows m) ↔
      Meets (2 ^ e.width) e.lo.toNat e.hi.toNat (e.residue l) (e.residue h) ∧
        ∀ m, e.Allows m → InArc (e.residue l) (e.residue h) m →
          Splits e.lo.toNat e.hi.toNat (e.residue l) (e.residue h) ∧
            InArc e.lo.toNat (e.residue h) m := by
  constructor
  · intro hempty
    refine ⟨?_, fun m hm hrequest => ?_⟩
    · by_contra hapart
      refine hempty n ((he.allows_narrowed_iff_meets hlh).mpr ⟨hn, fun hmeets => ?_⟩)
      exact absurd hmeets hapart
    · by_contra hpiece
      exact hempty m ((he.allows_narrowed_iff hlh hrequest).mpr ⟨hm, hpiece⟩)
  · rintro ⟨hmeets, hpiece⟩ m hm
    obtain ⟨hallows, hkept⟩ := (he.allows_narrowed_iff_meets hlh).mp hm
    obtain ⟨hrequest, hwhole⟩ := hkept hmeets
    exact hwhole (hpiece m hallows hrequest)

end Envelope.Regular

end BitEnvelope
