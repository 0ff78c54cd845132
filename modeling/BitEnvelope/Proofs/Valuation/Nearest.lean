import BitEnvelope.Proofs.Envelope.Search
import BitEnvelope.Proofs.Valuation.Sound

/-!
# The nearest value of a valuation

In every valuation that mutations lead to, `floor?` and `ceil?` answer whether the envelope has a
value at or below, or at or above, the given one, and write the nearest such value over the words
of the destination, whatever these held before.
-/

namespace BitEnvelope

open BitEnvelope.Valuation

/-- The outcome of a search that writes over the words of `dst`, read off these words. -/
theorem Finds.read {best : Set Nat → Nat → Prop} {s : Set Nat} {o : Option Packed} {dst : Packed}
    {width : Nat} (h : Finds best s o) (hdst : dst.Spans width) (hbest : ∀ n, best s n → n ∈ s)
    (hshape : ∀ x, o = some x → x.shape = dst.shape) :
    (o.isSome = true ↔ ∃ n, n ∈ s) ∧
      ∀ x, o = some x → best s (x.natOfFirst (Word.count width)) := by
  refine ⟨h.isSome_iff hbest, fun x hx => ?_⟩
  have hspans := hdst.of_shape (hshape x hx)
  subst hx
  rw [← hspans.toNat_eq]
  exact h

/-- A storage for eight bits that was used before, with leftovers in its word and in its
headroom. -/
def usedStorage : Packed := { width := 8, words := [0xdeadbeef, 5] }

variable {width : Nat} {v : Valuation} {src dst : Packed}

/-- Below a value, `floor?` finds the greatest value of the envelope, and nothing only if there is
none. -/
theorem Reachable.floor_isGreatest (h : Reachable width v) (hsrc : src.IsValue width)
    (hdst : dst.Spans width) :
    ((v.floor? src dst).isSome = true ↔ ∃ n, v.Allows n ∧ n ≤ src.toNat) ∧
      ∀ x, v.floor? src dst = some x →
        IsGreatest {n | v.Allows n ∧ n ≤ src.toNat} (x.natOfFirst v.wordCount) := by
  have hv := h.sound
  obtain rfl := hv.width_eq
  have hfinds := hv.regular.finds_floor hsrc hdst
  exact hfinds.read hdst (fun n hn => hn.1) (fun x hx => Envelope.shape_of_floor? hx)

theorem Reachable.floor_isGreatest_seven :
    Reachable 8 oddOutsideGap ∧ (Packed.ofNat 8 7).IsValue 8 ∧ usedStorage.Spans 8 ∧
      oddOutsideGap.floor? (Packed.ofNat 8 7) usedStorage = some ⟨8, [3, 5]⟩ ∧
      IsGreatest {n | oddOutsideGap.Allows n ∧ n ≤ (Packed.ofNat 8 7).toNat} 3 := by
  have hsrc : (Packed.ofNat 8 7).IsValue 8 := ⟨⟨rfl, by decide⟩, by decide⟩
  have hdst : usedStorage.Spans 8 := ⟨rfl, by decide⟩
  have hfound : oddOutsideGap.floor? (Packed.ofNat 8 7) usedStorage = some ⟨8, [3, 5]⟩ := by
    decide
  obtain ⟨-, hgreatest⟩ := reachable_oddOutsideGap.floor_isGreatest hsrc hdst
  exact ⟨reachable_oddOutsideGap, hsrc, hdst, hfound, hgreatest _ hfound⟩

/-- Above a value, `ceil?` finds the least value of the envelope, and nothing only if there is
none. -/
theorem Reachable.ceil_isLeast (h : Reachable width v) (hsrc : src.IsValue width)
    (hdst : dst.Spans width) :
    ((v.ceil? src dst).isSome = true ↔ ∃ n, v.Allows n ∧ src.toNat ≤ n) ∧
      ∀ x, v.ceil? src dst = some x →
        IsLeast {n | v.Allows n ∧ src.toNat ≤ n} (x.natOfFirst v.wordCount) := by
  have hv := h.sound
  obtain rfl := hv.width_eq
  have hfinds := hv.regular.finds_ceil hsrc hdst
  exact hfinds.read hdst (fun n hn => hn.1) (fun x hx => Envelope.shape_of_ceil? hx)

theorem Reachable.ceil_isLeast_seven :
    Reachable 8 oddOutsideGap ∧ (Packed.ofNat 8 7).IsValue 8 ∧ usedStorage.Spans 8 ∧
      oddOutsideGap.ceil? (Packed.ofNat 8 7) usedStorage = some ⟨8, [11, 5]⟩ ∧
      IsLeast {n | oddOutsideGap.Allows n ∧ (Packed.ofNat 8 7).toNat ≤ n} 11 := by
  have hsrc : (Packed.ofNat 8 7).IsValue 8 := ⟨⟨rfl, by decide⟩, by decide⟩
  have hdst : usedStorage.Spans 8 := ⟨rfl, by decide⟩
  have hfound : oddOutsideGap.ceil? (Packed.ofNat 8 7) usedStorage = some ⟨8, [11, 5]⟩ := by
    decide
  obtain ⟨-, hleast⟩ := reachable_oddOutsideGap.ceil_isLeast hsrc hdst
  exact ⟨reachable_oddOutsideGap, hsrc, hdst, hfound, hleast _ hfound⟩

end BitEnvelope
