import BitEnvelope.Proofs.Config.Build

/-!
# A configuration stands for the calls that it lists

A configuration keeps integers as decimal texts and is validated as a whole before any of it is
carried out. Neither shows: a configuration that is put together from positions below its width and
from integers passes its validation, reads the integers back, and builds what pinning and
intersecting gives directly, or fails as the first of these steps that fails. In which order pins
and intervals were added to each other does not matter, because all pins come first.
-/

namespace BitEnvelope

/-- Pins the positions and then intersects the intervals, each in the order of the list. The first
step that fails ends it. -/
def Valuation.refine (v : Valuation) (pins : List Pin) (intervals : List (Int × Int)) :
    Except EnvelopeError Valuation := do
  let v ← pins.foldlM (fun v p => v.pin p.index.toNat p.value) v
  intervals.foldlM (fun v r => v.restrict r.1 r.2) v

namespace Config

variable {c : Config} {pins : List Pin} {intervals : List (Int × Int)}

/-- Adds a pin or an interval. -/
def add (c : Config) : Pin ⊕ (Int × Int) → Config
  | .inl p => c.withPin p.index p.value
  | .inr r => c.withRange r.1 r.2

/-- What is added joins the end of its list, and nothing else changes. -/
theorem foldl_add (c : Config) (additions : List (Pin ⊕ (Int × Int))) :
    additions.foldl add c =
      { c with
        pins := c.pins ++ additions.filterMap Sum.getLeft?
        ranges := c.ranges ++
          (additions.filterMap Sum.getRight?).map fun r => RangeText.ofInts r.1 r.2 } := by
  induction additions generalizing c with
  | nil => simp
  | cons a additions ih =>
      cases a with
      | inl p => simp [ih, add, withPin, List.filterMap_cons]
      | inr r => simp [ih, add, withRange, List.filterMap_cons]

/-- What has positions below its width and integers as bounds builds what it lists. -/
theorem build_eq_refine (hwidth : c.width ≠ 0) (hsign : c.signedPrefix ≤ c.width)
    (hpins : ∀ p ∈ c.pins, p.index < c.width)
    (hranges : c.ranges = intervals.map fun r => RangeText.ofInts r.1 r.2) :
    c.build = ((Valuation.blank c.width.toNat).limitSign c.signedPrefix.toNat).refine c.pins
      intervals := by
  have hvalid : c.validate = .ok () := by
    refine validate_eq_ok hwidth hsign hpins fun r hr => ?_
    rw [hranges] at hr
    obtain ⟨b, -, rfl⟩ := List.mem_map.mp hr
    exact ⟨b, RangeText.bounds_ofInts b.1 b.2⟩
  rw [build_eq_of_validate hvalid, hranges]
  simp only [restrictAll_ofInts]
  rfl

/-- The bounds of an interval are the integers that it was made from, and a configuration that is
put together from pins and intervals builds what these do directly. -/
theorem build_added {width k : UInt64} {additions : List (Pin ⊕ (Int × Int))} (hwidth : width ≠ 0)
    (hsign : k ≤ width) (hpins : additions.filterMap Sum.getLeft? = pins)
    (hindex : ∀ p ∈ pins, p.index < width)
    (hintervals : additions.filterMap Sum.getRight? = intervals) :
    (∀ l h : Int, (RangeText.ofInts l h).bounds = .ok (l, h)) ∧
      (additions.foldl add ((unrestricted width).withSignedPrefix k)).build =
        ((Valuation.blank width.toNat).limitSign k.toNat).refine pins intervals := by
  refine ⟨RangeText.bounds_ofInts, ?_⟩
  subst hpins hintervals
  rw [foldl_add]
  exact build_eq_refine hwidth hsign hindex rfl

/-- A negative bound, a bound above the width, and a pin that was added between the intervals. -/
theorem build_added_oddBelowTen :
    let additions : List (Pin ⊕ (Int × Int)) := [.inr (-3, 10), .inl ⟨0, true⟩, .inr (0, 300)]
    let pins : List Pin := [⟨0, true⟩]
    let c := additions.foldl add ((unrestricted 8).withSignedPrefix 2)
    ((8 : UInt64) ≠ 0 ∧ (2 : UInt64) ≤ 8 ∧ additions.filterMap Sum.getLeft? = pins ∧
        (∀ p ∈ pins, p.index < 8) ∧ additions.filterMap Sum.getRight? = [(-3, 10), (0, 300)]) ∧
      c.build = ((Valuation.blank 8).limitSign 2).refine pins [(-3, 10), (0, 300)] ∧
      c.build.toOption.map (fun v => (v.lo.toNat, v.hi.toNat, v.current.toNat)) =
        some (1, 10, 1) := by
  intro additions pins c
  have hpins : additions.filterMap Sum.getLeft? = pins := rfl
  have hindex : ∀ p ∈ pins, p.index < 8 := by decide
  have hintervals : additions.filterMap Sum.getRight? = [(-3, 10), (0, 300)] := rfl
  have hbuild := (build_added (by decide) (by decide) hpins hindex hintervals : _ ∧ c.build = _).2
  refine ⟨⟨by decide, by decide, hpins, hindex, hintervals⟩, hbuild, ?_⟩
  rw [hbuild]
  decide

end Config

end BitEnvelope
