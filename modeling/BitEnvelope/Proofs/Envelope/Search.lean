import BitEnvelope.Envelope.Search
import BitEnvelope.Proofs.Envelope.Arithmetic
import BitEnvelope.Proofs.Envelope.Completion

/-!
# The nearest value

`ceil?` and `floor?` find the nearest value of a regular envelope above and below a given one. The
outcome of a search is stated by `Finds`: a result is the best number of a set, and no result means
that the set is empty. A completion outside the interval goes on from the end of the interval, and
every value of the envelope beyond the completion lies beyond that end.
-/

namespace BitEnvelope

/-- The outcome of a search is the best number of `s`, and `s` is empty if there is no outcome. -/
def Finds (best : Set Nat → Nat → Prop) (s : Set Nat) : Option Packed → Prop
  | none => s = ∅
  | some y => best s y.toNat

namespace Finds

variable {best : Set Nat → Nat → Prop} {s t : Set Nat} {o : Option Packed}

theorem congr (h : Finds best s o) (hst : ∀ n, n ∈ s ↔ n ∈ t) : Finds best t o :=
  Set.ext hst ▸ h

theorem isSome_iff (h : Finds best s o) (hbest : ∀ n, best s n → n ∈ s) :
    o.isSome = true ↔ ∃ n, n ∈ s := by
  cases o with
  | none =>
      change s = ∅ at h
      simp [h]
  | some y => exact iff_of_true rfl ⟨_, hbest _ h⟩

/-- A search in a set that is not empty has an outcome. -/
theorem exists_eq_some (h : Finds best s o) {n : Nat} (hn : n ∈ s) :
    ∃ y, o = some y ∧ best s y.toNat := by
  cases o with
  | none =>
      change s = ∅ at h
      exact absurd hn (Set.eq_empty_iff_forall_notMem.mp h n)
  | some y => exact ⟨y, rfl, h⟩

/-- Two searches for the best number of one set find the same number, if there is only one. -/
theorem map_toNat_eq {o' : Option Packed} (h : Finds best s o) (h' : Finds best s o')
    (hbest : ∀ n, best s n → n ∈ s) (hunique : ∀ m n, best s m → best s n → m = n) :
    o.map Packed.toNat = o'.map Packed.toNat := by
  cases o with
  | none =>
      have hnone : o'.isSome ≠ true := fun hsome =>
        Set.eq_empty_iff_forall_notMem.mp h _ ((h'.isSome_iff hbest).mp hsome).choose_spec
      rw [Option.not_isSome_iff_eq_none.mp hnone]
  | some y =>
      obtain ⟨y', rfl, hy'⟩ := h'.exists_eq_some (hbest _ h)
      exact congrArg some (hunique _ _ h hy')

/-- A second search that starts from what the first one found. -/
theorem bind {f : Packed → Option Packed} (h : Finds best s o) (hempty : s = ∅ → t = ∅)
    (next : ∀ y, o = some y → Finds best t (f y)) : Finds best t (o.bind f) := by
  cases o with
  | none => exact hempty h
  | some y => exact next y rfl

/-- A least number that is not below a bound leaves no number below it. -/
theorem filter_least {p : Packed → Bool} (h : Finds IsLeast s o) {bound : Nat}
    (hp : ∀ y, o = some y → (p y = true ↔ y.toNat < bound)) :
    Finds IsLeast {n | n ∈ s ∧ n < bound} (o.filter p) := by
  cases o with
  | none =>
      change s = ∅ at h
      change {n | n ∈ s ∧ n < bound} = ∅
      simp [h]
  | some y =>
      have hy := hp y rfl
      rw [Option.filter_some]
      split
      · rename_i hpy
        exact ⟨⟨h.1, hy.mp hpy⟩, fun n hn => h.2 hn.1⟩
      · rename_i hpy
        refine Set.eq_empty_of_forall_notMem fun n hn => hpy (hy.mpr ?_)
        exact Nat.lt_of_le_of_lt (h.2 hn.1) hn.2

/-- A greatest number that is below a bound leaves no number at or above it. -/
theorem filter_greatest {p : Packed → Bool} (h : Finds IsGreatest s o) {bound : Nat}
    (hp : ∀ y, o = some y → (p y = true ↔ bound ≤ y.toNat)) :
    Finds IsGreatest {n | n ∈ s ∧ bound ≤ n} (o.filter p) := by
  cases o with
  | none =>
      change s = ∅ at h
      change {n | n ∈ s ∧ bound ≤ n} = ∅
      simp [h]
  | some y =>
      have hy := hp y rfl
      rw [Option.filter_some]
      split
      · rename_i hpy
        exact ⟨⟨h.1, hy.mp hpy⟩, fun n hn => h.2 hn.1⟩
      · rename_i hpy
        refine Set.eq_empty_of_forall_notMem fun n hn => hpy (hy.mpr ?_)
        exact Nat.le_trans hn.2 (h.2 hn.1)

end Finds

namespace Envelope

variable {e : Envelope} {x y : Packed}

/-! ## Shapes -/

theorem shape_of_fromLo (h : e.ceilCompletion? (x.copyFrom e.wordCount e.lo) = some y) :
    y.shape = x.shape :=
  (shape_of_ceilCompletion? h).trans (Packed.shape_copyFrom x _ _)

theorem shape_of_fromHi
    (h : e.floorCompletion? (e.decrement (x.copyFrom e.wordCount e.hi)) = some y) :
    y.shape = x.shape :=
  (shape_of_floorCompletion? h).trans ((shape_decrement e _).trans (Packed.shape_copyFrom x _ _))

theorem shape_of_ite {c : Bool} {o : Option Packed} (ho : o = some y → y.shape = x.shape)
    (h : (if c then o else some x) = some y) : y.shape = x.shape := by
  split at h
  · exact ho h
  · cases h
    rfl

theorem shape_of_raise? (h : e.raise? x = some y) : y.shape = x.shape := by
  simp only [raise?] at h
  split at h
  · cases h
    rfl
  · obtain ⟨hfound, -⟩ := Option.filter_eq_some_iff.mp h
    exact shape_of_ite shape_of_fromLo hfound
  · exact shape_of_ite shape_of_fromLo h

theorem shape_of_lower? (h : e.lower? x = some y) : y.shape = x.shape := by
  simp only [lower?] at h
  split at h
  · cases h
    rfl
  · obtain ⟨hfound, -⟩ := Option.filter_eq_some_iff.mp h
    exact shape_of_ite shape_of_fromHi hfound
  · refine shape_of_ite (fun hgap => ?_) h
    split at hgap
    · cases hgap
    · exact shape_of_fromHi hgap

namespace Regular

variable (he : e.Regular) (hx : x.IsValue e.width)
include he hx

/-! ## Completions -/

theorem finds_ceilCompletion :
    Finds IsLeast {n | e.Completes n ∧ x.toNat ≤ n} (e.ceilCompletion? x) := by
  cases h : e.ceilCompletion? x with
  | none =>
      refine Set.eq_empty_of_forall_notMem fun k hk => ?_
      exact Nat.not_le.mpr (he.lt_of_ceilCompletion?_eq_none hx h hk.1) hk.2
  | some y => exact he.isLeast_ceilCompletion hx h

theorem finds_floorCompletion :
    Finds IsGreatest {n | e.Completes n ∧ n ≤ x.toNat} (e.floorCompletion? x) := by
  cases h : e.floorCompletion? x with
  | none =>
      refine Set.eq_empty_of_forall_notMem fun k hk => ?_
      exact Nat.not_le.mpr (he.lt_of_floorCompletion?_eq_none hx h hk.1) hk.2
  | some y => exact he.isGreatest_floorCompletion hx h

/-! ## The interval -/

/-- The least completion at or above the start of the interval. -/
theorem finds_fromLo :
    Finds IsLeast {n | e.Completes n ∧ e.lo.toNat ≤ n}
      (e.ceilCompletion? (x.copyFrom e.wordCount e.lo)) := by
  rw [← toNat_copy hx.toSpans he.lo.toSpans]
  exact he.finds_ceilCompletion (isValue_copy hx.toSpans he.lo)

/-- The greatest completion below the end of the interval. -/
theorem finds_fromHi (hpos : 0 < e.hi.toNat) :
    Finds IsGreatest {n | e.Completes n ∧ n < e.hi.toNat}
      (e.floorCompletion? (e.decrement (x.copyFrom e.wordCount e.hi))) := by
  have hvalue := isValue_copy hx.toSpans he.hi
  have hlt := he.hi.toNat_lt
  have hdec : (e.decrement (x.copyFrom e.wordCount e.hi)).toNat = e.hi.toNat - 1 := by
    rw [toNat_decrement hvalue, toNat_copy hx.toSpans he.hi.toSpans,
      show e.hi.toNat + 2 ^ e.width - 1 = e.hi.toNat - 1 + 2 ^ e.width by omega,
      Nat.add_mod_right, Nat.mod_eq_of_lt (by omega)]
  have hspans := hvalue.toSpans.of_shape (shape_decrement e _)
  refine (he.finds_floorCompletion ⟨hspans, by rw [hdec]; omega⟩).congr fun n => ?_
  change _ ∧ n ≤ _ ↔ _ ∧ n < _
  rw [hdec]
  exact and_congr_right fun _ => by omega

/-! ## From a completion into the interval -/

/-- In an interval that does not wrap around, the least value at or above `x` is the least
completion at or above `x` and the start, if that one is below the end. -/
theorem finds_raise_of_lt (hc : e.Completes x.toNat) (hlt : e.lo.toNat < e.hi.toNat) :
    Finds IsLeast {n | e.Allows n ∧ x.toNat ≤ n} (e.raise? x) := by
  have hlo := hx.toSpans.lt_iff he.lo.toSpans
  have hfirst : Finds IsLeast {n | e.Completes n ∧ e.lo.toNat ≤ n ∧ x.toNat ≤ n}
      (if x.lt e.lo then e.ceilCompletion? (x.copyFrom e.wordCount e.lo) else some x) := by
    split
    · rename_i hbelow
      rw [hlo] at hbelow
      exact (he.finds_fromLo hx).congr fun n => and_congr_right fun _ => by omega
    · rename_i habove
      rw [hlo] at habove
      exact ⟨⟨hc, Nat.le_of_not_lt habove, Nat.le_refl _⟩, fun n hn => hn.2.2⟩
  have hend : ∀ y, (if x.lt e.lo then e.ceilCompletion? (x.copyFrom e.wordCount e.lo)
      else some x) = some y → (y.lt e.hi = true ↔ y.toNat < e.hi.toNat) := by
    intro y hy
    exact (hx.toSpans.of_shape (shape_of_ite shape_of_fromLo hy)).lt_iff he.hi.toSpans
  rw [raise?, he.compare_bounds, Nat.compare_eq_lt.mpr hlt]
  refine (hfirst.filter_least hend).congr fun n => ?_
  change (e.Completes n ∧ e.lo.toNat ≤ n ∧ x.toNat ≤ n) ∧ n < e.hi.toNat ↔
    e.Allows n ∧ x.toNat ≤ n
  rw [allows_iff, inArc_iff_of_lt hlt]
  tauto

/-- In an interval that wraps around, a completion either lies in the interval or in the gap below
its start. -/
theorem finds_raise_of_gt (hc : e.Completes x.toNat) (hgt : e.hi.toNat < e.lo.toNat) :
    Finds IsLeast {n | e.Allows n ∧ x.toNat ≤ n} (e.raise? x) := by
  have hlo := hx.toSpans.lt_iff he.lo.toSpans
  have hhi := he.hi.toSpans.le_iff hx.toSpans
  rw [raise?, he.compare_bounds, Nat.compare_eq_gt.mpr hgt]
  dsimp only
  split
  · rename_i hgap
    rw [Bool.and_eq_true, hhi, hlo] at hgap
    refine (he.finds_fromLo hx).congr fun n => ?_
    change e.Completes n ∧ e.lo.toNat ≤ n ↔ e.Allows n ∧ x.toNat ≤ n
    rw [allows_iff, inArc_iff_of_gt hgt, and_assoc]
    exact and_congr_right fun _ => by omega
  · rename_i hout
    rw [Bool.and_eq_true, hhi, hlo] at hout
    have hin : e.Allows x.toNat := by
      rw [allows_iff, inArc_iff_of_gt hgt]
      exact ⟨hc, by omega⟩
    exact ⟨⟨hin, Nat.le_refl _⟩, fun n hn => hn.2⟩

/-- From a completion, `raise?` goes on to the least value of the envelope at or above it. -/
theorem finds_raise (hc : e.Completes x.toNat) :
    Finds IsLeast {n | e.Allows n ∧ x.toNat ≤ n} (e.raise? x) := by
  rcases Nat.lt_trichotomy e.lo.toNat e.hi.toNat with hlt | heq | hgt
  · exact he.finds_raise_of_lt hx hc hlt
  · rw [raise?, he.compare_bounds, Nat.compare_eq_eq.mpr heq]
    exact ⟨⟨allows_iff.mpr ⟨hc, inArc_of_eq heq⟩, Nat.le_refl _⟩, fun n hn => hn.2⟩
  · exact he.finds_raise_of_gt hx hc hgt

/-- In an interval that does not wrap around, the greatest value at or below `x` is the greatest
completion at or below `x` and below the end, if that one is at or above the start. -/
theorem finds_lower_of_lt (hc : e.Completes x.toNat) (hlt : e.lo.toNat < e.hi.toNat) :
    Finds IsGreatest {n | e.Allows n ∧ n ≤ x.toNat} (e.lower? x) := by
  have hhi := he.hi.toSpans.le_iff hx.toSpans
  have hfirst : Finds IsGreatest {n | e.Completes n ∧ n < e.hi.toNat ∧ n ≤ x.toNat}
      (if e.hi.le x then e.floorCompletion? (e.decrement (x.copyFrom e.wordCount e.hi))
        else some x) := by
    split
    · rename_i habove
      rw [hhi] at habove
      exact (he.finds_fromHi hx (by omega)).congr fun n => and_congr_right fun _ => by omega
    · rename_i hbelow
      rw [hhi] at hbelow
      exact ⟨⟨hc, Nat.lt_of_not_le hbelow, Nat.le_refl _⟩, fun n hn => hn.2.2⟩
  have hstart : ∀ y, (if e.hi.le x then
      e.floorCompletion? (e.decrement (x.copyFrom e.wordCount e.hi)) else some x) = some y →
      (e.lo.le y = true ↔ e.lo.toNat ≤ y.toNat) := by
    intro y hy
    exact he.lo.toSpans.le_iff (hx.toSpans.of_shape (shape_of_ite shape_of_fromHi hy))
  rw [lower?, he.compare_bounds, Nat.compare_eq_lt.mpr hlt]
  refine (hfirst.filter_greatest hstart).congr fun n => ?_
  change (e.Completes n ∧ n < e.hi.toNat ∧ n ≤ x.toNat) ∧ e.lo.toNat ≤ n ↔
    e.Allows n ∧ n ≤ x.toNat
  rw [allows_iff, inArc_iff_of_lt hlt]
  tauto

/-- In an interval that wraps around, a completion either lies in the interval or in the gap above
its end, which reaches down to zero if the end is zero. -/
theorem finds_lower_of_gt (hc : e.Completes x.toNat) (hgt : e.hi.toNat < e.lo.toNat) :
    Finds IsGreatest {n | e.Allows n ∧ n ≤ x.toNat} (e.lower? x) := by
  have hlo := hx.toSpans.lt_iff he.lo.toSpans
  have hhi := he.hi.toSpans.le_iff hx.toSpans
  have hwidth : 0 < e.width := by
    have hlt := he.lo.toNat_lt
    by_contra hw
    rw [Nat.eq_zero_of_not_pos hw] at hlt
    omega
  have hzero := isZero_iff he.hi hwidth
  rw [lower?, he.compare_bounds, Nat.compare_eq_gt.mpr hgt]
  dsimp only
  split
  · rename_i hgap
    rw [Bool.and_eq_true, hhi, hlo] at hgap
    split
    · rename_i hend
      rw [hzero] at hend
      refine Set.eq_empty_of_forall_notMem fun n hn => ?_
      obtain ⟨hn, hle⟩ := hn
      rw [allows_iff, inArc_iff_of_gt hgt] at hn
      omega
    · rename_i hend
      rw [hzero] at hend
      refine (he.finds_fromHi hx (Nat.pos_of_ne_zero hend)).congr fun n => ?_
      change e.Completes n ∧ n < e.hi.toNat ↔ e.Allows n ∧ n ≤ x.toNat
      rw [allows_iff, inArc_iff_of_gt hgt, and_assoc]
      exact and_congr_right fun _ => by omega
  · rename_i hout
    rw [Bool.and_eq_true, hhi, hlo] at hout
    have hin : e.Allows x.toNat := by
      rw [allows_iff, inArc_iff_of_gt hgt]
      exact ⟨hc, by omega⟩
    exact ⟨⟨hin, Nat.le_refl _⟩, fun n hn => hn.2⟩

/-- From a completion, `lower?` goes on to the greatest value of the envelope at or below it. -/
theorem finds_lower (hc : e.Completes x.toNat) :
    Finds IsGreatest {n | e.Allows n ∧ n ≤ x.toNat} (e.lower? x) := by
  rcases Nat.lt_trichotomy e.lo.toNat e.hi.toNat with hlt | heq | hgt
  · exact he.finds_lower_of_lt hx hc hlt
  · rw [lower?, he.compare_bounds, Nat.compare_eq_eq.mpr heq]
    exact ⟨⟨allows_iff.mpr ⟨hc, inArc_of_eq heq⟩, Nat.le_refl _⟩, fun n hn => hn.2⟩
  · exact he.finds_lower_of_gt hx hc hgt

end Regular

/-! ## The whole search -/

section Whole

variable {src dst : Packed} (he : e.Regular)
include he

/-- The least value at or above `x` is the least one at or above the least completion there. -/
theorem Regular.finds_bind_raise (hx : x.IsValue e.width) :
    Finds IsLeast {n | e.Allows n ∧ x.toNat ≤ n} ((e.ceilCompletion? x).bind e.raise?) := by
  refine (he.finds_ceilCompletion hx).bind (fun hempty => ?_) fun y hy => ?_
  · refine Set.eq_empty_of_forall_notMem fun n hn => ?_
    exact hempty.subset ⟨(allows_iff.mp hn.1).1, hn.2⟩
  · have least := he.isLeast_ceilCompletion hx hy
    have hyvalue : y.IsValue e.width :=
      ⟨hx.toSpans.of_shape (shape_of_ceilCompletion? hy), least.1.1.1⟩
    refine (he.finds_raise hyvalue least.1.1).congr fun n => and_congr_right fun hn => ?_
    exact ⟨least.1.2.trans, fun hle => least.2 ⟨(allows_iff.mp hn).1, hle⟩⟩

/-- The search downward for a completion, also from a value with stray bits. -/
theorem Regular.finds_floorCompletion_of_spans (hx : x.Spans e.width) :
    Finds IsGreatest {n | e.Completes n ∧ n ≤ x.toNat} (e.floorCompletion? x) := by
  rcases Nat.lt_or_ge x.toNat (2 ^ e.width) with hlt | hge
  · exact he.finds_floorCompletion ⟨hx, hlt⟩
  · obtain ⟨y, hy, hgreatest⟩ := he.exists_floorCompletion_of_stray hx hge
    rw [hy]
    exact hgreatest

/-- The greatest value at or below `x` is the greatest one at or below the greatest completion
there. -/
theorem Regular.finds_bind_lower (hx : x.Spans e.width) :
    Finds IsGreatest {n | e.Allows n ∧ n ≤ x.toNat} ((e.floorCompletion? x).bind e.lower?) := by
  have hfirst := he.finds_floorCompletion_of_spans hx
  refine hfirst.bind (fun hempty => ?_) fun y hy => ?_
  · refine Set.eq_empty_of_forall_notMem fun n hn => ?_
    exact hempty.subset ⟨(allows_iff.mp hn.1).1, hn.2⟩
  · rw [hy] at hfirst
    have greatest : IsGreatest {n | e.Completes n ∧ n ≤ x.toNat} y.toNat := hfirst
    have hyvalue : y.IsValue e.width :=
      ⟨hx.of_shape (shape_of_floorCompletion? hy), greatest.1.1.1⟩
    refine (he.finds_lower hyvalue greatest.1.1).congr fun n => and_congr_right fun hn => ?_
    exact ⟨fun hle => hle.trans greatest.1.2, fun hle => greatest.2 ⟨(allows_iff.mp hn).1, hle⟩⟩

theorem Regular.finds_floor_of_spans (hsrc : src.Spans e.width) (hdst : dst.Spans e.width) :
    Finds IsGreatest {n | e.Allows n ∧ n ≤ src.toNat} (e.floor? src dst) := by
  rw [← toNat_copy hdst hsrc]
  exact he.finds_bind_lower (hdst.of_shape (Packed.shape_copyFrom dst _ src))

variable (hsrc : src.IsValue e.width) (hdst : dst.Spans e.width)
include hsrc hdst

theorem Regular.finds_ceil :
    Finds IsLeast {n | e.Allows n ∧ src.toNat ≤ n} (e.ceil? src dst) := by
  rw [← toNat_copy hdst hsrc.toSpans]
  exact he.finds_bind_raise (isValue_copy hdst hsrc)

theorem Regular.finds_floor :
    Finds IsGreatest {n | e.Allows n ∧ n ≤ src.toNat} (e.floor? src dst) :=
  he.finds_floor_of_spans hsrc.toSpans hdst

end Whole

theorem shape_of_ceil? {src dst : Packed} (h : e.ceil? src dst = some y) :
    y.shape = dst.shape := by
  obtain ⟨z, hz, hy⟩ := Option.bind_eq_some_iff.mp h
  exact (shape_of_raise? hy).trans
    ((shape_of_ceilCompletion? hz).trans (Packed.shape_copyFrom dst _ _))

theorem shape_of_floor? {src dst : Packed} (h : e.floor? src dst = some y) :
    y.shape = dst.shape := by
  obtain ⟨z, hz, hy⟩ := Option.bind_eq_some_iff.mp h
  exact (shape_of_lower? hy).trans
    ((shape_of_floorCompletion? hz).trans (Packed.shape_copyFrom dst _ _))

theorem shape_of_ceilUpTo? {lo hi dst : Packed} (h : e.ceilUpTo? lo hi dst = some y) :
    y.shape = dst.shape :=
  shape_of_ceil? (Option.filter_eq_some_iff.mp h).1

theorem shape_of_floorDownTo? {lo hi dst : Packed} (h : e.floorDownTo? lo hi dst = some y) :
    y.shape = dst.shape :=
  shape_of_floor? (Option.filter_eq_some_iff.mp h).1

/-! ## Searches between two bounds -/

section Between

variable {lo hi dst : Packed}

theorem Regular.finds_ceilUpTo (he : e.Regular) (hlo : lo.IsValue e.width) (hhi : hi.Spans e.width)
    (hdst : dst.Spans e.width) :
    Finds IsLeast {n | e.Allows n ∧ lo.toNat ≤ n ∧ n ≤ hi.toNat} (e.ceilUpTo? lo hi dst) := by
  have hupper : ∀ y, e.ceil? lo dst = some y → ((!hi.lt y) = true ↔ y.toNat < hi.toNat + 1) := by
    intro y hy
    rw [Bool.not_eq_true', ← Bool.not_eq_true,
      hhi.lt_iff (hdst.of_shape (shape_of_ceil? hy)), Nat.not_lt, Nat.lt_succ_iff]
  exact ((he.finds_ceil hlo hdst).filter_least hupper).congr fun n =>
    ⟨fun h => ⟨h.1.1, h.1.2, Nat.lt_succ_iff.mp h.2⟩,
      fun h => ⟨⟨h.1, h.2.1⟩, Nat.lt_succ_iff.mpr h.2.2⟩⟩

theorem Regular.finds_floorDownTo (he : e.Regular) (hlo : lo.Spans e.width)
    (hhi : hi.Spans e.width) (hdst : dst.Spans e.width) :
    Finds IsGreatest {n | e.Allows n ∧ lo.toNat ≤ n ∧ n ≤ hi.toNat}
      (e.floorDownTo? lo hi dst) := by
  have hlower : ∀ y, e.floor? hi dst = some y → ((!y.lt lo) = true ↔ lo.toNat ≤ y.toNat) := by
    intro y hy
    rw [Bool.not_eq_true', ← Bool.not_eq_true,
      (hdst.of_shape (shape_of_floor? hy)).lt_iff hlo, Nat.not_lt]
  exact ((he.finds_floor_of_spans hhi hdst).filter_greatest hlower).congr fun n =>
    ⟨fun h => ⟨h.1.1, h.2, h.1.2⟩, fun h => ⟨⟨h.1, h.2.2⟩, h.2.1⟩⟩

end Between

end Envelope

end BitEnvelope
