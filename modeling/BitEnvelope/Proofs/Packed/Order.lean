import BitEnvelope.Checked.Packed
import BitEnvelope.Packed.Lemmas

/-!
# The order of packed values

Packed values with the same number of words are ordered as the numbers in these words. Their widths
may differ, and what their headroom holds, and how much of it there is, does not matter. So the tests
that are read off a comparison all belong to one total order, in which values are the same if and
only if their numbers are equal.
-/

namespace BitEnvelope.Packed

/-- The values whose number is stored in `n` words. -/
def Counting (n : Nat) : Type := { x : Packed // x.wordCount = n ∧ n ≤ x.words.length }

variable {n : Nat} {x y : Packed}

theorem compare_counting (x y : Counting n) :
    x.1.compare y.1 = compareOn (fun z : Counting n => z.1.toNat) x y := by
  obtain ⟨x, hx, hxs⟩ := x
  obtain ⟨y, hy, hys⟩ := y
  exact compare_eq_compare_toNat (hx.trans hy.symm) (hx ▸ hxs) (hy ▸ hys)

/-- The order of the values that are stored in `n` words is total. -/
theorem transCmp_counting (n : Nat) :
    Std.TransCmp fun x y : Counting n => x.1.compare y.1 := by
  have heq : (fun x y : Counting n => x.1.compare y.1) =
      compareOn fun z : Counting n => z.1.toNat :=
    funext fun x => funext fun y => compare_counting x y
  rw [heq]
  infer_instance

theorem checkedCompare_eq (h : x.wordCount = y.wordCount) :
    x.checkedCompare y = .ok (x.compare y) := by
  rw [checkedCompare, h, beq_self_eq_true]
  rfl

/-- Values with the same number of words can be compared, and their order is that of the numbers in
these words. Each test of the order agrees with it, and the order is total. -/
theorem compare_numbers (h : x.wordCount = y.wordCount) (hx : x.wordCount ≤ x.words.length)
    (hy : y.wordCount ≤ y.words.length) :
    let m := x.natOfFirst x.wordCount
    let n := y.natOfFirst y.wordCount
    x.checkedCompare y = .ok (Ord.compare m n) ∧
      ((x.lt y = true ↔ m < n) ∧ (x.le y = true ↔ m ≤ n) ∧ (x.same y = true ↔ m = n) ∧
        ((x.compare y).isGE = true ↔ n ≤ m) ∧ ((x.compare y).isGT = true ↔ n < m)) ∧
      Std.TransCmp fun a b : Counting x.wordCount => a.1.compare b.1 := by
  intro m n
  have hcompare : x.compare y = Ord.compare m n := compare_eq_compare_toNat h hx hy
  refine ⟨?_, ⟨lt_iff_toNat_lt h hx hy, le_iff_toNat_le h hx hy, same_iff_toNat_eq h hx hy, ?_, ?_⟩,
    transCmp_counting _⟩
  · rw [checkedCompare_eq h, hcompare]
  · rw [hcompare, Nat.isGE_compare]
  · rw [hcompare, Ordering.isGT_iff_eq_gt, Nat.compare_eq_gt]

/-- Two words of forty and of sixty-four bits, with headroom of different length and content. -/
theorem compare_numbers_headroom :
    let x : Packed := ⟨40, [1, 2, 7, 9]⟩
    let y : Packed := ⟨64, [0xffffffff, 1, 8]⟩
    x.natOfFirst 2 = 0x200000001 ∧ y.natOfFirst 2 = 0x1ffffffff ∧
      x.checkedCompare y = .ok .gt ∧ x.lt y = false ∧ (x.compare y).isGT = true := by
  intro x y
  have hcount : x.wordCount = y.wordCount := by decide
  have hx : x.wordCount ≤ x.words.length := by decide
  have hy : y.wordCount ≤ y.words.length := by decide
  have hmore : y.natOfFirst y.wordCount < x.natOfFirst x.wordCount := by decide
  obtain ⟨hcompare, ⟨hlt, -, -, -, hgt⟩, -⟩ := compare_numbers hcount hx hy
  rw [Nat.compare_eq_gt.mpr hmore] at hcompare
  have hnot : ¬ x.lt y = true := fun h => Nat.lt_asymm hmore (hlt.mp h)
  exact ⟨by decide, by decide, hcompare, eq_false_of_ne_true hnot, hgt.mpr hmore⟩

end BitEnvelope.Packed
