import BitEnvelope.Envelope.Arithmetic
import BitEnvelope.Proofs.Valuation.Sound

/-!
# The committed value as a number, up to a limit

The scan adds up the place values of the set bits. After `i` positions the place value is `2 ^ i` and
the sum is the number in the bits below position `i`, which is less. The scan goes on only while the
place value is below the limit, so twice the place value and the place value added to the sum still
are numbers of sixty-four bits. Once the place value has reached the limit, one more set bit takes the
number to the limit or beyond, and without one the sum is the number.
-/

namespace BitEnvelope

namespace Envelope

/-! ## The scan in exact arithmetic -/

/-- The number `n` in sixty-four bits, if it has no more. -/
def fit? (n : Nat) : Option UInt64 :=
  if n < UInt64.size then some (UInt64.ofNat n) else none

/-- The step of `addPlace`, if its sum fits. -/
def addPlace? (bit : Bool) (place sum : UInt64) : Option UInt64 :=
  if bit then fit? (sum.toNat + place.toNat) else some sum

/-- The scan of `sumUpTo`, which ends without a result when a place value or a sum does not fit. -/
def exactSumUpTo? (limit : UInt64) (x : Packed) : List Nat → UInt64 → UInt64 → Option UInt64
  | [], _, sum => some (min sum limit)
  | i :: is, place, sum =>
    if limit ≤ place then
      some (if (i :: is).any x.bit then limit else min sum limit)
    else do
      let nextSum ← addPlace? (x.bit i) place sum
      let nextPlace ← fit? (2 * place.toNat)
      exactSumUpTo? limit x is nextPlace nextSum

/-- The committed value up to a limit, if all numbers of the scan fit. -/
def exactNatUpTo? (e : Envelope) (limit : UInt64) : Option UInt64 :=
  exactSumUpTo? limit e.current (List.range e.width) 1 0

theorem eq_ofNat_of_fit? {n : Nat} {a : UInt64} (h : fit? n = some a) : a = UInt64.ofNat n := by
  rw [fit?] at h
  split at h
  · exact (Option.some.inj h).symm
  · cases h

/-! ## One position -/

variable {limit place sum : UInt64} {x : Packed} {i n : Nat}

theorem doubled_eq_ofNat (place : UInt64) : place <<< 1 = UInt64.ofNat (2 * place.toNat) := by
  apply UInt64.toNat_inj.mp
  rw [UInt64.toNat_shiftLeft, UInt64.toNat_ofNat']
  change place.toNat <<< 1 % 2 ^ 64 = _
  rw [Nat.shiftLeft_eq, Nat.pow_one, Nat.mul_comm]

theorem added_eq_ofNat (sum place : UInt64) :
    sum + place = UInt64.ofNat (sum.toNat + place.toNat) := by
  rw [UInt64.ofNat_add, UInt64.ofNat_toNat, UInt64.ofNat_toNat]

/-- A step of the scan that fits is the step in sixty-four bits. -/
theorem eq_of_addPlace? {b : Bool} {a : UInt64} (h : addPlace? b place sum = some a) :
    addPlace b place sum = a := by
  cases b with
  | false => exact Option.some.inj h
  | true => exact (added_eq_ofNat sum place).trans (eq_ofNat_of_fit? h).symm

/-- A scan whose numbers all fit is the scan in sixty-four bits. -/
theorem eq_of_exactSumUpTo? {is : List Nat} {a : UInt64}
    (h : exactSumUpTo? limit x is place sum = some a) : sumUpTo limit x is place sum = a := by
  induction is generalizing place sum with
  | nil => exact Option.some.inj h
  | cons i is ih =>
      rw [exactSumUpTo?] at h
      rw [sumUpTo]
      split at h
      · rename_i hplace
        rw [if_pos hplace]
        exact Option.some.inj h
      · rename_i hplace
        obtain ⟨nextSum, hsum, h⟩ := Option.bind_eq_some_iff.mp h
        obtain ⟨nextPlace, hdoubled, h⟩ := Option.bind_eq_some_iff.mp h
        rw [if_neg hplace, eq_of_addPlace? hsum, doubled_eq_ofNat, ← eq_ofNat_of_fit? hdoubled]
        exact ih h

theorem toNat_doubled (hfit : 2 * place.toNat < UInt64.size) :
    (place <<< 1).toNat = 2 * place.toNat := by
  rw [doubled_eq_ofNat]
  exact UInt64.toNat_ofNat_of_lt' hfit

/-- The scan of the number `n` has come to position `i`. -/
structure Scanned (n i : Nat) (place sum : UInt64) : Prop where
  place_eq : place.toNat = 2 ^ i
  sum_eq : sum.toNat = n % 2 ^ i

namespace Scanned

theorem start (n : Nat) : Scanned n 0 1 0 := ⟨rfl, (Nat.mod_one n).symm⟩

theorem sum_lt (h : Scanned n i place sum) : sum.toNat < place.toNat := by
  rw [h.sum_eq, h.place_eq]
  exact Nat.mod_lt n (Nat.two_pow_pos i)

/-- Without a set bit from position `i` on, the sum is the number. -/
theorem toNat_min (h : Scanned n i place sum) (hlt : n < 2 ^ i) :
    (min sum limit).toNat = min n limit.toNat := by
  rw [UInt64.toNat_min, h.sum_eq, Nat.mod_eq_of_lt hlt]

section Next

variable (h : Scanned n i place sum) (hfit : 2 * place.toNat < UInt64.size)
include h hfit

theorem toNat_added : (sum + place).toNat = sum.toNat + place.toNat := by
  have hlt : sum.toNat + place.toNat < UInt64.size := by
    have hsum := h.sum_lt
    omega
  rw [UInt64.toNat_add]
  exact Nat.mod_eq_of_lt hlt

theorem exists_addPlace? (b : Bool) : ∃ a, addPlace? b place sum = some a := by
  cases b with
  | false => exact ⟨sum, rfl⟩
  | true =>
      have hsum := h.sum_lt
      have hadded : sum.toNat + place.toNat < UInt64.size := by omega
      rw [addPlace?, if_pos rfl, fit?, if_pos hadded]
      exact ⟨_, rfl⟩

/-- One position adds its bit to the sum and doubles the place value. -/
theorem next : Scanned n (i + 1) (place <<< 1) (addPlace (n.testBit i) place sum) := by
  constructor
  · rw [toNat_doubled hfit, h.place_eq, Nat.pow_succ, Nat.mul_comm]
  · rw [Nat.mod_pow_succ, ← h.sum_eq, ← Nat.toNat_testBit, ← h.place_eq]
    cases hbit : n.testBit i with
    | false => simp [addPlace]
    | true => simpa [addPlace] using h.toNat_added hfit

end Next

end Scanned

/-! ## All positions -/

/-- From position `i` on a bit is set just if the number is not below the place value. -/
theorem any_bit_range'_iff {k : Nat} (hx : x.IsValue (i + k)) :
    (List.range' i k).any x.bit = true ↔ 2 ^ i ≤ x.toNat := by
  constructor
  · intro hany
    obtain ⟨j, hj, hbit⟩ := List.any_eq_true.mp hany
    obtain ⟨hle, hlt⟩ := List.mem_range'_1.mp hj
    rw [← hx.testBit_of_lt hlt] at hbit
    exact Nat.le_trans (Nat.pow_le_pow_right (by decide) hle) (Nat.ge_two_pow_of_testBit hbit)
  · intro hle
    by_contra hnone
    have hclear : ∀ j ≥ i, x.toNat.testBit j = false := by
      intro j hj
      by_cases hlt : j < i + k
      · rw [hx.testBit_of_lt hlt, ← Bool.not_eq_true]
        exact fun hbit => hnone (List.any_eq_true.mpr ⟨j, List.mem_range'_1.mpr ⟨hj, hlt⟩, hbit⟩)
      · exact hx.testBit_of_le (Nat.le_of_not_lt hlt)
    exact absurd (Nat.lt_pow_two_of_testBit _ hclear) (Nat.not_lt.mpr hle)

section Scan

variable (hlimit : limit.toNat < (UInt64.size - 1) / 2)
include hlimit

/-- A place value below the limit can be doubled. -/
theorem doubled_lt (hplace : ¬ limit ≤ place) : 2 * place.toNat < UInt64.size := by
  have hlt : place.toNat < limit.toNat :=
    Nat.lt_of_not_le fun hle => hplace (UInt64.le_iff_toNat_le.mpr hle)
  omega

/-- From any position the scan saturates. -/
theorem toNat_sumUpTo (k : Nat) (hx : x.IsValue (i + k)) (h : Scanned x.toNat i place sum) :
    (sumUpTo limit x (List.range' i k) place sum).toNat = min x.toNat limit.toNat := by
  induction k generalizing i place sum with
  | zero => exact h.toNat_min hx.toNat_lt
  | succ k ih =>
      rw [List.range'_succ, sumUpTo]
      split
      · rename_i hplace
        rw [← List.range'_succ]
        split
        · rename_i hany
          rw [any_bit_range'_iff hx, ← h.place_eq] at hany
          exact (Nat.min_eq_right (Nat.le_trans (UInt64.le_iff_toNat_le.mp hplace) hany)).symm
        · rename_i hany
          rw [any_bit_range'_iff hx] at hany
          exact h.toNat_min (Nat.lt_of_not_le hany)
      · rename_i hplace
        have hbit : x.toNat.testBit i = x.bit i := hx.testBit_of_lt (by omega)
        have hrest : x.IsValue (i + 1 + k) := by rwa [Nat.add_assoc, Nat.add_comm 1]
        rw [← hbit]
        exact ih hrest (h.next (doubled_lt hlimit hplace))

/-- From any position the numbers of the scan fit. -/
theorem exists_exactSumUpTo? (k : Nat) (hx : x.IsValue (i + k))
    (h : Scanned x.toNat i place sum) :
    ∃ a, exactSumUpTo? limit x (List.range' i k) place sum = some a := by
  induction k generalizing i place sum with
  | zero => exact ⟨_, rfl⟩
  | succ k ih =>
      rw [List.range'_succ, exactSumUpTo?]
      split
      · exact ⟨_, rfl⟩
      · rename_i hplace
        have hfit := doubled_lt hlimit hplace
        have hbit : x.toNat.testBit i = x.bit i := hx.testBit_of_lt (by omega)
        have hrest : x.IsValue (i + 1 + k) := by rwa [Nat.add_assoc, Nat.add_comm 1]
        obtain ⟨nextSum, hsum⟩ := h.exists_addPlace? hfit (x.bit i)
        have hnext := h.next hfit
        rw [hbit, eq_of_addPlace? hsum, doubled_eq_ofNat] at hnext
        rw [hsum, fit?, if_pos hfit]
        exact ih hrest hnext

end Scan

end Envelope

/-- In every valuation that mutations lead to, the committed value is read as the lesser of its number
and the limit, and neither a place value nor a sum of the scan overflows. -/
theorem Reachable.natUpTo_saturates {width : Nat} {v : Valuation} (h : Reachable width v)
    {limit : UInt64} (hlimit : limit.toNat < (UInt64.size - 1) / 2) :
    (v.natUpTo limit).toNat = min v.current.toNat limit.toNat ∧
      v.exactNatUpTo? limit = some (v.natUpTo limit) := by
  have hcurrent : v.current.IsValue (0 + v.width) := by
    rw [Nat.zero_add]
    exact h.sound.regular.current
  rw [Envelope.natUpTo, Envelope.exactNatUpTo?, List.range_eq_range']
  have hstart := Envelope.Scanned.start v.current.toNat
  obtain ⟨a, ha⟩ := Envelope.exists_exactSumUpTo? hlimit v.width hcurrent hstart
  refine ⟨Envelope.toNat_sumUpTo hlimit v.width hcurrent hstart, ?_⟩
  rw [ha, Envelope.eq_of_exactSumUpTo? ha]

-- Below the greatest limit the place value overflows.
example : (Valuation.blank 70).exactNatUpTo? 0xffffffffffffffff = none := by decide

/-- Seventy bits, of which the highest one alone is set. -/
def Valuation.topOfSeventy : Valuation :=
  (Mutation.commit.run
    ((Mutation.writeBit 69 true).run (blank 70) (Draws.start [] 0)).2.1 (Draws.start [] 0)).2.1

/-- The scan reaches a limit of one hundred with the sum still zero. -/
theorem Reachable.natUpTo_saturates_topOfSeventy :
    Reachable 70 Valuation.topOfSeventy ∧ Valuation.topOfSeventy.current.toNat = 2 ^ 69 ∧
      (Valuation.topOfSeventy.natUpTo 100).toNat = 100 ∧
      Valuation.topOfSeventy.exactNatUpTo? 100 = some (Valuation.topOfSeventy.natUpTo 100) := by
  have hreachable : Reachable 70 Valuation.topOfSeventy :=
    .run (.run .blank (.writeBit 69 true) trivial _) .commit trivial _
  have hcurrent : Valuation.topOfSeventy.current.toNat = 2 ^ 69 := by decide
  have hlimit : (100 : UInt64).toNat < (UInt64.size - 1) / 2 := by decide
  obtain ⟨hvalue, hexact⟩ := hreachable.natUpTo_saturates hlimit
  refine ⟨hreachable, hcurrent, ?_, hexact⟩
  rw [hvalue, hcurrent]
  decide

end BitEnvelope
