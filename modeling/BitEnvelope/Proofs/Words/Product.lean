import BitEnvelope.Words.Product
import Mathlib.Tactic.Ring

/-!
# Products of word lists, exactly

A row adds the multiple of one list by a word to the words from its place on. The carry into a
place is less than `2 ^ 32`, so the sum at each place just fits in sixty-four bits and nothing is
lost. The invariant of the rows is about a window of as many words as the second operand has: the
words below it are done, those above it have not been read, and the number in it is what the rows
before have carried up.
-/

namespace BitEnvelope.Words

/-! ## One place -/

/-- What meets at one place of a row. -/
structure Place where
  x : Word
  y : Word
  /-- The word that the place holds before. -/
  acc : Word
  carry : BitVec 64
deriving DecidableEq, Repr

/-- The sum at a place, as a number of any size. -/
def Place.sum (p : Place) : Nat := p.x.toNat * p.y.toNat + p.acc.toNat + p.carry.toNat

/-- The sum at a place, as it is computed in sixty-four bits. -/
def Place.total (p : Place) : BitVec 64 := mulStep p.x p.y p.acc p.carry

namespace Place

variable {p : Place}

/-- Two full words and the square of a full word leave nothing of sixty-four bits. -/
theorem sum_le (h : p.carry.toNat < 2 ^ 32) : p.sum ≤ 2 ^ 64 - 1 := by
  have hx := p.x.isLt
  have hy := p.y.isLt
  have hacc := p.acc.isLt
  have hproduct : p.x.toNat * p.y.toNat ≤ (2 ^ 32 - 1) * (2 ^ 32 - 1) :=
    Nat.mul_le_mul (Nat.le_sub_one_of_lt hx) (Nat.le_sub_one_of_lt hy)
  rw [sum]
  omega

theorem toNat_total (h : p.carry.toNat < 2 ^ 32) : p.total.toNat = p.sum := by
  have hsum := sum_le h
  have hx := p.x.isLt
  have hy := p.y.isLt
  have hacc := p.acc.isLt
  rw [sum] at hsum ⊢
  rw [total, mulStep, BitVec.toNat_add, BitVec.toNat_add, BitVec.toNat_mul,
    BitVec.toNat_setWidth, BitVec.toNat_setWidth, BitVec.toNat_setWidth,
    Nat.mod_eq_of_lt (show p.x.toNat < 2 ^ 64 by omega),
    Nat.mod_eq_of_lt (show p.y.toNat < 2 ^ 64 by omega),
    Nat.mod_eq_of_lt (show p.acc.toNat < 2 ^ 64 by omega)]
  generalize p.x.toNat * p.y.toNat = product at *
  omega

/-- The word that stays and the carry that leaves make up the sum. -/
theorem word_add_carry (h : p.carry.toNat < 2 ^ 32) :
    (p.total.setWidth 32).toNat + 2 ^ 32 * (p.total >>> 32).toNat = p.sum := by
  rw [BitVec.toNat_setWidth, BitVec.toNat_ushiftRight, Nat.shiftRight_eq_div_pow, toNat_total h]
  exact Nat.mod_add_div p.sum (2 ^ 32)

theorem carry_lt (p : Place) : (p.total >>> 32).toNat < 2 ^ 32 := by
  have htotal := p.total.isLt
  rw [BitVec.toNat_ushiftRight, Nat.shiftRight_eq_div_pow]
  omega

end Place

/-! ## The places of a run -/

/-- The places that a row goes through. -/
def rowPlaces (x : Word) : BitVec 64 → List Word → List Word → List Place
  | carry, y :: ys, acc :: accs =>
    let p : Place := { x, y, acc, carry }
    p :: rowPlaces x (p.total >>> 32) ys accs
  | _, _, _ => []

/-- The carry that leaves the last of the places, or `carry` if there are none. -/
def carryOut : BitVec 64 → List Place → BitVec 64
  | carry, [] => carry
  | _, p :: ps => carryOut (p.total >>> 32) ps

/-- The places that the rows of all words `xs` go through, row by row. -/
def places : List Word → List Word → List Word → List Place
  | [], _, _ => []
  | x :: xs, ys, accs => rowPlaces x 0 ys accs ++ places xs ys (mulRow x 0 ys accs).tail

section Row

variable {x w : Word} {carry : BitVec 64} {ys accs rest low : List Word}

@[simp] theorem length_mulRow : (mulRow x carry ys accs).length = accs.length := by
  induction accs generalizing carry ys with
  | nil => cases ys <;> rfl
  | cons acc accs ih =>
      cases ys with
      | nil => rfl
      | cons y ys => exact congrArg Nat.succ ih

/-- What a row writes can be read off its places: the low half of the total at each of them, and
then the carry that leaves the last one. The words beyond stay. -/
theorem mulRow_eq_places (h : ys.length < accs.length) :
    mulRow x carry ys accs =
      (rowPlaces x carry ys accs).map (fun p => p.total.setWidth 32) ++
        (carryOut carry (rowPlaces x carry ys accs)).setWidth 32 :: accs.drop (ys.length + 1) := by
  induction ys generalizing carry accs with
  | nil =>
      cases accs with
      | nil => exact absurd h (Nat.not_lt_zero _)
      | cons acc accs => rfl
  | cons y ys ih =>
      cases accs with
      | nil => exact absurd h (Nat.not_lt_zero _)
      | cons acc accs => exact congrArg (List.cons _) (ih (Nat.lt_of_succ_lt_succ h))

/-- A row does not read beyond the word that takes its last carry. -/
theorem mulRow_append (h : ys.length < accs.length) :
    mulRow x carry ys (accs ++ rest) = mulRow x carry ys accs ++ rest := by
  induction accs generalizing carry ys with
  | nil => exact absurd h (Nat.not_lt_zero _)
  | cons acc accs ih =>
      cases ys with
      | nil => rfl
      | cons y ys => exact congrArg (List.cons _) (ih (Nat.lt_of_succ_lt_succ h))

/-- A row adds its multiple to the words below the one that takes its last carry. What that one
held is lost. -/
theorem toNat_mulRow (hcarry : carry.toNat < 2 ^ 32) (hlow : low.length = ys.length) :
    toNat (mulRow x carry ys (low ++ [w])) = x.toNat * toNat ys + toNat low + carry.toNat := by
  induction low generalizing carry ys with
  | nil =>
      obtain rfl := List.length_eq_zero_iff.mp hlow.symm
      change (carry.setWidth 32).toNat + 2 ^ 32 * 0 = x.toNat * 0 + 0 + carry.toNat
      rw [BitVec.toNat_setWidth, Nat.mod_eq_of_lt hcarry]
      omega
  | cons acc low ih =>
      cases ys with
      | nil => cases hlow
      | cons y ys =>
          let p : Place := { x, y, acc, carry }
          have hplace : (p.total.setWidth 32).toNat + 2 ^ 32 * (p.total >>> 32).toNat =
              x.toNat * y.toNat + acc.toNat + carry.toNat := p.word_add_carry hcarry
          have hrest := ih p.carry_lt (Nat.succ.inj hlow)
          calc toNat (mulRow x carry (y :: ys) (acc :: low ++ [w]))
              = (p.total.setWidth 32).toNat +
                  2 ^ 32 * toNat (mulRow x (p.total >>> 32) ys (low ++ [w])) := rfl
            _ = x.toNat * y.toNat + acc.toNat + carry.toNat +
                  2 ^ 32 * (x.toNat * toNat ys + toNat low) := by
                rw [hrest, ← hplace]
                ring
            _ = x.toNat * toNat (y :: ys) + toNat (acc :: low) + carry.toNat := by
                rw [toNat, toNat]
                ring

theorem rowPlaces_sum_le (hcarry : carry.toNat < 2 ^ 32) :
    ∀ p ∈ rowPlaces x carry ys accs, p.sum ≤ 2 ^ 64 - 1 ∧ p.total.toNat = p.sum := by
  induction accs generalizing carry ys with
  | nil =>
      intro p hp
      cases ys <;> cases hp
  | cons acc accs ih =>
      cases ys with
      | nil =>
          intro p hp
          cases hp
      | cons y ys =>
          intro p hp
          rcases List.mem_cons.mp hp with rfl | hp
          · exact ⟨Place.sum_le hcarry, Place.toNat_total hcarry⟩
          · exact ih (Place.carry_lt _) p hp

/-- A row goes through every word of the second operand. -/
theorem rowPlaces_factors (h : ys.length ≤ accs.length) :
    (rowPlaces x carry ys accs).map (fun p => (p.x, p.y)) = ys.map fun y => (x, y) := by
  induction ys generalizing carry accs with
  | nil => cases accs <;> rfl
  | cons y ys ih =>
      cases accs with
      | nil => exact absurd h (Nat.not_succ_le_zero _)
      | cons acc accs => exact congrArg (List.cons _) (ih (Nat.le_of_succ_le_succ h))

end Row

section Rows

variable {xs ys accs rest low mid : List Word}

theorem exists_mulRow_eq_cons (x : Word) (ys : List Word) {accs : List Word}
    (h : 0 < accs.length) :
    ∃ w rest, mulRow x 0 ys accs = w :: rest ∧ rest.length + 1 = accs.length := by
  have hlength : (mulRow x 0 ys accs).length = accs.length := length_mulRow
  obtain ⟨w, rest, hrow⟩ := List.exists_cons_of_length_pos (hlength.symm ▸ h)
  rw [hrow] at hlength
  exact ⟨w, rest, hrow, hlength⟩

theorem mulRows_cons {x w : Word} (h : mulRow x 0 ys accs = w :: rest) :
    mulRows (x :: xs) ys accs = w :: mulRows xs ys rest := by
  rw [mulRows, h]

@[simp] theorem length_mulRows : (mulRows xs ys accs).length = accs.length := by
  induction xs generalizing accs with
  | nil => rfl
  | cons x xs ih =>
      cases accs with
      | nil => cases ys <;> rfl
      | cons acc accs =>
          have hpos : 0 < (acc :: accs).length := Nat.succ_pos _
          obtain ⟨w, rest, hrow, hlength⟩ := exists_mulRow_eq_cons x ys hpos
          rw [mulRows_cons hrow, List.length_cons, ih, hlength]

/-- The rows do not read beyond the words of the product. -/
theorem mulRows_append (h : xs.length + ys.length ≤ accs.length) :
    mulRows xs ys (accs ++ rest) = mulRows xs ys accs ++ rest := by
  induction xs generalizing accs with
  | nil => rfl
  | cons x xs ih =>
      rw [List.length_cons] at h
      have hpos : 0 < accs.length := by omega
      obtain ⟨w, done, hrow, hlength⟩ := exists_mulRow_eq_cons x ys hpos
      have hwhole : mulRow x 0 ys (accs ++ rest) = w :: (done ++ rest) := by
        rw [mulRow_append (by omega), hrow, List.cons_append]
      rw [mulRows_cons hwhole, mulRows_cons hrow, ih (by omega), List.cons_append]

/-- The rows add the product to the window of words that the first row starts from. The words
above it take the carries, whatever they held. -/
theorem toNat_mulRows (hlow : low.length = ys.length) (hmid : mid.length = xs.length) :
    toNat (mulRows xs ys (low ++ mid)) = toNat xs * toNat ys + toNat low := by
  induction xs generalizing low mid with
  | nil =>
      obtain rfl := List.length_eq_zero_iff.mp hmid
      rw [mulRows, List.append_nil, toNat, Nat.zero_mul, Nat.zero_add]
  | cons x xs ih =>
      cases mid with
      | nil => cases hmid
      | cons w mid =>
          have hpos : 0 < (low ++ [w]).length := by simp
          obtain ⟨first, window, hrow, hlength⟩ := exists_mulRow_eq_cons x ys hpos
          rw [List.length_append, List.length_singleton] at hlength
          have hwhole : mulRow x 0 ys (low ++ w :: mid) = first :: (window ++ mid) := by
            rw [List.append_cons, mulRow_append (by simp [hlow]), hrow, List.cons_append]
          have hvalue : first.toNat + 2 ^ 32 * toNat window = x.toNat * toNat ys + toNat low := by
            rw [← toNat, ← hrow]
            exact toNat_mulRow (by decide) hlow
          calc toNat (mulRows (x :: xs) ys (low ++ w :: mid))
              = first.toNat + 2 ^ 32 * (toNat xs * toNat ys + toNat window) := by
                rw [mulRows_cons hwhole, toNat, ih (by omega) (Nat.succ.inj hmid)]
            _ = x.toNat * toNat ys + toNat low + 2 ^ 32 * (toNat xs * toNat ys) := by
                rw [← hvalue]
                ring
            _ = toNat (x :: xs) * toNat ys + toNat low := by
                rw [toNat]
                ring

theorem places_sum_le :
    ∀ p ∈ places xs ys accs, p.sum ≤ 2 ^ 64 - 1 ∧ p.total.toNat = p.sum := by
  induction xs generalizing accs with
  | nil =>
      intro p hp
      cases hp
  | cons x xs ih =>
      intro p hp
      rcases List.mem_append.mp hp with hp | hp
      · exact rowPlaces_sum_le (by decide) p hp
      · exact ih p hp

/-- The rows go through every pair of words of the two operands. -/
theorem places_factors (h : xs.length + ys.length ≤ accs.length) :
    (places xs ys accs).map (fun p => (p.x, p.y)) =
      xs.flatMap fun x => ys.map fun y => (x, y) := by
  induction xs generalizing accs with
  | nil => rfl
  | cons x xs ih =>
      rw [List.length_cons] at h
      have hrest : xs.length + ys.length ≤ (mulRow x 0 ys accs).tail.length := by
        rw [List.length_tail, length_mulRow]
        omega
      rw [places, List.map_append, rowPlaces_factors (by omega), ih hrest, List.flatMap_cons]

end Rows

/-! ## Products -/

section Product

variable {n : Nat} {a b out : List Word}

theorem toNat_mul (ha : a.length = n) (hb : b.length = n) :
    toNat (mul a b) = toNat a * toNat b := by
  have hzero : List.replicate (2 * a.length) (0 : Word) =
      List.replicate n 0 ++ List.replicate n 0 := by
    rw [List.replicate_append_replicate, ha, Nat.two_mul]
  rw [mul, hzero, toNat_mulRows (by simp [hb]) (by simp [ha]), toNat_replicate_zero, Nat.add_zero]

theorem length_mul (ha : a.length = n) : (mul a b).length = 2 * n := by
  rw [mul, length_mulRows, List.length_replicate, ha]

/-- The product in place is the product beside which the rest of the destination stays. -/
theorem mulInto_eq_append (ha : a.length = n) (hb : b.length = n) (hout : 2 * n ≤ out.length) :
    mulInto a b out = mul a b ++ out.drop (2 * n) := by
  have hfit : (List.replicate (2 * a.length) (0 : Word)).length ≤ out.length := by simp [ha, hout]
  rw [mulInto, overwrite_eq_append hfit, mulRows_append (by simp [ha, hb, Nat.two_mul]), mul]
  simp [ha]

/-- The places that the product in place goes through. -/
def placesInto (a b out : List Word) : List Place :=
  places a b (overwrite out (List.replicate (2 * a.length) 0))

/-- The product in place is exact, whatever the destination held, and the words beyond it stay. Each
pair of words meets at one place, where the sum of their product, the word that is there and the
carry fits in sixty-four bits. -/
theorem mulInto_exact (ha : a.length = n) (hb : b.length = n) (hout : 2 * n ≤ out.length) :
    (toNat ((mulInto a b out).take (2 * n)) = toNat a * toNat b ∧
      ∀ out', 2 * n ≤ out'.length →
        (mulInto a b out').take (2 * n) = (mulInto a b out).take (2 * n)) ∧
    ((mulInto a b out).drop (2 * n) = out.drop (2 * n) ∧
      (mulInto a b out).length = out.length) ∧
    (placesInto a b out).map (fun p => (p.x, p.y)) = (a.flatMap fun x => b.map fun y => (x, y)) ∧
    ∀ p ∈ placesInto a b out, p.sum ≤ 2 ^ 64 - 1 ∧ p.total.toNat = p.sum := by
  have hlength : (mul a b).length = 2 * n := length_mul ha
  have htake : ∀ out', 2 * n ≤ out'.length → (mulInto a b out').take (2 * n) = mul a b :=
    fun out' hout' => by rw [mulInto_eq_append ha hb hout', List.take_left' hlength]
  refine ⟨⟨?_, fun out' hout' => ?_⟩, ⟨?_, ?_⟩, ?_, places_sum_le⟩
  · rw [htake out hout, toNat_mul ha hb]
  · rw [htake out' hout', htake out hout]
  · rw [mulInto_eq_append ha hb hout, List.drop_left' hlength]
  · rw [mulInto, length_mulRows, length_overwrite]
  · exact places_factors (by rw [length_overwrite]; omega)

/-- The square of three full words, over seven words that were used before. At one place the sum is
the largest number of sixty-four bits. -/
theorem mulInto_exact_full :
    mulInto [-1, -1, -1] [-1, -1, -1] (List.replicate 7 5) = [1, 0, 0, -2, -1, -1, 5] ∧
      toNat [1, 0, 0, -2, -1, -1] = (2 ^ 96 - 1) * (2 ^ 96 - 1) ∧
      (∀ p ∈ placesInto [-1, -1, -1] [-1, -1, -1] (List.replicate 7 5), p.sum ≤ 2 ^ 64 - 1) ∧
      { x := -1, y := -1, acc := -1, carry := 0xffffffff } ∈
        placesInto [-1, -1, -1] [-1, -1, -1] (List.replicate 7 5) ∧
      Place.sum { x := -1, y := -1, acc := -1, carry := 0xffffffff } = 2 ^ 64 - 1 := by
  have hproduct : mulInto [-1, -1, -1] [-1, -1, -1] (List.replicate 7 5) =
      [1, 0, 0, -2, -1, -1, 5] := by
    decide
  obtain ⟨⟨hexact, -⟩, -, -, hplaces⟩ :=
    mulInto_exact (n := 3) (a := [-1, -1, -1]) (b := [-1, -1, -1]) rfl rfl
      (show 2 * 3 ≤ (List.replicate 7 (5 : Word)).length by decide)
  rw [hproduct] at hexact
  exact ⟨hproduct, hexact, fun p hp => (hplaces p hp).1, by decide, by decide⟩

end Product

end BitEnvelope.Words
