import BitEnvelope.Word

/-!
# Word lists as numbers

A list of words stands for a number, its first word being the least significant. `toNat` is that
number and `ofNat` writes a number into a given count of words; `compare` orders two lists of one
length as the numbers they stand for.
-/

namespace BitEnvelope.Words

attribute [local instance (high)] instPowNat

/-- The number that the words stand for, least significant word first. -/
def toNat : List Word → Nat
  | [] => 0
  | w :: ws => w.toNat + 2 ^ (32 : Nat) * toNat ws

/-- The number `m` modulo `2 ^ (32 * n)`, in `n` words. -/
def ofNat : Nat → Nat → List Word
  | 0, _ => []
  | n + 1, m => BitVec.ofNat 32 m :: ofNat n (m / 2 ^ (32 : Nat))

/-- The order of the numbers that two lists of one length stand for: the most significant words
that differ decide. -/
def compare : List Word → List Word → Ordering
  | a :: as, b :: bs => (compare as bs).then (Ord.compare a.toNat b.toNat)
  | _, _ => .eq

/-- The words `ws` written over the first words of `out`. The rest of `out` stays, and so does its
length: words that do not fit are dropped. -/
def overwrite (out ws : List Word) : List Word :=
  (ws ++ out.drop ws.length).take out.length

/-! ## Laws -/

theorem toNat_lt (ws : List Word) : toNat ws < 2 ^ (32 * ws.length) := by
  induction ws with
  | nil => simp [toNat]
  | cons w ws ih =>
    have hw := w.isLt
    rw [toNat, List.length_cons, Nat.mul_succ, Nat.pow_add]
    generalize 2 ^ (32 * ws.length) = b at *
    omega

theorem toNat_append (as bs : List Word) :
    toNat (as ++ bs) = toNat as + 2 ^ (32 * as.length) * toNat bs := by
  induction as with
  | nil => simp [toNat]
  | cons a as ih =>
    rw [List.cons_append, toNat, ih, toNat, List.length_cons, Nat.mul_succ,
      Nat.add_comm (32 * as.length), Nat.pow_add, Nat.mul_add, Nat.mul_assoc, Nat.add_assoc]

@[simp] theorem toNat_replicate_zero (n : Nat) : toNat (List.replicate n 0) = 0 := by
  induction n with
  | zero => rfl
  | succ n ih =>
    rw [List.replicate_succ, toNat, ih]
    rfl

/-- Bit `i` of the number is bit `i % 32` of word `i / 32`. -/
theorem testBit_toNat (ws : List Word) (i : Nat) :
    (toNat ws).testBit i = (ws.getD (i / 32) 0).getLsbD (i % 32) := by
  induction ws generalizing i with
  | nil => simp [toNat]
  | cons w ws ih =>
    rw [toNat, Nat.add_comm, Nat.testBit_two_pow_mul_add _ w.isLt]
    by_cases h : i < 32
    · simp [h, Nat.div_eq_of_lt h, Nat.mod_eq_of_lt h, BitVec.getLsbD]
    · obtain ⟨k, rfl⟩ := Nat.exists_eq_add_of_le (Nat.le_of_not_lt h)
      have hd : (32 + k) / 32 = k / 32 + 1 := by omega
      have hm : (32 + k) % 32 = k % 32 := by omega
      rw [if_neg h, Nat.add_sub_cancel_left, ih, hd, hm]
      simp

@[simp] theorem length_ofNat (n m : Nat) : (ofNat n m).length = n := by
  induction n generalizing m with
  | zero => rfl
  | succ n ih => simp [ofNat, ih]

theorem toNat_ofNat (n m : Nat) : toNat (ofNat n m) = m % 2 ^ (32 * n) := by
  induction n generalizing m with
  | zero => simp [ofNat, toNat, Nat.mod_one]
  | succ n ih =>
    rw [ofNat, toNat, ih, BitVec.toNat_ofNat, Nat.mul_succ, Nat.add_comm (32 * n) 32, Nat.pow_add,
      Nat.mod_mul]

/-- Two lists of one length that stand for one number are equal. -/
theorem eq_of_toNat_eq {as bs : List Word} (hlength : as.length = bs.length)
    (h : toNat as = toNat bs) : as = bs := by
  induction as generalizing bs with
  | nil => exact (List.length_eq_zero_iff.mp hlength.symm).symm
  | cons a as ih =>
    cases bs with
    | nil => cases hlength
    | cons b bs =>
      have ha := a.isLt
      have hb := b.isLt
      rw [toNat, toNat] at h
      have hword : a = b := BitVec.eq_of_toNat_eq (by omega)
      have hrest : as = bs := ih (Nat.succ.inj hlength) (by omega)
      rw [hword, hrest]

@[simp] theorem length_overwrite (out ws : List Word) :
    (overwrite out ws).length = out.length := by
  simp only [overwrite, List.length_take, List.length_append, List.length_drop]
  omega

theorem overwrite_eq_append {out ws : List Word} (h : ws.length ≤ out.length) :
    overwrite out ws = ws ++ out.drop ws.length := by
  apply List.take_of_length_le
  simp only [List.length_append, List.length_drop]
  omega

/-- What is written is read back. -/
theorem take_overwrite {out ws : List Word} {n : Nat} (hws : ws.length = n) (h : n ≤ out.length) :
    (overwrite out ws).take n = ws := by
  rw [overwrite_eq_append (hws ▸ h), List.take_left' hws]

/-- What lies beyond the words that are written stays. -/
theorem drop_overwrite {out ws : List Word} {n : Nat} (hws : ws.length = n) (h : n ≤ out.length) :
    (overwrite out ws).drop n = out.drop n := by
  rw [overwrite_eq_append (hws ▸ h), List.drop_left' hws, hws]

/-- The order of two lists of one length is the order of their numbers. -/
theorem compare_eq_compare_toNat {as bs : List Word} (h : as.length = bs.length) :
    compare as bs = Ord.compare (toNat as) (toNat bs) := by
  induction as generalizing bs with
  | nil =>
    cases bs with
    | nil => rfl
    | cons => cases h
  | cons a as ih =>
    cases bs with
    | nil => cases h
    | cons b bs =>
      have ha := a.isLt
      have hb := b.isLt
      rw [compare, ih (Nat.succ.inj h), toNat, toNat]
      rcases Nat.lt_trichotomy (toNat as) (toNat bs) with hl | he | hg
      · have : a.toNat + 2 ^ 32 * toNat as < b.toNat + 2 ^ 32 * toNat bs := by omega
        rw [Nat.compare_eq_lt.2 hl, Nat.compare_eq_lt.2 this]
        rfl
      · rw [he, Nat.compare_eq_eq.2 rfl]
        simp [Nat.compare_eq_ite_lt]
      · have : b.toNat + 2 ^ 32 * toNat bs < a.toNat + 2 ^ 32 * toNat as := by omega
        rw [Nat.compare_eq_gt.2 hg, Nat.compare_eq_gt.2 this]
        rfl

end BitEnvelope.Words
