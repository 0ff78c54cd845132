import BitEnvelope.Checked.Envelope
import BitEnvelope.Proofs.Envelope.Alike
import BitEnvelope.Proofs.Envelope.Sweep
import Mathlib.Data.List.Chain
import Mathlib.Data.List.Nodup

/-!
# The trail of a sweep

A sweep goes over all positions, also over pinned ones and over bits that need no move, and it does
not test its goal after the last of them. What it walks along is a plain list all the same: the
value it starts from, and what becomes of it as its free bits that need a move are moved one after
the other. A sweep ends at the first value of this trail at which its goal holds, and at the last
value if it holds at none.

Downward the last value is the least number with the same pinned bits, upward the greatest. So a
bound can be reached if and only if that number reaches it.
-/

namespace BitEnvelope

/-- The first of the elements at which `p` holds, or the last one if it holds at none. -/
def firstOrLast? {α : Type} (p : α → Bool) (xs : List α) : Option α :=
  (xs.find? p).or xs.getLast?

section FirstOrLast

variable {α : Type} {p : α → Bool} {x : α} {xs : List α}

theorem firstOrLast?_cons_of_pos (h : p x = true) : firstOrLast? p (x :: xs) = some x := by
  rw [firstOrLast?, List.find?_cons_of_pos h]
  rfl

theorem firstOrLast?_cons_of_neg (h : p x = false) (hxs : xs ≠ []) :
    firstOrLast? p (x :: xs) = firstOrLast? p xs := by
  rw [firstOrLast?, firstOrLast?, List.find?_cons_of_neg (by simp [h]),
    List.getLast?_cons_of_ne_nil hxs]

/-- At the element that is picked, `p` holds if it holds at any of them. -/
theorem holds_firstOrLast?_iff (h : firstOrLast? p xs = some x) :
    p x = true ↔ ∃ y ∈ xs, p y = true := by
  rw [firstOrLast?] at h
  cases hfound : xs.find? p with
  | some y =>
      rw [hfound, Option.some_or, Option.some.injEq] at h
      subst h
      have hy := List.find?_some hfound
      exact iff_of_true hy ⟨y, List.mem_of_find?_eq_some hfound, hy⟩
  | none =>
      have hfails := List.find?_eq_none.mp hfound
      rw [hfound, Option.none_or] at h
      refine iff_of_false (hfails x (List.mem_of_getLast? h)) ?_
      rintro ⟨y, hy, hholds⟩
      exact hfails y hy hholds

end FirstOrLast

/-- Writing a bit that a value does not have leads in the direction of that bit. -/
theorem Packed.Spans.turnsTo_setBit {x : Packed} {w i : Nat} {b : Bool} (hx : x.Spans w)
    (hi : i < w) (h : x.bit i ≠ b) : TurnsTo b x.toNat (x.setBit i b).toNat := by
  have hy : (x.setBit i b).Spans w := hx.of_shape (shape_setBit x i b)
  have hwords := lt_words_of_lt hi
  have hset := bit_setBit x (hx.lt_capacity hwords) b
  refine ⟨i, ?_, ?_, fun j hj => ?_⟩
  · rw [hx.testBit_toNat, decide_eq_true hwords, Bool.true_and]
    exact Bool.eq_not_of_ne h
  · rw [hy.testBit_toNat, decide_eq_true hwords, Bool.true_and, hset, if_pos rfl]
  · rw [hx.testBit_toNat, hy.testBit_toNat, hset, if_neg (Nat.ne_of_gt hj)]

namespace Envelope

/-- The free positions of the list whose bit in `x` is not `b`. -/
def movable (e : Envelope) (b : Bool) (is : List Nat) (x : Packed) : List Nat :=
  is.filter fun i => e.isFree i && x.bit i != b

/-- `x`, and what becomes of it as its movable bits move to `b` one after the other. -/
def trail (e : Envelope) (b : Bool) (is : List Nat) (x : Packed) : List Packed :=
  (e.movable b is x).scanl (fun y i => y.setBit i b) x

/-- `x` with its free set bits cleared one by one, from the highest to the lowest. -/
def descent (e : Envelope) (x : Packed) : List Packed :=
  e.trail false (List.range e.width).reverse x

/-- `x` with its free clear bits set one by one, from the lowest to the highest. -/
def ascent (e : Envelope) (x : Packed) : List Packed :=
  e.trail true (List.range e.width) x

variable {e : Envelope} {x bound : Packed} {b : Bool} {i m : Nat} {is : List Nat}
  {goal : Packed → Bool}

/-! ## Steps of a trail -/

theorem exists_trail_eq_cons (e : Envelope) (b : Bool) (is : List Nat) (x : Packed) :
    ∃ ys, e.trail b is x = x :: ys := by
  rw [trail]
  cases e.movable b is x with
  | nil => exact ⟨[], List.scanl_nil⟩
  | cons i js => exact ⟨_, List.scanl_cons⟩

theorem trail_ne_nil : e.trail b is x ≠ [] := List.scanl_ne_nil

theorem trail_cons_of_stays (h : (e.isFree i && x.bit i != b) = false) :
    e.trail b (i :: is) x = e.trail b is x := by
  have hrest : e.movable b (i :: is) x = e.movable b is x := by
    apply List.filter_cons_of_neg
    rw [h]
    exact Bool.false_ne_true
  rw [trail, trail, hrest]

/-- A bit that moves changes none of the others, so what is movable after it is so before it. -/
theorem trail_cons_of_moves (hi : i ∉ is) (h : (e.isFree i && x.bit i != b) = true) :
    e.trail b (i :: is) x = x :: e.trail b is (x.setBit i b) := by
  have hlater : e.movable b is (x.setBit i b) = e.movable b is x := by
    refine List.filter_congr fun j hj => ?_
    have hji : j ≠ i := fun heq => hi (heq ▸ hj)
    rw [Packed.bit_setBit_of_ne hji]
  have hfirst : e.movable b (i :: is) x = i :: e.movable b is x := List.filter_cons_of_pos h
  rw [trail, trail, hlater, hfirst, List.scanl_cons]

/-- A sweep ends at the first value of its trail at which its goal holds, or at the last one. -/
theorem firstOrLast?_trail (his : is.Nodup) :
    firstOrLast? goal (e.trail b is x) = some (e.sweep b goal is x) := by
  induction is generalizing x with
  | nil =>
      cases hgoal : goal x with
      | true => exact firstOrLast?_cons_of_pos hgoal
      | false => simp [trail, movable, firstOrLast?, sweep, hgoal]
  | cons i is ih =>
      obtain ⟨hi, his⟩ := List.nodup_cons.mp his
      cases hgoal : goal x with
      | true =>
          obtain ⟨ys, hys⟩ := exists_trail_eq_cons e b (i :: is) x
          rw [hys, sweep_of_goal hgoal]
          exact firstOrLast?_cons_of_pos hgoal
      | false =>
          rw [sweep, if_neg (by simp [hgoal])]
          split
          · rename_i hmoves
            rw [trail_cons_of_moves hi hmoves, firstOrLast?_cons_of_neg hgoal trail_ne_nil]
            exact ih his
          · rename_i hstays
            rw [trail_cons_of_stays (Bool.eq_false_of_not_eq_true hstays)]
            exact ih his

/-- Every step of a trail leads in the direction of the bit that is written. -/
theorem isChain_trail (hx : x.Spans e.width) (his : is.Nodup) (hlt : ∀ i ∈ is, i < e.width) :
    (e.trail b is x).IsChain fun y z => TurnsTo b y.toNat z.toNat := by
  induction is generalizing x with
  | nil => exact List.IsChain.singleton x
  | cons i is ih =>
      obtain ⟨hi, his⟩ := List.nodup_cons.mp his
      obtain ⟨hiw, hlt⟩ := List.forall_mem_cons.mp hlt
      cases hmoves : e.isFree i && x.bit i != b with
      | false =>
          rw [trail_cons_of_stays hmoves]
          exact ih hx his hlt
      | true =>
          have hy : (x.setBit i b).Spans e.width := hx.of_shape (Packed.shape_setBit x i b)
          have hrest := ih hy his hlt
          obtain ⟨ys, hys⟩ := exists_trail_eq_cons e b is (x.setBit i b)
          rw [trail_cons_of_moves hi hmoves]
          rw [hys] at hrest ⊢
          have hbit : x.bit i ≠ b := bne_iff_ne.mp (Bool.and_eq_true_iff.mp hmoves).2
          exact List.isChain_cons_cons.mpr ⟨hx.turnsTo_setBit hiw hbit, hrest⟩

/-! ## The whole way -/

/-- The numbers of the descent fall. -/
theorem pairwise_descent (hx : x.Spans e.width) :
    ((e.descent x).map Packed.toNat).Pairwise (· > ·) := by
  have hlt : ∀ i ∈ (List.range e.width).reverse, i < e.width := by simp
  have hchain := isChain_trail (b := false) hx (List.nodup_reverse.mpr List.nodup_range) hlt
  apply List.isChain_iff_pairwise.mp
  exact (List.isChain_map _).mpr (hchain.imp fun _ _ => TurnsTo.false_iff_lt.mp)

/-- The numbers of the ascent rise. -/
theorem pairwise_ascent (hx : x.Spans e.width) :
    ((e.ascent x).map Packed.toNat).Pairwise (· < ·) := by
  have hchain := isChain_trail (b := true) hx List.nodup_range fun i hi => List.mem_range.mp hi
  apply List.isChain_iff_pairwise.mp
  exact (List.isChain_map _).mpr (hchain.imp fun _ _ => TurnsTo.true_iff_lt.mp)

section Unsigned

variable (hsign : e.signedPrefix = 0)
include hsign

theorem firstOrLast?_descent (goal : Packed → Bool) (x : Packed) :
    firstOrLast? goal (e.descent x) = some (e.lowerUntil goal x) := by
  rw [lowerUntil, extendSign_of_signedPrefix_eq_zero hsign]
  exact firstOrLast?_trail (List.nodup_reverse.mpr List.nodup_range)

theorem firstOrLast?_ascent (goal : Packed → Bool) (x : Packed) :
    firstOrLast? goal (e.ascent x) = some (e.raiseUntil goal x) := by
  rw [raiseUntil, extendSign_of_signedPrefix_eq_zero hsign]
  exact firstOrLast?_trail List.nodup_range

variable (hx : x.Spans e.width) (hc : e.Completes x.toNat) (hbound : bound.Spans e.width)
include hx hc hbound

/-- Downward a bound is reached if the least completion lies at or below it. -/
theorem le_lowerUntil_iff (hm : IsLeast {n | e.Completes n} m) :
    (e.lowerUntil (·.le bound) x).le bound = true ↔ m ≤ bound.toNat := by
  have hend := hx.of_shape (shape_sweepDown e x (·.le bound))
  rw [lowerUntil, extendSign_of_signedPrefix_eq_zero hsign, hend.le_iff hbound]
  constructor
  · intro hle
    exact Nat.le_trans (hm.2 (completes_sweepDown hx hc)) hle
  · intro hle
    rcases goal_or_isLeast_sweepDown hx hc (·.le bound) with hgoal | hleast
    · exact (hend.le_iff hbound).mp hgoal
    · rw [hleast.unique hm]
      exact hle

/-- Upward a bound is reached if the greatest completion lies at or above it. -/
theorem le_raiseUntil_iff (hm : IsGreatest {n | e.Completes n} m) :
    bound.le (e.raiseUntil bound.le x) = true ↔ bound.toNat ≤ m := by
  have hend := hx.of_shape (shape_sweepUp e x bound.le)
  rw [raiseUntil, extendSign_of_signedPrefix_eq_zero hsign, hbound.le_iff hend]
  constructor
  · intro hle
    exact Nat.le_trans hle (hm.2 (completes_sweepUp hx hc))
  · intro hle
    rcases goal_or_isGreatest_sweepUp hx hc bound.le with hgoal | hgreatest
    · exact (hbound.le_iff hend).mp hgoal
    · rw [hgreatest.unique hm]
      exact hle

end Unsigned

/-- A value completes its own pinned bits. -/
theorem completes_withCurrent (hx : x.IsValue e.width) : (e.withCurrent x).Completes x.toNat :=
  ⟨hx.toNat_lt, fun _ hi _ => hx.testBit_of_lt hi⟩

/-! ## Checked sweeps -/

section Checked

variable (hx : x.Spans e.width)
include hx

theorem pinnedBeyond_of_spans : e.pinnedBeyond x = true := by
  have hnone : e.width - x.capacity = 0 :=
    Nat.sub_eq_zero_of_le (Packed.width_le_capacity hx.count_le)
  rw [pinnedBeyond, hnone]
  rfl

theorem checkedExtendSign_eq : e.checkedExtendSign x = .ok (e.extendSign x) := by
  have hspans : e.spans x = true := decide_eq_true hx.count_le
  rw [checkedExtendSign, hspans, Bool.or_true]
  rfl

variable {goal : Goal} (hgoal : e.checkGoal goal x = .ok ())
include hgoal

/-- Where the goal can be asked for, the sweep downward of a value that spans the envelope ends. -/
theorem checkedLowerUntil_eq :
    e.checkedLowerUntil goal x = .ok (e.lowerUntil (goal.holds e) x) := by
  rw [checkedLowerUntil, hgoal, pinnedBeyond_of_spans hx, Bool.or_true]
  exact checkedExtendSign_eq (hx.of_shape (shape_sweepDown e x _))

theorem checkedRaiseUntil_eq :
    e.checkedRaiseUntil goal x = .ok (e.raiseUntil (goal.holds e) x) := by
  rw [checkedRaiseUntil, hgoal]
  simp only [pinnedBeyond_of_spans hx, Bool.or_true]
  exact checkedExtendSign_eq (hx.of_shape (shape_sweepUp e x _))

end Checked

/-! ## Where a sweep ends -/

/-- Without a sign prefix, a sweep downward ends at the first value of its descent at which its goal
holds, or else at the last one, and a sweep upward at the first or last value of its ascent. So the
goal holds at the end if it holds anywhere on the way, where numbers fall or rise with every step. A
bound is reached if it is reached by the least or by the greatest number that has the pinned bits of
the value that the sweep starts from. Neither sweep fails where its goal can be asked for. -/
theorem sweeps_stop_at_first (hsign : e.signedPrefix = 0) (hx : x.IsValue e.width) :
    (∀ goal : Packed → Bool,
      (firstOrLast? goal (e.descent x) = some (e.lowerUntil goal x) ∧
        (goal (e.lowerUntil goal x) = true ↔ ∃ y ∈ e.descent x, goal y = true)) ∧
      firstOrLast? goal (e.ascent x) = some (e.raiseUntil goal x) ∧
        (goal (e.raiseUntil goal x) = true ↔ ∃ y ∈ e.ascent x, goal y = true)) ∧
    (((e.descent x).map Packed.toNat).Pairwise (· > ·) ∧
      ((e.ascent x).map Packed.toNat).Pairwise (· < ·)) ∧
    (∃ least greatest, IsLeast {n | (e.withCurrent x).Completes n} least ∧
      IsGreatest {n | (e.withCurrent x).Completes n} greatest ∧
      ∀ bound : Packed, bound.Spans e.width →
        ((e.lowerUntil (·.le bound) x).le bound = true ↔ least ≤ bound.toNat) ∧
        (bound.le (e.raiseUntil bound.le x) = true ↔ bound.toNat ≤ greatest)) ∧
    ∀ goal : Goal, e.checkGoal goal x = .ok () →
      e.checkedLowerUntil goal x = .ok (e.lowerUntil (goal.holds e) x) ∧
        e.checkedRaiseUntil goal x = .ok (e.raiseUntil (goal.holds e) x) := by
  have hspans := hx.toSpans
  refine ⟨fun goal => ?_, ⟨pairwise_descent hspans, pairwise_ascent hspans⟩, ?_,
    fun goal hgoal => ⟨checkedLowerUntil_eq hspans hgoal, checkedRaiseUntil_eq hspans hgoal⟩⟩
  · have hdown := firstOrLast?_descent hsign goal x
    have hup := firstOrLast?_ascent hsign goal x
    exact ⟨⟨hdown, holds_firstOrLast?_iff hdown⟩, hup, holds_firstOrLast?_iff hup⟩
  · -- The value is its own completion in the envelope whose pinned bits are those of the value.
    have hc := completes_withCurrent hx
    have hall : ∀ i, i ∈ List.range e.width ↔ i < e.width := by simp
    have hleast := isLeast_moveFree (e := e.withCurrent x) hspans hc hall
    have hgreatest := isGreatest_moveFree (e := e.withCurrent x) hspans hc hall
    refine ⟨_, _, hleast, hgreatest, fun bound hbound => ?_⟩
    rw [← lowerUntil_withCurrent e x, ← raiseUntil_withCurrent e x]
    exact ⟨le_lowerUntil_iff hsign hspans hc hbound hleast,
      le_raiseUntil_iff hsign hspans hc hbound hgreatest⟩

/-- Eight bits without a sign prefix, of which one is pinned. -/
def pinnedMiddle : Envelope :=
  { width := 8
    current := Packed.blank 8
    pins := ⟨8, [0xffffff10, 0]⟩
    lo := Packed.blank 8
    hi := Packed.blank 8
    signedPrefix := 0 }

/-- The way down from one hundred and eighty-five passes over its pinned bit and reaches twenty-four
at seventeen; the way up reaches one hundred and eighty-eight at one hundred and ninety-one. Fifteen
is not reached, because the pinned bit stays set. -/
theorem sweeps_stop_at_first_pinnedMiddle :
    let e := pinnedMiddle
    let x := Packed.ofNat 8 185
    let fifteen := Packed.ofNat 8 15
    let below := Packed.ofNat 8 24
    let above := Packed.ofNat 8 188
    (e.signedPrefix = 0 ∧ x.IsValue e.width ∧ fifteen.Spans e.width ∧ below.Spans e.width ∧
      e.checkGoal (.atMost below) x = .ok ()) ∧
    ((e.descent x).map Packed.toNat = [185, 57, 25, 17, 16] ∧
      (e.ascent x).map Packed.toNat = [185, 187, 191, 255]) ∧
    (firstOrLast? (·.le below) (e.descent x) = some (e.lowerUntil (·.le below) x) ∧
      (e.lowerUntil (·.le below) x).toNat = 17) ∧
    (above.le (e.raiseUntil above.le x) = true ∧ (e.raiseUntil above.le x).toNat = 191) ∧
    (∃ least, IsLeast {n | (e.withCurrent x).Completes n} least ∧
      fifteen.toNat < least ∧ least ≤ below.toNat) ∧
    e.checkedLowerUntil (.atMost below) x = .ok (e.lowerUntil (·.le below) x) := by
  intro e x fifteen below above
  have hx : x.IsValue e.width := ⟨⟨rfl, by decide⟩, by decide⟩
  have hfifteen : fifteen.Spans e.width := ⟨rfl, by decide⟩
  have hbelow : below.Spans e.width := ⟨rfl, by decide⟩
  have hgoal : e.checkGoal (.atMost below) x = .ok () := by decide
  have hreached : ∃ y ∈ e.ascent x, above.le y = true := by decide
  have hmissed : ¬ (e.lowerUntil (·.le fifteen) x).le fifteen = true := by decide
  obtain ⟨hfirst, -, ⟨least, greatest, hleast, -, hbounds⟩, hchecked⟩ :=
    sweeps_stop_at_first (e := e) rfl hx
  obtain ⟨⟨hdown, -⟩, -, -⟩ := hfirst (·.le below)
  obtain ⟨-, -, hup⟩ := hfirst above.le
  have hlow : least ≤ below.toNat := (hbounds below hbelow).1.mp (by decide)
  have hhigh : fifteen.toNat < least :=
    Nat.lt_of_not_le fun hle => hmissed ((hbounds fifteen hfifteen).1.mpr hle)
  exact ⟨⟨rfl, hx, hfifteen, hbelow, hgoal⟩, ⟨by decide, by decide⟩, ⟨hdown, by decide⟩,
    ⟨hup.mpr hreached, by decide⟩, ⟨least, hleast, hhigh, hlow⟩, (hchecked (.atMost below) hgoal).1⟩

end Envelope

end BitEnvelope
