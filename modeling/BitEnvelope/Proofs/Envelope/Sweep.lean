import BitEnvelope.Proofs.Envelope.Extremes
import BitEnvelope.Proofs.Envelope.Perturbation

/-!
# Sweeps

A sweep moves the free bits at the first positions of its list, as many as it takes until its goal
holds. It tests before each move, so it ends without a test after the last one: then every free bit
has been moved, and over all positions this makes the least or the greatest completion of the pins.
If an envelope whose interval wraps around has a value, one of these two lies outside the gap, so two
sweeps in opposite directions always leave it.
-/

namespace BitEnvelope.Envelope

variable {e : Envelope} {x : Packed} {b : Bool} {is : List Nat} {goal : Packed → Bool} {n : Nat}

/-! ## All free bits -/

section All

variable (hx : x.Spans e.width) (hc : e.Completes x.toNat)
include hx hc

/-- Free bits of a completion that lie below the width can be moved in any envelope. -/
theorem completes_moveFree_of_lt (his : ∀ i ∈ is, i < e.width) :
    e.Completes (e.moveFree b is x).toNat := by
  have hvalue : x.IsValue e.width := ⟨hx, hc.1⟩
  constructor
  · apply (hx.of_shape (shape_moveFree e x b is)).toNat_lt_of_bit
    intro i hi hwords
    rw [bit_moveFree hx his, if_neg fun h => Nat.not_lt.mpr hi (his i h.1)]
    exact hvalue.bit_of_le hi hwords
  · intro i hi hpin
    rw [testBit_moveFree hx his hi, hpin, if_neg fun h => Bool.false_ne_true h.2]
    exact hc.2 i hi hpin

variable (his : ∀ i, i ∈ is ↔ i < e.width)
include his

/-- Over all positions, a completion and the moved value differ at free positions only, where the
moved value has `b`. -/
theorem testBit_moveFree_all (hn : e.Completes n) {i : Nat} (hi : i < e.width) :
    (e.moveFree b is x).toNat.testBit i = if e.isFree i = true then b else n.testBit i := by
  rw [testBit_moveFree hx (fun j hj => (his j).mp hj) hi]
  cases hfree : e.isFree i with
  | true => rw [if_pos ⟨(his i).mpr hi, rfl⟩, if_pos rfl]
  | false =>
      simpa using hc.testBit_eq_of_pinned hn hfree

theorem isLeast_moveFree : IsLeast {n | e.Completes n} (e.moveFree false is x).toNat := by
  have hmoved := completes_moveFree_of_lt (b := false) hx hc fun i hi => (his i).mp hi
  refine ⟨hmoved, fun n hn => Nat.le_of_testBit fun i hi => ?_⟩
  rw [testBit_moveFree_all hx hc his hn (hmoved.lt_of_testBit hi)] at hi
  split at hi
  · cases hi
  · exact hi

theorem isGreatest_moveFree : IsGreatest {n | e.Completes n} (e.moveFree true is x).toNat := by
  have hmoved := completes_moveFree_of_lt (b := true) hx hc fun i hi => (his i).mp hi
  refine ⟨hmoved, fun n hn => Nat.le_of_testBit fun i hi => ?_⟩
  rw [testBit_moveFree_all hx hc his hn (hn.lt_of_testBit hi)]
  split
  · rfl
  · exact hi

end All

/-! ## One sweep -/

theorem sweep_of_goal (h : goal x = true) : e.sweep b goal is x = x := by
  cases is with
  | nil => rfl
  | cons i is => rw [sweep, if_pos h]

theorem goal_sweep_of_goal (h : goal x = true) : goal (e.sweep b goal is x) = true := by
  rw [sweep_of_goal h]
  exact h

/-- One step of a sweep whose goal does not hold yet. -/
theorem sweep_cons_of_not_goal {i : Nat} (h : goal x = false) :
    e.sweep b goal (i :: is) x = e.sweep b goal is (e.moveFree b [i] x) := by
  rw [sweep, if_neg (Bool.not_eq_true _ ▸ h)]
  congr 1
  cases hfree : e.isFree i with
  | false => simp [moveFree, hfree, Packed.setBits]
  | true =>
      by_cases hbit : x.bit i = b
      · subst hbit
        simp [moveFree, hfree, Packed.setBits, Packed.setBit_bit]
      · simp [moveFree, hfree, Packed.setBits, hbit]

/-- A sweep moves the free bits at the first positions of its list. It stops before the first
position at which its goal holds, and without a test after the last one. -/
theorem exists_sweep_eq (e : Envelope) (b : Bool) (goal : Packed → Bool) (is : List Nat)
    (x : Packed) :
    ∃ k ≤ is.length, e.sweep b goal is x = e.moveFree b (is.take k) x ∧
      (goal (e.moveFree b (is.take k) x) = true ∨ k = is.length) ∧
      ∀ j < k, goal (e.moveFree b (is.take j) x) = false := by
  induction is generalizing x with
  | nil => exact ⟨0, Nat.le_refl 0, rfl, .inr rfl, fun j hj => absurd hj (Nat.not_lt_zero j)⟩
  | cons i is ih =>
      cases hgoal : goal x with
      | true =>
          exact ⟨0, Nat.zero_le _, sweep_of_goal hgoal, .inl hgoal,
            fun j hj => absurd hj (Nat.not_lt_zero j)⟩
      | false =>
          have hmoved : ∀ j, e.moveFree b ((i :: is).take (j + 1)) x =
              e.moveFree b (is.take j) (e.moveFree b [i] x) := fun j =>
            e.moveFree_append x b [i] (is.take j)
          obtain ⟨k, hk, heq, hstop, hbefore⟩ := ih (e.moveFree b [i] x)
          refine ⟨k + 1, Nat.succ_le_succ hk, ?_, ?_, fun j hj => ?_⟩
          · rw [sweep_cons_of_not_goal hgoal, heq, hmoved]
          · rw [hmoved]
            exact hstop.imp_right (congrArg Nat.succ)
          · cases j with
            | zero => exact hgoal
            | succ j =>
                rw [hmoved]
                exact hbefore j (Nat.lt_of_succ_lt_succ hj)

/-- A sweep ends at its goal or has moved every free bit. -/
theorem goal_sweep_or_eq : goal (e.sweep b goal is x) = true ∨
    e.sweep b goal is x = e.moveFree b is x := by
  obtain ⟨k, -, heq, hstop, -⟩ := exists_sweep_eq e b goal is x
  rw [heq]
  exact hstop.imp_right fun hk => by rw [hk, List.take_length]

section Completions

variable (hx : x.Spans e.width) (hc : e.Completes x.toNat)
include hx hc

theorem completes_sweep (his : ∀ i ∈ is, i < e.width) :
    e.Completes (e.sweep b goal is x).toNat := by
  obtain ⟨k, -, heq, -⟩ := exists_sweep_eq e b goal is x
  rw [heq]
  exact completes_moveFree_of_lt hx hc fun i hi => his i (List.mem_of_mem_take hi)

theorem completes_sweepDown : e.Completes (e.sweepDown goal x).toNat :=
  completes_sweep hx hc (by simp)

theorem completes_sweepUp : e.Completes (e.sweepUp goal x).toNat :=
  completes_sweep hx hc (by simp)

/-- A sweep downward ends at its goal or at the least completion. -/
theorem goal_or_isLeast_sweepDown (goal : Packed → Bool) :
    goal (e.sweepDown goal x) = true ∨
      IsLeast {n | e.Completes n} (e.sweepDown goal x).toNat := by
  refine goal_sweep_or_eq.imp_right fun heq => ?_
  rw [sweepDown, heq]
  exact isLeast_moveFree hx hc (by simp)

/-- A sweep upward ends at its goal or at the greatest completion. -/
theorem goal_or_isGreatest_sweepUp (goal : Packed → Bool) :
    goal (e.sweepUp goal x) = true ∨
      IsGreatest {n | e.Completes n} (e.sweepUp goal x).toNat := by
  refine goal_sweep_or_eq.imp_right fun heq => ?_
  rw [sweepUp, heq]
  exact isGreatest_moveFree hx hc (by simp)

end Completions

/-! ## Sweeps into the interval -/

theorem completes_sweepIntoRange (hx : x.Spans e.width) (hc : e.Completes x.toNat)
    (downFirst : Bool) : e.Completes (e.sweepIntoRange downFirst x).toNat := by
  have hdownUp : ∀ f g, e.Completes (e.sweepUp g (e.sweepDown f x)).toNat := fun f g =>
    completes_sweepUp (hx.of_shape (shape_sweepDown e x f)) (completes_sweepDown hx hc)
  rw [sweepIntoRange]
  split
  · exact hdownUp _ _
  · split
    · exact hdownUp _ _
    · exact completes_sweepDown (hx.of_shape (shape_sweepUp e x _)) (completes_sweepUp hx hc)

namespace Regular

variable (he : e.Regular) (hwrap : e.hi.toNat < e.lo.toNat) (hn : e.Allows n)
include he hwrap hn

/-- A value above the gap is at most the greatest completion, one below it is at least the least. -/
theorem inRange_least_or_greatest {y z : Packed} (hy : y.Spans e.width) (hz : z.Spans e.width)
    (hleast : IsLeast {n | e.Completes n} y.toNat)
    (hgreatest : IsGreatest {n | e.Completes n} z.toNat) :
    e.inRange y = true ∨ e.inRange z = true := by
  obtain ⟨hcompletes, harc⟩ := allows_iff.mp hn
  rw [he.inRange_iff hy, he.inRange_iff hz, inArc_iff_of_gt hwrap, inArc_iff_of_gt hwrap]
  rcases (inArc_iff_of_gt hwrap).mp harc with habove | hbelow
  · exact .inr (.inl (Nat.le_trans habove (hgreatest.2 hcompletes)))
  · exact .inl (.inr (Nat.lt_of_le_of_lt (hleast.2 hcompletes) hbelow))

/-- Two sweeps in opposite directions lead into an interval that wraps around. A first one that does
not end in it ends at one end of the completions; if the second one ended at the other end outside
the interval as well, there would be no value. -/
theorem inRange_sweepIntoRange (hx : x.Spans e.width) (hc : e.Completes x.toNat)
    (downFirst : Bool) : e.inRange (e.sweepIntoRange downFirst x) = true := by
  have hbounds : ¬ e.lo.lt e.hi = true := by
    rw [he.lo.toSpans.lt_iff he.hi.toSpans]
    exact Nat.lt_asymm hwrap
  rw [sweepIntoRange, if_neg hbounds]
  cases downFirst with
  | true =>
      let y := e.sweepDown e.inRange x
      let z := e.sweepUp e.inRange y
      change e.inRange z = true
      have hy : y.Spans e.width := hx.of_shape (shape_sweepDown e x _)
      have hz : z.Spans e.width := hy.of_shape (shape_sweepUp e y _)
      rcases goal_or_isLeast_sweepDown hx hc e.inRange with hgoal | hleast
      · exact goal_sweep_of_goal hgoal
      · have hmoved : e.Completes y.toNat := completes_sweepDown hx hc
        rcases goal_or_isGreatest_sweepUp hy hmoved e.inRange with hgoal | hgreatest
        · exact hgoal
        · exact (he.inRange_least_or_greatest hwrap hn hy hz hleast hgreatest).elim
            goal_sweep_of_goal id
  | false =>
      let y := e.sweepUp e.inRange x
      let z := e.sweepDown e.inRange y
      change e.inRange z = true
      have hy : y.Spans e.width := hx.of_shape (shape_sweepUp e x _)
      have hz : z.Spans e.width := hy.of_shape (shape_sweepDown e y _)
      rcases goal_or_isGreatest_sweepUp hx hc e.inRange with hgoal | hgreatest
      · exact goal_sweep_of_goal hgoal
      · have hmoved : e.Completes y.toNat := completes_sweepUp hx hc
        rcases goal_or_isLeast_sweepDown hy hmoved e.inRange with hgoal | hleast
        · exact hgoal
        · exact (he.inRange_least_or_greatest hwrap hn hz hy hleast hgreatest).elim
            id goal_sweep_of_goal

end Regular

/-! ## Repairs -/

/-- Without a sign prefix, every candidate can be repaired to a value of an envelope that has one,
unless the interval is one ascending piece. -/
theorem Regular.exists_repair? (he : e.Regular) (hx : x.Spans e.width) (hn : e.Allows n)
    (hsign : e.signedPrefix = 0) (hbounds : e.hi.toNat ≤ e.lo.toNat) (downFirst : Bool) :
    ∃ y, e.repair? downFirst x = some y := by
  have hpinned := hx.of_shape (shape_applyPins e x)
  have hc := he.completes_applyPins hx
  simp only [repair?, settle, extendSign_of_signedPrefix_eq_zero hsign]
  split
  · exact ⟨_, rfl⟩
  · rename_i hout
    -- Where both bounds are one number, every value is in range.
    have hwrap : e.hi.toNat < e.lo.toNat := by
      refine Nat.lt_of_le_of_ne hbounds fun heq => hout ?_
      exact (he.inRange_iff hpinned).mpr (inArc_of_eq heq.symm)
    let z := e.sweepIntoRange downFirst (e.applyPins x)
    have hz : z.Spans e.width := hpinned.of_shape (shape_sweepIntoRange e _ downFirst)
    have hadmits : e.admits z = true := by
      rw [he.admits_iff hz, allows_iff, ← he.inRange_iff hz]
      exact ⟨completes_sweepIntoRange hpinned hc downFirst,
        he.inRange_sweepIntoRange hwrap hn hpinned hc downFirst⟩
    exact ⟨z, if_pos hadmits⟩

end BitEnvelope.Envelope
