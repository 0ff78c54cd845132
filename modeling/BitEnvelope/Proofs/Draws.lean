import BitEnvelope.Checked.Draws
import BitEnvelope.Proofs.Fallible
import Mathlib.Data.Nat.Factorial.BigOperators
import Mathlib.Logic.Equiv.Fin.Basic
import Mathlib.SetTheory.Cardinal.Finite

/-!
# Words drawn one after another

`nth` is the word that a source gives after a number of others, and `skip` is the source after a
number of words: together they say which words an operation reads and where it leaves the source.
`CanGive` says that some words, drawn to the end and no further, make an operation give a result. It
goes along with the steps of an operation.

The choice among `n` candidates reads one word for each of them, and of the word only its residue
modulo the place of the candidate, as long as the places can be counted in a word. The last
candidate whose residue is zero is the choice. The first residue is always zero, so there is one. Of
the `n!` tuples of residues, `(n - 1)!` lead to any one candidate: the residues up to it leave as many
tuples as there are for the candidates before it, and each later one leaves out zero.
-/

namespace BitEnvelope.Draws

open Nat

/-- The source after `n` words have been drawn. -/
def skip : Nat → Draws → Draws
  | 0, d => d
  | n + 1, d => skip n d.next.2

/-- The word that is drawn after `k` others. -/
def nth (d : Draws) (k : Nat) : Word := (d.skip k).next.1

variable {d : Draws} {n k j : Nat}

theorem skip_succ : d.skip (n + 1) = d.next.2.skip n := rfl

theorem nth_succ : d.nth (k + 1) = d.next.2.nth k := rfl

theorem used_next (d : Draws) : d.next.2.used = d.used + 1 := by
  obtain ⟨given, state, used⟩ := d
  cases given <;> rfl

theorem used_skip (n : Nat) (d : Draws) : (d.skip n).used = d.used + n := by
  induction n generalizing d with
  | zero => rfl
  | succ n ih => rw [skip_succ, ih, used_next, Nat.add_assoc, Nat.add_comm 1]

theorem take_eq (n : Nat) (d : Draws) : d.take n = ((List.range n).map d.nth, d.skip n) := by
  induction n generalizing d with
  | zero => rfl
  | succ n ih =>
      change (d.next.1 :: (take n d.next.2).1, (take n d.next.2).2) = _
      rw [ih, List.range_succ_eq_map, List.map_cons, List.map_map]
      rfl

theorem getD_take (hk : k < n) : (d.take n).1.getD k 0 = d.nth k := by
  rw [take_eq, List.getD_eq_getElem?_getD, List.getElem?_map, List.getElem?_range hk]
  rfl

/-! ## Given words -/

section Given

variable {ws rest : List Word} {state : UInt64} {used : Nat}

theorem skip_given : skip ws.length ⟨ws ++ rest, state, used⟩ =
    ⟨rest, state, used + ws.length⟩ := by
  induction ws generalizing used with
  | nil => rfl
  | cons w ws ih =>
      rw [List.length_cons, skip_succ]
      exact ih.trans (by rw [Nat.add_assoc, Nat.add_comm 1])

theorem nth_given (hk : k < ws.length) : nth ⟨ws ++ rest, state, used⟩ k = ws[k] := by
  induction ws generalizing k used with
  | nil => exact absurd hk (Nat.not_lt_zero k)
  | cons w ws ih =>
      cases k with
      | zero => rfl
      | succ k => exact ih (Nat.lt_of_succ_lt_succ hk)

end Given

theorem nth_start {f : Fin n → Word} (k : Fin n) (rest : List Word) (seed : UInt64) :
    (start (List.ofFn f ++ rest) seed).nth k = f k := by
  have hk : k < (List.ofFn f).length := List.length_ofFn.symm ▸ k.isLt
  exact (nth_given hk).trans (List.getElem_ofFn hk)

/-- Some words, drawn to the end and no further, make `f` give `a`. -/
def CanGive {α : Type} (f : Draws → α × Draws) (a : α) : Prop :=
  ∃ ws : List Word, ∀ rest state used,
    f ⟨ws ++ rest, state, used⟩ = (a, ⟨rest, state, used + ws.length⟩)

namespace CanGive

variable {α β : Type} {f : Draws → α × Draws} {a : α} {b : β}

theorem pure (a : α) : CanGive (fun d => (a, d)) a :=
  ⟨[], fun _ _ _ => rfl⟩

/-- Where `f` gives `a`, `h` goes on as `g` does: the words of both, one after the other. -/
theorem andThen {g h : Draws → β × Draws} (hf : CanGive f a) (hg : CanGive g b)
    (hstep : ∀ d d', f d = (a, d') → h d = g d') : CanGive h b := by
  obtain ⟨ws, hws⟩ := hf
  obtain ⟨vs, hvs⟩ := hg
  refine ⟨ws ++ vs, fun rest state used => ?_⟩
  have hfirst := hws (vs ++ rest) state used
  have hsecond := hvs rest state (used + ws.length)
  rw [List.append_assoc, List.length_append, ← Nat.add_assoc, hstep _ _ hfirst]
  exact hsecond

theorem coin (b : Bool) : CanGive Draws.coin b := by
  refine ⟨[if b then 0 else 1], fun rest state used => ?_⟩
  cases b <;> rfl

end CanGive

/-! ## The choice among candidates -/

theorem checkedBelow_eq (h : n ≠ 0) : d.checkedBelow n = .ok (d.below n) := by
  rw [checkedBelow, bne_iff_ne.mpr h]
  rfl

section Choice

variable {α : Type} {count : Word} {kept : Option α} {xs : List α}

theorem chooseFrom_cons (x : α) : chooseFrom count kept (x :: xs) d =
    chooseFrom (count + 1) (if d.next.1.toNat % (count + 1).toNat = 0 then some x else kept) xs
      d.next.2 := rfl

/-- The count goes up by one as long as it fits in a word. -/
theorem toNat_count_succ (h : count.toNat + (xs.length + 1) < 2 ^ 32) :
    (count + 1).toNat = count.toNat + 1 ∧ (count + 1).toNat + xs.length < 2 ^ 32 := by
  have hone : (count + 1).toNat = (count.toNat + 1) % 2 ^ 32 := BitVec.toNat_add count 1
  rw [hone, Nat.mod_eq_of_lt (by omega)]
  omega

/-- A choice that has been made may be replaced by a later candidate, but it is not taken back. -/
theorem exists_chooseFrom_eq (y : α) :
    ∃ z ∈ y :: xs, chooseFrom count (some y) xs d = (some z, d.skip xs.length) := by
  induction xs generalizing count y d with
  | nil => exact ⟨y, List.mem_cons_self, rfl⟩
  | cons x xs ih =>
      rw [chooseFrom_cons]
      split
      · obtain ⟨z, hz, hchosen⟩ := @ih d.next.2 (count + 1) x
        exact ⟨z, List.mem_cons_of_mem y hz, hchosen⟩
      · obtain ⟨z, hz, hchosen⟩ := @ih d.next.2 (count + 1) y
        refine ⟨z, ?_, hchosen⟩
        rcases List.mem_cons.mp hz with rfl | hz
        · exact List.mem_cons_self
        · exact List.mem_cons_of_mem y (List.mem_cons_of_mem x hz)

section Counted

variable (hfit : count.toNat + xs.length < 2 ^ 32)
include hfit

theorem chooseFrom_of_ne (h : ∀ i < xs.length, (d.nth i).toNat % (count.toNat + i + 1) ≠ 0) :
    chooseFrom count kept xs d = (kept, d.skip xs.length) := by
  induction xs generalizing count d with
  | nil => rfl
  | cons x xs ih =>
      obtain ⟨hcount, hrest⟩ := toNat_count_succ hfit
      have hfirst : ¬ d.next.1.toNat % (count.toNat + 1) = 0 := h 0 (Nat.succ_pos _)
      rw [chooseFrom_cons, hcount, if_neg hfirst]
      apply ih hrest
      intro i hi
      have hnext := h (i + 1) (Nat.succ_lt_succ hi)
      rwa [nth_succ, ← Nat.add_assoc, Nat.add_right_comm count.toNat i 1, ← hcount] at hnext

/-- The candidate is chosen whose residue is zero if no later one's is. -/
theorem chooseFrom_of_last (hj : j < xs.length)
    (hzero : (d.nth j).toNat % (count.toNat + j + 1) = 0)
    (hlater : ∀ i, j < i → i < xs.length → (d.nth i).toNat % (count.toNat + i + 1) ≠ 0) :
    chooseFrom count kept xs d = (some xs[j], d.skip xs.length) := by
  induction xs generalizing count d j kept with
  | nil => exact absurd hj (Nat.not_lt_zero j)
  | cons x xs ih =>
      obtain ⟨hcount, hfit'⟩ := toNat_count_succ hfit
      have hrest : ∀ i, (d.nth (i + 1)).toNat % (count.toNat + (i + 1) + 1) =
          (d.next.2.nth i).toNat % ((count + 1).toNat + i + 1) := by
        intro i
        rw [nth_succ, hcount, ← Nat.add_assoc, Nat.add_right_comm count.toNat i 1]
      rw [chooseFrom_cons, hcount]
      cases j with
      | zero =>
          have hfirst : d.next.1.toNat % (count.toNat + 1) = 0 := hzero
          rw [if_pos hfirst]
          apply chooseFrom_of_ne hfit'
          intro i hi
          rw [← hrest]
          exact hlater (i + 1) (Nat.succ_pos i) (Nat.succ_lt_succ hi)
      | succ j =>
          refine ih hfit' (Nat.lt_of_succ_lt_succ hj) ((hrest j).symm.trans hzero)
            fun i hji hi => ?_
          rw [← hrest]
          exact hlater (i + 1) (Nat.succ_lt_succ hji) (Nat.succ_lt_succ hi)

/-- While the count fits in a word, no draw fails. -/
theorem checkedChooseFrom_eq_ok :
    checkedChooseFrom count kept xs d = .ok (chooseFrom count kept xs d) := by
  induction xs generalizing count kept d with
  | nil => rfl
  | cons x xs ih =>
      obtain ⟨hcount, hrest⟩ := toNat_count_succ hfit
      rw [checkedChooseFrom, checkedBelow_eq (by omega)]
      exact ih hrest

end Counted

/-- The candidate with which the count comes back to zero fails. -/
theorem checkedChooseFrom_eq_error (hover : 2 ^ 32 ≤ count.toNat + xs.length) :
    checkedChooseFrom count kept xs d = .error .emptyChoice := by
  induction xs generalizing count kept d with
  | nil => exact absurd count.isLt (Nat.not_lt.mpr hover)
  | cons x xs ih =>
      rw [List.length_cons] at hover
      have hone : (count + 1).toNat = (count.toNat + 1) % 2 ^ 32 := BitVec.toNat_add count 1
      rw [checkedChooseFrom]
      rcases Nat.lt_or_ge (count.toNat + 1) (2 ^ 32) with hlt | hge
      · rw [Nat.mod_eq_of_lt hlt] at hone
        rw [checkedBelow_eq (by omega)]
        exact ih (by omega)
      · have hzero : (count + 1).toNat = 0 := by
          have hlt := count.isLt
          omega
        rw [hzero]
        rfl

end Choice

theorem zero_add_length {α : Type} (xs : List α) : xs.length = (0 : Word).toNat + xs.length :=
  (Nat.zero_add xs.length).symm

/-- Fewer than `2 ^ 32` candidates can be chosen from. -/
theorem checkedChoose_eq_ok {α : Type} {xs : List α} (h : xs.length < 2 ^ 32) (d : Draws) :
    d.checkedChoose xs = .ok (d.choose xs) :=
  checkedChooseFrom_eq_ok (zero_add_length xs ▸ h)

theorem checkedChoose_eq_error {α : Type} {xs : List α} (h : 2 ^ 32 ≤ xs.length) (d : Draws) :
    d.checkedChoose xs = .error .emptyChoice :=
  checkedChooseFrom_eq_error (zero_add_length xs ▸ h)

/-- A choice that is made is the one among any number of candidates. -/
theorem answers_checkedChoose {α : Type} (xs : List α) (d : Draws) :
    Answers (xs.length < 2 ^ 32) (d.checkedChoose xs) (d.choose xs) := by
  refine ⟨fun hlt => checkedChoose_eq_ok hlt d, fun r hr => ?_⟩
  rcases Nat.lt_or_ge xs.length (2 ^ 32) with hlt | hge
  · rw [checkedChoose_eq_ok hlt] at hr
    exact (Except.ok.inj hr).symm
  · rw [checkedChoose_eq_error hge] at hr
    cases hr

/-- What `n` candidates draw: the `k`-th of them, counted from one, a number below `k`. -/
abbrev Residues (n : Nat) := (k : Fin n) → Fin (k + 1)

/-- The residues of the next `n` words. -/
def residues (n : Nat) (d : Draws) : Residues n :=
  fun k => ⟨(d.nth k).toNat % (k + 1), Nat.mod_lt _ (Nat.succ_pos k)⟩

namespace Residues

variable {r : Residues n}

/-- Candidate `j` draws zero, and no later one does. -/
def LastZero (r : Residues n) (j : Fin n) : Prop :=
  ∀ k, j ≤ k → (r k = 0 ↔ k = j)

/-- The residues themselves, as words to be drawn. -/
def words (r : Residues n) : List Word := List.ofFn fun k => BitVec.ofNat 32 (r k)

theorem LastZero.unique {i j : Fin n} (hi : r.LastZero i) (hj : r.LastZero j) : i = j := by
  have hzero : r i = 0 := (hi i (Fin.le_refl i)).mpr rfl
  have hzero' : r j = 0 := (hj j (Fin.le_refl j)).mpr rfl
  rcases le_total i j with hle | hle
  · exact ((hi j hle).mp hzero').symm
  · exact (hj i hle).mp hzero

/-- The first residue is zero, so one of them is the last that is. -/
theorem exists_lastZero (r : Residues n) (hn : 0 < n) : ∃ j, r.LastZero j := by
  let zeros : Finset (Fin n) := {k | r k = 0}
  have hfirst : (⟨0, hn⟩ : Fin n) ∈ zeros := by
    rw [Finset.mem_filter_univ]
    exact Fin.eq_zero _
  obtain ⟨j, hj, hmax⟩ := zeros.exists_max_image id ⟨_, hfirst⟩
  refine ⟨j, fun k hjk => ⟨fun hk => ?_, fun hk => ?_⟩⟩
  · exact le_antisymm (hmax k ((Finset.mem_filter_univ k).mpr hk)) hjk
  · rw [hk]
    exact (Finset.mem_filter_univ j).mp hj

end Residues

/-- The last candidate whose residue is zero is chosen, with one draw for each candidate. -/
theorem choose_of_lastZero {α : Type} {xs : List α} (hlt : xs.length < 2 ^ 32) {j : Fin xs.length}
    (h : (d.residues xs.length).LastZero j) : d.choose xs = (some xs[j], d.skip xs.length) := by
  have hresidue : ∀ k : Fin xs.length,
      d.residues xs.length k = 0 ↔ (d.nth k).toNat % ((0 : Word).toNat + k + 1) = 0 := by
    intro k
    rw [show (0 : Word).toNat = 0 from rfl, Nat.zero_add]
    exact Fin.ext_iff
  refine chooseFrom_of_last (zero_add_length xs ▸ hlt) j.isLt
    ((hresidue j).mp ((h j (le_refl j)).mpr rfl)) fun i hji hi hzero => ?_
  have heq : (⟨i, hi⟩ : Fin xs.length) = j :=
    (h ⟨i, hi⟩ (Nat.le_of_lt hji)).mp ((hresidue ⟨i, hi⟩).mpr hzero)
  exact absurd (congrArg Fin.val heq) (Nat.ne_of_gt hji)

/-- Of candidates that there are, one is chosen: the first residue is zero. -/
theorem exists_choose_eq {α : Type} {xs : List α} (h : xs ≠ []) (d : Draws) :
    ∃ x ∈ xs, d.choose xs = (some x, d.skip xs.length) := by
  obtain ⟨x, xs, rfl⟩ := List.exists_cons_of_ne_nil h
  have hfirst : d.next.1.toNat % ((0 : Word) + 1).toNat = 0 := Nat.mod_one _
  rw [choose, chooseFrom_cons, if_pos hfirst]
  exact exists_chooseFrom_eq x

theorem residues_start_words {r : Residues n} (hn : n ≤ 2 ^ 32) (seed : UInt64) :
    (start r.words seed).residues n = r := by
  funext k
  apply Fin.ext
  have hword : (start r.words seed).nth k = BitVec.ofNat 32 (r k) := by
    rw [← List.append_nil r.words]
    exact nth_start k [] seed
  have hlt : (r k).val < 2 ^ 32 := by omega
  change ((start r.words seed).nth k).toNat % (k + 1) = r k
  rw [hword, BitVec.toNat_ofNat, Nat.mod_eq_of_lt hlt, Nat.mod_eq_of_lt (r k).isLt]

/-- Every candidate can be chosen: it draws zero and the later ones draw one. -/
theorem CanGive.choose {α : Type} {xs : List α} {x : α} (hlt : xs.length < 2 ^ 32) (hx : x ∈ xs) :
    CanGive (Draws.choose xs) (some x) := by
  obtain ⟨j, hj, rfl⟩ := List.getElem_of_mem hx
  let ws : List Word := List.ofFn fun k : Fin xs.length => if j < k then 1 else 0
  have hlength : ws.length = xs.length := List.length_ofFn
  refine ⟨ws, fun rest state used => ?_⟩
  have hlast : (residues xs.length ⟨ws ++ rest, state, used⟩).LastZero ⟨j, hj⟩ := by
    intro k hjk
    have hk : k.val < ws.length := by
      rw [hlength]
      exact k.isLt
    have hword : nth ⟨ws ++ rest, state, used⟩ k = if j < k then 1 else 0 := by
      rw [nth_given hk]
      simp [ws]
    rw [Fin.ext_iff, Fin.ext_iff]
    change (nth ⟨ws ++ rest, state, used⟩ k).toNat % (k + 1) = 0 ↔ k.val = j
    rw [hword]
    rcases Nat.eq_or_lt_of_le (show j ≤ k from hjk) with heq | hlt
    · rw [if_neg (by omega)]
      exact iff_of_true (Nat.zero_mod _) heq.symm
    · have hone : 1 % (k.val + 1) = 1 := Nat.mod_eq_of_lt (by omega)
      rw [if_pos hlt]
      exact iff_of_false (by rw [show (1 : Word).toNat = 1 from rfl, hone]; exact one_ne_zero)
        (Nat.ne_of_gt hlt)
  have hskip : skip xs.length ⟨ws ++ rest, state, used⟩ = ⟨rest, state, used + ws.length⟩ := by
    rw [← hlength]
    exact skip_given
  rw [choose_of_lastZero hlt hlast, hskip]
  rfl

/-! ## How often each candidate is chosen -/

/-- How many residues at place `k` there are that leave candidate `j` the last one to draw zero. -/
def waysToChoose (j k : Nat) : Nat := if k < j then k + 1 else if k = j then 1 else k

theorem card_residue (j k : Fin n) :
    Nat.card {b : Fin (k + 1) // j ≤ k → (b = 0 ↔ k = j)} = waysToChoose j k := by
  rcases lt_trichotomy k j with hlt | rfl | hgt
  · have hall : ∀ b : Fin (k + 1), j ≤ k → (b = 0 ↔ k = j) := by
      intro b hle
      exact absurd hlt (not_lt.mpr hle)
    rw [waysToChoose, if_pos (Fin.lt_def.mp hlt), Nat.card_congr (Equiv.subtypeUnivEquiv hall),
      Nat.card_fin]
  · have hzero : ∀ b : Fin (k + 1), (k ≤ k → (b = 0 ↔ k = k)) ↔ b = 0 := by simp
    rw [waysToChoose, if_neg (lt_irrefl _), if_pos rfl,
      Nat.card_congr (Equiv.subtypeEquivRight hzero), Nat.card_unique]
  · have hpos : ∀ b : Fin (k + 1), (j ≤ k → (b = 0 ↔ k = j)) ↔ b ≠ 0 := by
      intro b
      simp [hgt.le, hgt.ne']
    rw [waysToChoose, if_neg (not_lt.mpr (Fin.le_def.mp hgt.le)),
      if_neg (Nat.ne_of_gt hgt), Nat.card_congr (Equiv.subtypeEquivRight hpos),
      Nat.card_congr (finSuccAboveEquiv (0 : Fin (k + 1))).symm, Nat.card_fin]

/-- Up to the chosen candidate the ways make up the factorial of its place, and each later one
multiplies them by its own place less one. -/
theorem prod_waysToChoose (hj : j < n) :
    ∏ k ∈ Finset.range n, waysToChoose j k = (n - 1)! := by
  induction n, hj using Nat.le_induction with
  | base =>
      have hbefore : ∏ k ∈ Finset.range j, waysToChoose j k = ∏ k ∈ Finset.range j, (k + 1) :=
        Finset.prod_congr rfl fun k hk => if_pos (Finset.mem_range.mp hk)
      rw [Finset.prod_range_succ, hbefore, Finset.prod_range_add_one_eq_factorial]
      simp [waysToChoose]
  | succ n hj ih =>
      have hlast : waysToChoose j n = n := by
        rw [waysToChoose, if_neg (by omega), if_neg (by omega)]
      rw [Finset.prod_range_succ, ih, hlast, Nat.mul_comm, Nat.add_sub_cancel]
      exact Nat.mul_factorial_pred (by omega)

theorem card_residues (n : Nat) : Nat.card (Residues n) = n ! := by
  rw [Nat.card_pi]
  simp only [Nat.card_fin]
  rw [Fin.prod_univ_eq_prod_range (fun k => k + 1), Finset.prod_range_add_one_eq_factorial]

/-- Every candidate is chosen by the same number of tuples of residues. -/
theorem card_lastZero (j : Fin n) : Nat.card {r : Residues n // r.LastZero j} = (n - 1)! :=
  calc Nat.card {r : Residues n // r.LastZero j}
      = Nat.card ((k : Fin n) → {b : Fin (k + 1) // j ≤ k → (b = 0 ↔ k = j)}) :=
        Nat.card_congr (Equiv.subtypePiEquivPi (p := fun k b => j ≤ k → (b = 0 ↔ k = j)))
    _ = ∏ k : Fin n, waysToChoose j k := by
        rw [Nat.card_pi]
        exact Finset.prod_congr rfl fun k _ => card_residue j k
    _ = ∏ k ∈ Finset.range n, waysToChoose j k := Fin.prod_univ_eq_prod_range (waysToChoose j) n
    _ = (n - 1)! := prod_waysToChoose j.isLt

end BitEnvelope.Draws
