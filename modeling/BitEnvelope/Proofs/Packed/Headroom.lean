import BitEnvelope.Proofs.Packed.Value

/-!
# The headroom of a storage

A storage has words beyond those that carry a value of its width. Operations on values do not write
them, so two storages of one width that hold the same number and have the same headroom are equal,
word for word.
-/

namespace BitEnvelope

namespace Packed

/-- The words beyond those that carry a value of `w` bits. -/
def headroom (x : Packed) (w : Nat) : List Word := x.words.drop (Word.count w)

variable {x y : Packed} {w n i : Nat}

theorem Spans.eq_of_toNat_eq (hx : x.Spans w) (hy : y.Spans w)
    (hhead : x.headroom w = y.headroom w) (h : x.toNat = y.toNat) : x = y := by
  have hwidth : x.width = y.width := hx.width_eq.trans hy.width_eq.symm
  rw [hx.toNat_eq, hy.toNat_eq, natOfFirst, natOfFirst] at h
  have hlength : (x.words.take (Word.count w)).length = (y.words.take (Word.count w)).length := by
    rw [List.length_take, List.length_take, Nat.min_eq_left hx.count_le,
      Nat.min_eq_left hy.count_le]
  have htake := Words.eq_of_toNat_eq hlength h
  have hwords : x.words = y.words := by
    rw [← List.take_append_drop (Word.count w) x.words,
      ← List.take_append_drop (Word.count w) y.words, htake]
    exact congrArg _ hhead
  obtain ⟨xw, xs⟩ := x
  obtain ⟨yw, ys⟩ := y
  exact congr (congrArg Packed.mk hwidth) hwords

/-- The bits beyond the words that carry a value are those of the headroom. -/
theorem bit_eq_of_headroom_eq (h : x.headroom w = y.headroom w) (hi : 32 * Word.count w ≤ i) :
    x.bit i = y.bit i := by
  have hword : ∀ z : Packed, z.word (i / 32) = (z.headroom w).getD (i / 32 - Word.count w) 0 := by
    intro z
    rw [word, headroom, List.getD_eq_getElem?_getD, List.getD_eq_getElem?_getD,
      List.getElem?_drop, Nat.add_sub_cancel' (by omega)]
  rw [bit, bit, hword x, hword y, h]

/-! ## Writes -/

theorem headroom_setWord {k : Nat} (hk : k < Word.count w) (v : Word) :
    (x.setWord k v).headroom w = x.headroom w :=
  List.drop_set_of_lt hk

theorem headroom_setBit (hi : i < 32 * Word.count w) (b : Bool) :
    (x.setBit i b).headroom w = x.headroom w :=
  List.drop_modify_of_lt _ _ _ _ (by omega)

theorem headroom_setBits {is : List Nat} (his : ∀ i ∈ is, i < 32 * Word.count w)
    (f : Nat → Bool) : (x.setBits is f).headroom w = x.headroom w := by
  induction is generalizing x with
  | nil => rfl
  | cons i is ih =>
      have hrest := ih (x := x.setBit i (f i)) fun j hj => his j (List.mem_cons_of_mem i hj)
      exact hrest.trans (headroom_setBit (his i List.mem_cons_self) (f i))

theorem headroom_mapWords (hn : n ≤ Word.count w) (f : Nat → Word → Word) :
    (x.mapWords n f).headroom w = x.headroom w := by
  refine List.ext_getElem (by simp [headroom, mapWords]) fun k hk hk' => ?_
  simp only [headroom, mapWords, List.getElem_drop, List.getElem_mapIdx]
  rw [if_neg (by omega)]

theorem headroom_write {ws : List Word} (hws : ws.length ≤ Word.count w)
    (hx : Word.count w ≤ x.words.length) : (x.write ws).headroom w = x.headroom w := by
  have hfit : ws.length ≤ x.words.length := Nat.le_trans hws hx
  rw [headroom, headroom, write, Words.overwrite_eq_append hfit]
  rw [List.drop_append, List.drop_eq_nil_of_le hws, List.nil_append, List.drop_drop]
  congr 1
  omega

theorem Spans.headroom_copyFrom (hx : x.Spans w) :
    (x.copyFrom (Word.count w) y).headroom w = x.headroom w :=
  headroom_write (by rw [List.length_take]; exact Nat.min_le_left _ _) hx.count_le

end Packed

end BitEnvelope
