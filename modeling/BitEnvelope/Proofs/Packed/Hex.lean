import BitEnvelope.Packed.Hex
import BitEnvelope.Proofs.Envelope.Narrow
import BitEnvelope.Proofs.Json.Passing
import BitEnvelope.Valuation.Basic
import Mathlib.Algebra.BigOperators.Group.Finset.Basic
import Mathlib.Tactic.Ring

/-!
# The text of a value is its hexadecimal numeral

A value is shown word by word. The first word that is not zero is a numeral of its own, and eight
digits for each word below it continue this numeral, because a word is a number of eight digits. So
the text is the numeral of the number modulo `2 ^ width`, whatever stray bits and headroom hold, and
reading it as a number gives this number back.
-/

namespace BitEnvelope

/-! ## Numerals -/

namespace Numeral

theorem digits_eq_toDigits {base : Nat} (hbase : 2 ≤ base) (n : Nat) :
    digits base n = Nat.toDigits base n := by
  induction n using Nat.strongRecOn with
  | ind n ih =>
      rw [digits]
      split
      · rename_i hn
        have hlt : n / base < n := Nat.div_lt_self (by omega) (by omega)
        rw [ih (n / base) hlt, Nat.toDigits_of_base_le (by omega) hn.2]
      · rename_i hn
        exact (Nat.toDigits_of_lt_base (by omega)).symm

/-- One place more is one digit more. -/
theorem padded_succ {base : Nat} (hbase : 2 ≤ base) (count m : Nat) :
    padded (count + 2) base m = padded (count + 1) base (m / base) ++ [(m % base).digitChar] := by
  simp only [padded, digits_eq_toDigits hbase]
  by_cases hm : base ≤ m
  · have hlength : count + 2 - ((Nat.toDigits base (m / base)).length + 1) =
        count + 1 - (Nat.toDigits base (m / base)).length := by omega
    rw [Nat.toDigits_of_base_le (by omega) hm, List.length_append, List.length_singleton, hlength,
      List.append_assoc]
  · have hlt : m < base := Nat.lt_of_not_le hm
    rw [Nat.div_eq_of_lt hlt, Nat.mod_eq_of_lt hlt, Nat.toDigits_of_lt_base hlt, Nat.toDigits_zero]
    simp [List.replicate_succ']

/-- A numeral is continued by the digits of a number that has as many places as are added. -/
theorem toDigits_append_padded {base n : Nat} (hbase : 2 ≤ base) (hn : 0 < n) (count : Nat) {m : Nat}
    (hm : m < base ^ (count + 1)) :
    Nat.toDigits base n ++ padded (count + 1) base m =
      Nat.toDigits base (n * base ^ (count + 1) + m) := by
  induction count generalizing m with
  | zero =>
      rw [Nat.zero_add, Nat.pow_one] at hm ⊢
      have hpadded : padded 1 base m = Nat.toDigits base m := by
        rw [padded, digits_eq_toDigits hbase, Nat.toDigits_of_lt_base hm]
        rfl
      rw [hpadded, Nat.toDigits_append_toDigits (by omega) hn hm, Nat.mul_comm]
  | succ count ih =>
      have hdiv : m / base < base ^ (count + 1) :=
        Nat.div_lt_of_lt_mul (by rwa [Nat.pow_succ, Nat.mul_comm] at hm)
      have hmod : m % base < base := Nat.mod_lt m (by omega)
      have hpos : 0 < n * base ^ (count + 1) + m / base :=
        Nat.add_pos_left (Nat.mul_pos hn (Nat.pow_pos (by omega))) _
      rw [padded_succ hbase, ← List.append_assoc, ih hdiv, ← Nat.toDigits_of_lt_base hmod,
        Nat.toDigits_append_toDigits (by omega) hpos hmod, Nat.mul_add, Nat.add_assoc,
        Nat.div_add_mod]
      congr 2
      rw [Nat.pow_succ _ (count + 1), Nat.mul_left_comm, Nat.mul_comm base]

/-- The number that a hexadecimal numeral stands for, in lower or upper case. -/
def readHexadecimal? (text : String) : Option Nat :=
  if text.isEmpty then none else Json.TextReader.hexValue? text.toList.reverse

theorem hexValue?_toDigits (n : Nat) :
    Json.TextReader.hexValue? (Nat.toDigits 16 n).reverse = some n := by
  have hdigit : ∀ d, d < 16 → Json.TextReader.hexDigit? d.digitChar = some d :=
    fun d hd => Json.TextReader.hexDigit?_of_isHexDigit ⟨hd, .inl rfl⟩
  induction n using Nat.strongRecOn with
  | ind n ih =>
      by_cases hn : 16 ≤ n
      · rw [Nat.toDigits_of_base_le (by decide) hn, List.reverse_append, List.reverse_singleton,
          List.singleton_append, Json.TextReader.hexValue?, hdigit _ (Nat.mod_lt n (by decide)),
          ih (n / 16) (by omega)]
        exact congrArg some (Nat.mod_add_div n 16)
      · rw [Nat.toDigits_of_lt_base (Nat.lt_of_not_le hn), List.reverse_singleton,
          Json.TextReader.hexValue?, hdigit n (Nat.lt_of_not_le hn)]
        rfl

/-- A numeral stands for the number that it was written from. -/
theorem readHexadecimal?_toDigits (n : Nat) :
    readHexadecimal? (String.ofList (Nat.toDigits 16 n)) = some n := by
  have hnonempty : (String.ofList (Nat.toDigits 16 n)).isEmpty = false := by
    simp [Nat.toDigits_ne_nil]
  rw [readHexadecimal?, hnonempty, String.toList_ofList]
  exact hexValue?_toDigits n

end Numeral

/-! ## Words -/

namespace Packed

variable {x : Packed} {e : Envelope}

/-- Eight digits continue a numeral by a word. -/
theorem toDigits_append_word {n : Nat} (hn : 0 < n) (w : Word) :
    Nat.toDigits 16 n ++ Numeral.padded 8 16 w.toNat = Nat.toDigits 16 (n * 2 ^ 32 + w.toNat) := by
  have hpow : (16 : Nat) ^ (7 + 1) = 2 ^ 32 := by decide
  have hw : w.toNat < 16 ^ (7 + 1) := hpow ▸ w.isLt
  rw [Numeral.toDigits_append_padded (by decide) hn 7 hw, hpow]

theorem toDigits_append_words {n : Nat} (hn : 0 < n) (ws : List Word) :
    Nat.toDigits 16 n ++ ws.flatMap (fun w => Numeral.padded 8 16 w.toNat) =
      Nat.toDigits 16 (n * 2 ^ (32 * ws.length) + Words.toNat ws.reverse) := by
  induction ws generalizing n with
  | nil => simp [Words.toNat]
  | cons w ws ih =>
      have hpos : 0 < n * 2 ^ 32 + w.toNat :=
        Nat.add_pos_left (Nat.mul_pos hn (Nat.two_pow_pos 32)) w.toNat
      have hvalue : (n * 2 ^ 32 + w.toNat) * 2 ^ (32 * ws.length) + Words.toNat ws.reverse =
          n * 2 ^ (32 * (w :: ws).length) + Words.toNat (w :: ws).reverse := by
        rw [List.reverse_cons, Words.toNat_append, List.length_reverse, List.length_cons,
          Nat.mul_succ, Nat.pow_add, Words.toNat, Words.toNat]
        ring
      rw [List.flatMap_cons, ← List.append_assoc, toDigits_append_word hn, ih hpos, hvalue]

/-- The text of words, the most significant one first, is the numeral of their number. -/
theorem hexDigits_eq_toDigits (ws : List Word) :
    hexDigits ws = Nat.toDigits 16 (Words.toNat ws.reverse) := by
  induction ws with
  | nil => rfl
  | cons w ws ih =>
      rw [List.reverse_cons, Words.toNat_append, List.length_reverse, Words.toNat, Words.toNat,
        Nat.mul_zero, Nat.add_zero]
      by_cases hw : w = 0
      · have hskip : hexDigits (w :: ws) = hexDigits ws := by
          rw [hexDigits, hw, List.dropWhile_cons_of_pos rfl]
          rfl
        have hzero : w.toNat = 0 := by
          rw [hw]
          rfl
        rw [hskip, ih, hzero, Nat.mul_zero, Nat.add_zero]
      · have hshown : hexDigits (w :: ws) = Numeral.digits 16 w.toNat ++
            ws.flatMap fun v => Numeral.padded 8 16 v.toNat := by
          rw [hexDigits, List.dropWhile_cons_of_neg (by simpa using hw)]
        have hpos : 0 < w.toNat := Nat.pos_of_ne_zero fun h => hw (BitVec.eq_of_toNat_eq h)
        rw [hshown, Numeral.digits_eq_toDigits (by decide), toDigits_append_words hpos,
          Nat.mul_comm, Nat.add_comm]

/-! ## Values -/

/-- The words that are shown are those of the value without its stray bits. -/
theorem reverse_shownWords (hx : x.Spans e.width) :
    x.shownWords.reverse = (e.dropOverflow x).words.take e.wordCount := by
  have hcount : x.wordCount = e.wordCount := hx.wordCount_eq
  have hmask : x.mask = e.mask := congrArg Word.topMask hx.width_eq
  have hlength : (x.words.take e.wordCount).length = e.wordCount := by
    rw [List.length_take]
    exact Nat.min_eq_left hx.count_le
  have hdrop : (e.dropOverflow x).words.take e.wordCount =
      (x.words.take e.wordCount).set e.top (x.word e.top &&& e.mask) := List.take_set
  obtain hnil | ⟨rest, top, hwords⟩ := List.eq_nil_or_concat (x.words.take e.wordCount)
  · rw [hdrop, shownWords, hcount, hnil]
    rfl
  · rw [List.concat_eq_append] at hwords
    have hcount_eq : rest.length + 1 = e.wordCount := by
      rw [← hlength, hwords, List.length_append, List.length_singleton]
    have htop : e.top = rest.length := by
      rw [Envelope.top, ← hcount_eq, Nat.add_sub_cancel]
    have hword : x.word e.top = top := by
      have hget : (x.words.take e.wordCount)[e.top]? = some top := by
        rw [hwords, htop, List.getElem?_concat_length]
      rw [List.getElem?_take_of_lt (by omega)] at hget
      rw [word, List.getD_eq_getElem?_getD, hget]
      rfl
    rw [hdrop, hword, htop, shownWords, hcount, hmask, hwords, List.reverse_append]
    simp

/-- The number in the first words is the sum of the words at their places. -/
theorem natOfFirst_eq_sum (x : Packed) (n : Nat) :
    x.natOfFirst n = ∑ i ∈ Finset.range n, (x.word i).toNat * 2 ^ (32 * i) := by
  induction n with
  | zero => rfl
  | succ n ih =>
      rw [Finset.sum_range_succ, ← ih, natOfFirst, natOfFirst, word]
      by_cases hn : n < x.words.length
      · rw [List.take_succ_eq_append_getElem hn, Words.toNat_append, List.length_take,
          Nat.min_eq_left (Nat.le_of_lt hn), List.getD_eq_getElem _ _ hn, Words.toNat, Words.toNat]
        ring
      · have hle : x.words.length ≤ n := Nat.le_of_not_lt hn
        rw [List.take_of_length_le hle, List.take_of_length_le (Nat.le_succ_of_le hle),
          List.getD_eq_default _ _ hle]
        simp

/-- The text of a value is the numeral of its number, without the stray bits. -/
theorem hex_eq_toDigits (hx : x.Spans e.width) :
    x.hex = String.ofList (Nat.toDigits 16 (x.toNat % 2 ^ e.width)) := by
  have hdropped := hx.of_shape (Envelope.shape_dropOverflow e x)
  have hshown : Words.toNat x.shownWords.reverse = (e.dropOverflow x).toNat := by
    rw [reverse_shownWords hx, hdropped.toNat_eq]
    rfl
  rw [hex, hexDigits_eq_toDigits, hshown, Envelope.toNat_dropOverflow hx]

/-- The text of a value is the hexadecimal numeral of its number modulo `2 ^ width`, which is the sum
of the words that carry it. A number that is written as a value is read back from its text modulo
`2 ^ width`. -/
theorem hex_numeral {x : Packed} (hx : x.wordCount ≤ x.words.length) :
    x.hex.toList = Nat.toDigits 16
        ((∑ i ∈ Finset.range x.wordCount, (x.word i).toNat * 2 ^ (32 * i)) % 2 ^ x.width) ∧
      ∀ (e : Envelope) (n : Nat),
        Numeral.readHexadecimal? (e.encode n).hex = some (n % 2 ^ e.width) := by
  constructor
  · have hspans : x.Spans (Valuation.blank x.width).width := ⟨rfl, hx⟩
    rw [hex_eq_toDigits hspans, String.toList_ofList, toNat, natOfFirst_eq_sum]
    rfl
  · intro e n
    have hblank : e.scratch.Spans e.width := (isValue_blank e.width).toSpans
    have hencoded : (e.encode n).IsValue e.width := Envelope.isValue_setNat hblank n
    have hvalue : (e.encode n).toNat = n % 2 ^ e.width := Envelope.toNat_setNat hblank n
    rw [hex_eq_toDigits hencoded.toSpans, Numeral.readHexadecimal?_toDigits, hvalue, Nat.mod_mod]

/-- Stray bits of the top word and a word of headroom are not shown. -/
theorem hex_numeral_stray :
    (⟨40, [0x9a, 0xff01, 7, 0]⟩ : Packed).hex.toList = Nat.toDigits 16 0x10000009a :=
  (hex_numeral (x := ⟨40, [0x9a, 0xff01, 7, 0]⟩) (by decide)).1.trans (by decide)

end Packed

end BitEnvelope
