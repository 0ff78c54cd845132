import BitEnvelope.Proofs.Json.Number
import BitEnvelope.Proofs.Json.Text

/-!
# Renderings of tokens

Characters render tokens if they are one way to write these after each other, with blanks anywhere
between two of them. The only numbers are sizes, which are written in digits. The last digit does not
end such a number, so the character after it must, and what ends with digits renders its tokens only
before such a character.
-/

namespace BitEnvelope.Json

open NumberReader (Ends)

/-- The characters are a way to write the tokens. -/
inductive Renders : List Char → List Token → Prop where
  | nil : Renders [] []
  | space {c : Char} {cs : List Char} {ts : List Token} (hspace : isSpace c = true)
      (rest : Renders cs ts) : Renders (c :: cs) ts
  | punctuation {c : Char} {cs : List Char} {t : Token} {ts : List Token}
      (htoken : punctuation? c = some t) (rest : Renders cs ts) : Renders (c :: cs) (t :: ts)
  | text {s : String} {cs ds : List Char} {ts : List Token}
      (hcontent : TextReader.StandsFor cs s.toList) (rest : Renders ds ts) :
      Renders ('"' :: cs ++ ['"'] ++ ds) (.text s :: ts)
  | word {c : Char} {left cs : List Char} {flag : Option Bool} {ts : List Token}
      (hword : word? c = some (left, flag)) (rest : Renders cs ts) :
      Renders (c :: left ++ cs) (.word flag :: ts)
  | size {c : Char} {cs : List Char} {ts : List Token} (n : UInt64) (hends : Ends c)
      (rest : Renders (c :: cs) ts) :
      Renders (Numeral.digits 10 n.toNat ++ c :: cs) (.number (some n) :: ts)

/-- The characters are a way to write the tokens before a character that ends a number. -/
def RendersBefore (cs : List Char) (ts : List Token) : Prop :=
  ∀ c ds us, Ends c → Renders (c :: ds) us → Renders (cs ++ c :: ds) (ts ++ us)

variable {cs ds : List Char} {ts us : List Token} {c : Char}

namespace Renders

theorem append (h : Renders cs ts) (h' : Renders ds us) : Renders (cs ++ ds) (ts ++ us) := by
  induction h with
  | nil => exact h'
  | space hspace _ ih => exact .space hspace ih
  | punctuation htoken _ ih => exact .punctuation htoken ih
  | text hcontent _ ih =>
      rw [List.append_assoc]
      exact .text hcontent ih
  | word hword _ ih =>
      rw [List.append_assoc]
      exact .word hword ih
  | size n hends _ ih =>
      rw [List.append_assoc]
      exact .size n hends ih

theorem before (h : Renders cs ts) : RendersBefore cs ts := fun _ _ _ _ hrest => h.append hrest

theorem append_before (h : Renders cs ts) (h' : RendersBefore ds us) :
    RendersBefore (cs ++ ds) (ts ++ us) := by
  intro c es vs hc hrest
  rw [List.append_assoc, List.append_assoc]
  exact h.append (h' c es vs hc hrest)

end Renders

theorem RendersBefore.append_before (h : RendersBefore cs ts) (hc : Ends c)
    (h' : RendersBefore (c :: ds) us) : RendersBefore (cs ++ c :: ds) (ts ++ us) := by
  intro c' es vs hc' hrest
  rw [List.append_assoc, List.append_assoc]
  exact h c _ _ hc (h' c' es vs hc' hrest)

theorem rendersBefore_size (n : UInt64) :
    RendersBefore (Numeral.digits 10 n.toNat) [.number (some n)] :=
  fun _ _ _ hc hrest => .size n hc hrest

end BitEnvelope.Json
