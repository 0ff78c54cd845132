import BitEnvelope.Config.Printer
import BitEnvelope.Proofs.Config.Spelling
import Mathlib.Data.List.Forall2

/-!
# What the printer writes

The JSON text of a configuration renders a sequence of tokens that has no blanks, indentation or
escapes any more. The items of a block may be numbers, which a comma or a new line ends. A block is
complete with its closing bracket alone, so what comes before the bracket is a rendering as well.
-/

namespace BitEnvelope.Config

open Json (Token TextReader Renders RendersBefore rendersBefore_size)

namespace Printer

/-! ## Characters of a string -/

theorem padded_control {n : Nat} (h : n < 0x20) :
    Numeral.padded 4 16 n = ['0', '0', (n / 16).digitChar, (n % 16).digitChar] := by
  rw [Numeral.padded, Numeral.digits]
  split
  · rename_i hn
    have hone : n / 16 = 1 := by omega
    rw [Numeral.digits, dif_neg (by omega), hone]
    rfl
  · rename_i hn
    have hzero : n / 16 = 0 := by omega
    rw [hzero, Nat.mod_eq_of_lt (by omega)]
    rfl

/-- The digits of a character below `U+0020` give a unit that is no surrogate. -/
theorem unit_control : ∀ n < 0x20,
    TextReader.hexValue? [(n % 16).digitChar, (n / 16).digitChar, '0', '0'] = some n ∧
      TextReader.isLow n = false ∧ TextReader.isHigh n = false := by
  decide

theorem standsFor_controlEscape {c : Char} (h : c.toNat < 0x20) :
    TextReader.StandsFor (controlEscape c) [c] := by
  unfold controlEscape
  split
  · exact .letter rfl
  · exact .letter rfl
  · exact .letter rfl
  · exact .letter rfl
  · exact .letter rfl
  · obtain ⟨hvalue, hlow, hhigh⟩ := unit_control c.toNat h
    have hunit := TextReader.StandsFor.unit hvalue hlow hhigh
    rw [padded_control h]
    rwa [Char.ofNat_toNat] at hunit

theorem standsFor_escape (c : Char) : TextReader.StandsFor (escape c) [c] := by
  rw [escape]
  split
  · rename_i hc
    rw [beq_iff_eq.mp hc]
    exact .letter rfl
  · rename_i hquote
    split
    · rename_i hc
      rw [beq_iff_eq.mp hc]
      exact .letter rfl
    · rename_i hslash
      split
      · rename_i hcontrol
        exact standsFor_controlEscape hcontrol
      · rename_i hcontrol
        exact .self (by simpa using hquote) (by simpa using hslash) hcontrol

theorem renders_text (s : String) : Renders (text s) [.text s] := by
  have h := Renders.text (.flatMap standsFor_escape s.toList) .nil
  rwa [List.append_nil] at h

theorem renders_flag (b : Bool) : Renders (flag b) [.word (some b)] := by
  cases b with
  | false => exact .word (c := 'f') rfl .nil
  | true => exact .word (c := 't') rfl .nil

/-! ## Values between brackets -/

theorem renders_line (level : Nat) : Renders (line level) [] := by
  have hspaces : ∀ n, Renders (List.replicate n ' ') [] := by
    intro n
    induction n with
    | zero => exact .nil
    | succ n ih => exact .space rfl ih
  exact .space rfl (hspaces _)

/-- The tokens of values between brackets. -/
def blockTokens (left right : Token) : List (List Token) → List Token
  | [] => [left, right]
  | first :: rest => left :: (first ++ rest.flatMap (fun item => .comma :: item) ++ [right])

/-- The tokens of a record. -/
def recordTokens (members : List (String × List Token)) : List Token :=
  blockTokens .openRecord .closeRecord (members.map fun m => .text m.1 :: .colon :: m.2)

/-- The tokens of a list. -/
def listTokens (items : List (List Token)) : List Token := blockTokens .openList .closeList items

/-- The characters render the tokens, and the closing bracket comes last. -/
def RendersClosed (right : Char) (r : Token) (cs : List Char) (ts : List Token) : Prop :=
  ∃ ds us, cs = ds ++ [right] ∧ ts = us ++ [r] ∧ Renders ds us

theorem RendersClosed.renders {right : Char} {r : Token} (hr : Json.punctuation? right = some r)
    {cs : List Char} {ts : List Token} (h : RendersClosed right r cs ts) : Renders cs ts := by
  obtain ⟨ds, us, rfl, rfl, hrenders⟩ := h
  exact hrenders.append (.punctuation hr .nil)

theorem renders_block_rest (level : Nat) {cs : List Char} {ts : List Token}
    (h : RendersBefore cs ts) {items : List (List Char)} {tokens : List (List Token)}
    (hitems : List.Forall₂ RendersBefore items tokens) :
    Renders
      (cs ++ items.flatMap (fun item => ',' :: (line (level + 1) ++ item)) ++ line level)
      (ts ++ tokens.flatMap (fun item => .comma :: item)) := by
  induction hitems generalizing cs ts with
  | nil =>
      have hall : Renders (cs ++ line level) (ts ++ []) :=
        h '\n' _ _ (by decide) (renders_line level)
      simpa using hall
  | cons hitem _ ih =>
      have hcomma : Renders [','] [.comma] := .punctuation rfl .nil
      have hnext := ih (h.append_before (by decide)
        (hcomma.append_before ((renders_line (level + 1)).append_before hitem)))
      simpa using hnext

theorem rendersClosed_block {left right : Char} {l r : Token}
    (hl : Json.punctuation? left = some l) (level : Nat) {items : List (List Char)}
    {tokens : List (List Token)} (hitems : List.Forall₂ RendersBefore items tokens) :
    RendersClosed right r (block left right level items) (blockTokens l r tokens) := by
  have hleft : Renders [left] [l] := .punctuation hl .nil
  cases hitems with
  | nil => exact ⟨[left], [l], rfl, rfl, hleft⟩
  | cons hfirst hrest =>
      have hstart := (hleft.append (renders_line (level + 1))).append_before hfirst
      refine ⟨_, _, ?_, ?_, renders_block_rest level hstart hrest⟩
      · simp [block]
      · simp [blockTokens]

theorem rendersClosed_record (level : Nat) {members : List (String × List Char)}
    {tokens : List (String × List Token)}
    (h : List.Forall₂ (fun m n => m.1 = n.1 ∧ RendersBefore m.2 n.2) members tokens) :
    RendersClosed '}' .closeRecord (record level members) (recordTokens tokens) := by
  refine rendersClosed_block rfl level ?_
  rw [List.forall₂_map_left_iff, List.forall₂_map_right_iff]
  refine h.imp ?_
  rintro ⟨name, cs⟩ ⟨_, ts⟩ ⟨rfl, hvalue⟩
  have hcolon : Renders [':', ' '] [.colon] := .punctuation rfl (.space rfl .nil)
  exact ((renders_text name).append hcolon).append_before hvalue

theorem renders_list {α : Type} {f : α → List Char} {g : α → List Token}
    (h : ∀ a, Renders (f a) (g a)) (level : Nat) (xs : List α) :
    Renders (list level (xs.map f)) (listTokens (xs.map g)) := by
  have hitems : List.Forall₂ RendersBefore (xs.map f) (xs.map g) := by
    rw [List.forall₂_map_left_iff, List.forall₂_map_right_iff]
    exact List.forall₂_same.mpr fun a _ => (h a).before
  have hclosed : RendersClosed ']' .closeList (list level (xs.map f)) (listTokens (xs.map g)) :=
    rendersClosed_block rfl level hitems
  exact hclosed.renders rfl

/-! ## Configurations -/

def pinTokens (p : Pin) : List Token :=
  recordTokens [("index", [.number (some p.index)]), ("value", [.word (some p.value)])]

def rangeTokens (r : RangeText) : List Token :=
  recordTokens [("lo", [.text r.lower]), ("hi", [.text r.upper])]

def documentTokens (c : Config) : List Token :=
  recordTokens
    [("version", [.text c.version]),
     ("bw", [.number (some c.width)]),
     ("signed_prefix", [.number (some c.signedPrefix)]),
     ("fixed", listTokens (c.pins.map pinTokens)),
     ("ranges", listTokens (c.ranges.map rangeTokens))]

theorem renders_pin (p : Pin) : Renders (pin p) (pinTokens p) :=
  (rendersClosed_record 2 (.cons ⟨rfl, rendersBefore_size p.index⟩
    (.cons ⟨rfl, (renders_flag p.value).before⟩ .nil))).renders rfl

theorem renders_range (r : RangeText) : Renders (range r) (rangeTokens r) :=
  (rendersClosed_record 2 (.cons ⟨rfl, (renders_text r.lower).before⟩
    (.cons ⟨rfl, (renders_text r.upper).before⟩ .nil))).renders rfl

/-- The printer renders the tokens of a configuration, of which the closing brace comes last. -/
theorem rendersClosed_document (c : Config) :
    RendersClosed '}' .closeRecord (document c) (documentTokens c) := by
  refine rendersClosed_record 0 (.cons ⟨rfl, (renders_text c.version).before⟩
    (.cons ⟨rfl, rendersBefore_size c.width⟩ (.cons ⟨rfl, rendersBefore_size c.signedPrefix⟩
      (.cons ⟨rfl, ?_⟩ (.cons ⟨rfl, ?_⟩ .nil)))))
  · exact (renders_list renders_pin 1 c.pins).before
  · exact (renders_list renders_range 1 c.ranges).before

end Printer

end BitEnvelope.Config
