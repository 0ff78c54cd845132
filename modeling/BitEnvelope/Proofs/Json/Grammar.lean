import Mathlib.Data.List.Forall2

/-!
# The grammar of JSON

Which characters are a JSON value, and which of them spell a string of a given content. Nothing here
is about reading: blanks, escapes and the case of hexadecimal digits are as free as the grammar has
them. Of a value that nobody asks for it only matters that it is well-formed, and a well-formed
string need not have a content, because an escape may name half of a surrogate pair.
-/

namespace BitEnvelope.Json

/-! ## Blanks and brackets -/

/-- Any number of spaces, tabs, line feeds and carriage returns. -/
def Blanks (cs : List Char) : Prop := ∀ c ∈ cs, c = ' ' ∨ c = '\t' ∨ c = '\n' ∨ c = '\r'

instance (cs : List Char) : Decidable (Blanks cs) := List.decidableBAll _ cs

theorem blanks_nil : Blanks [] := List.forall_mem_nil _

/-- Characters that stand between blanks. -/
structure Padded where
  before : List Char
  body : List Char
  after : List Char
  blanks_before : Blanks before
  blanks_after : Blanks after

def Padded.chars (p : Padded) : List Char := p.before ++ p.body ++ p.after

/-- Characters without blanks around them. -/
def Padded.bare (cs : List Char) : Padded :=
  { before := [], body := cs, after := []
    blanks_before := blanks_nil, blanks_after := blanks_nil }

/-- A name and a value, with a colon between them. -/
structure Member where
  name : Padded
  value : Padded

def Member.chars (m : Member) : List Char := m.name.chars ++ ':' :: m.value.chars

/-- Items between brackets, with commas between them. Without an item, blanks may still stand
there. -/
def block (left right : Char) (pad : List Char) (items : List (List Char)) : List Char :=
  left :: (pad ++ [','].intercalate items ++ [right])

/-! ## Strings -/

/-- The hexadecimal digit of `n`, in lower or upper case. -/
def IsHexDigit (n : Nat) (c : Char) : Prop :=
  n < 16 ∧ (c = n.digitChar ∨ c = n.digitChar.toUpper)

/-- Four hexadecimal digits and their value. -/
inductive HexUnit : Nat → List Char → Prop where
  | digits {k l m n : Nat} {a b c d : Char} (ha : IsHexDigit k a) (hb : IsHexDigit l b)
      (hc : IsHexDigit m c) (hd : IsHexDigit n d) :
      HexUnit (n + 16 * (m + 16 * (l + 16 * k))) [a, b, c, d]

/-- The characters that have an escape of one letter, after that letter. -/
def letterEscapes : List (Char × Char) :=
  [('"', '"'), ('\\', '\\'), ('/', '/'), ('b', '\x08'), ('f', '\x0c'), ('n', '\n'), ('r', '\r'),
    ('t', '\t')]

/-- What may stand for the character `c` in a string. -/
inductive CharText (c : Char) : List Char → Prop where
  | plain (quote : c ≠ '"') (backslash : c ≠ '\\') (control : 0x20 ≤ c.toNat) : CharText c [c]
  | letter {l : Char} (h : (l, c) ∈ letterEscapes) : CharText c ['\\', l]
  | unit {ds : List Char} (h : HexUnit c.toNat ds) : CharText c ('\\' :: 'u' :: ds)
  /-- A character above `U+FFFF` as a surrogate pair. -/
  | pair {ds es : List Char} (above : 0x10000 ≤ c.toNat)
      (high : HexUnit (0xd800 + (c.toNat - 0x10000) / 0x400) ds)
      (low : HexUnit (0xdc00 + (c.toNat - 0x10000) % 0x400) es) :
      CharText c ('\\' :: 'u' :: ds ++ '\\' :: 'u' :: es)

/-- The characters are a string of the given content. -/
def StringText (content : String) (cs : List Char) : Prop :=
  ∃ pieces, List.Forall₂ CharText content.toList pieces ∧ cs = '"' :: pieces.flatten ++ ['"']

/-- Characters that need no escape stand for themselves. -/
theorem StringText.plain {content : String}
    (h : (content.toList.all fun c => c != '"' && c != '\\' && 0x20 ≤ c.toNat) = true) :
    StringText content ('"' :: content.toList ++ ['"']) := by
  refine ⟨content.toList.map fun c => [c], ?_, ?_⟩
  · rw [List.forall₂_map_right_iff, List.forall₂_same]
    intro c hc
    have hplain := List.all_eq_true.mp h c hc
    simp only [Bool.and_eq_true, bne_iff_ne, decide_eq_true_iff] at hplain
    exact .plain hplain.1.1 hplain.1.2 hplain.2
  · rw [← List.flatMap_def, List.flatMap_singleton']

/-- A piece of a string, which need not stand for a character. -/
inductive IsPiece : List Char → Prop where
  | text {c : Char} {cs : List Char} (h : CharText c cs) : IsPiece cs
  | unit {n : Nat} {ds : List Char} (h : HexUnit n ds) : IsPiece ('\\' :: 'u' :: ds)

/-- The characters are a string. -/
def IsString (cs : List Char) : Prop :=
  ∃ pieces : List (List Char), (∀ p ∈ pieces, IsPiece p) ∧ cs = '"' :: pieces.flatten ++ ['"']

/-! ## Numbers -/

/-- At least one decimal digit. -/
inductive IsDigits : List Char → Prop where
  | cons {c : Char} {cs : List Char} (first : c.isDigit = true)
      (rest : ∀ d ∈ cs, d.isDigit = true) : IsDigits (c :: cs)

/-- An integer without a leading zero. -/
inductive IsWhole : List Char → Prop where
  | zero : IsWhole ['0']
  | digits {c : Char} {cs : List Char} (first : c.isDigit = true) (nonzero : c ≠ '0')
      (rest : ∀ d ∈ cs, d.isDigit = true) : IsWhole (c :: cs)

/-- A fraction, or none. -/
inductive IsFraction : List Char → Prop where
  | none : IsFraction []
  | digits {cs : List Char} (h : IsDigits cs) : IsFraction ('.' :: cs)

/-- An exponent, or none. -/
inductive IsExponent : List Char → Prop where
  | none : IsExponent []
  | digits {e : Char} {sign cs : List Char} (letter : e = 'e' ∨ e = 'E')
      (hsign : sign = [] ∨ sign = ['+'] ∨ sign = ['-']) (h : IsDigits cs) :
      IsExponent (e :: (sign ++ cs))

/-- The characters are a number. -/
inductive IsNumber : List Char → Prop where
  | parts {sign whole fraction exponent : List Char} (hsign : sign = [] ∨ sign = ['-'])
      (hwhole : IsWhole whole) (hfraction : IsFraction fraction) (hexponent : IsExponent exponent) :
      IsNumber (sign ++ whole ++ fraction ++ exponent)

/-! ## Values -/

/-- The characters are a value. -/
inductive IsValue : List Char → Prop where
  | word {word : String} (h : word ∈ ["true", "false", "null"]) : IsValue word.toList
  | number {cs : List Char} (h : IsNumber cs) : IsValue cs
  | string {cs : List Char} (h : IsString cs) : IsValue cs
  | list {pad : List Char} {items : List Padded} (hpad : Blanks pad)
      (hitems : ∀ i ∈ items, IsValue i.body) :
      IsValue (block '[' ']' pad (items.map Padded.chars))
  | record {pad : List Char} {members : List Member} (hpad : Blanks pad)
      (hnames : ∀ m ∈ members, IsString m.name.body)
      (hvalues : ∀ m ∈ members, IsValue m.value.body) :
      IsValue (block '{' '}' pad (members.map Member.chars))

end BitEnvelope.Json
