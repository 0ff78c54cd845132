import BitEnvelope.Config.Basic
import BitEnvelope.Proofs.Json.Grammar

/-!
# Texts that describe a configuration

A JSON text describes a configuration if its members are the fields of the configuration, in any
order and with any spelling of strings, and members under other names hold any values. A field may
be left out where its value is the default. The same holds within each pin and each interval. No
text is singled out: blanks, escapes and what else a record holds are as free as the grammar has
them.
-/

namespace BitEnvelope.Config

open Json (Blanks Padded StringText)

/-! ## Records and lists -/

/-- A member that a record has: its name, the texts of its value, and when it may be left out. -/
structure Field where
  name : String
  text : List Char → Prop
  optional : Prop

/-- A member of a text, and what its name spells. -/
structure Entry extends Json.Member where
  label : String
  spelled : StringText label name.body

/-- A member whose name has no escapes. -/
def Entry.plain (label : String)
    (h : (label.toList.all fun c => c != '"' && c != '\\' && 0x20 ≤ c.toNat) = true)
    (value : Padded) : Entry :=
  { name := .bare ('"' :: label.toList ++ ['"']), value, label, spelled := .plain h }

/-- The characters are a record with the given fields. Each of them occurs once, in any order;
members under other names hold any values. -/
inductive RecordText (fields : List Field) : List Char → Prop where
  | entries {pad : List Char} {entries : List Entry} (blanks : Blanks pad)
      (once : ∀ f ∈ fields, (entries.map Entry.label).count f.name = 1 ∨
        f.optional ∧ f.name ∉ entries.map Entry.label)
      (values : ∀ e ∈ entries, (∃ f ∈ fields, e.label = f.name ∧ f.text e.value.body) ∨
        (∀ f ∈ fields, e.label ≠ f.name) ∧ Json.IsValue e.value.body) :
      RecordText fields (Json.block '{' '}' pad (entries.map fun e => e.chars))

/-- The characters are a list of values, each of them with a text of its own. -/
inductive ListText {α : Type} (text : α → List Char → Prop) : List α → List Char → Prop where
  | items {pad : List Char} {items : List (α × Padded)} (blanks : Blanks pad)
      (texts : ∀ i ∈ items, text i.1 i.2.body) :
      ListText text (items.map Prod.fst) (Json.block '[' ']' pad (items.map fun i => i.2.chars))

/-! ## The fields of a configuration -/

def SizeText (n : UInt64) (cs : List Char) : Prop := cs = Numeral.digits 10 n.toNat

def FlagText (b : Bool) (cs : List Char) : Prop := cs = (if b then "true" else "false").toList

def pinFields (p : Pin) : List Field :=
  [⟨"index", SizeText p.index, False⟩, ⟨"value", FlagText p.value, False⟩]

def rangeFields (r : RangeText) : List Field :=
  [⟨"lo", StringText r.lower, False⟩, ⟨"hi", StringText r.upper, False⟩]

def fields (c : Config) : List Field :=
  [⟨"version", StringText c.version, c.version = Release.version⟩,
    ⟨"bw", SizeText c.width, False⟩,
    ⟨"signed_prefix", SizeText c.signedPrefix, c.signedPrefix = 0⟩,
    ⟨"fixed", ListText (fun p => RecordText (pinFields p)) c.pins, c.pins = []⟩,
    ⟨"ranges", ListText (fun r => RecordText (rangeFields r)) c.ranges, c.ranges = []⟩]

/-- The characters describe the configuration `c`. -/
def Describes (c : Config) (cs : List Char) : Prop :=
  ∃ p : Padded, RecordText c.fields p.body ∧ cs = p.chars

end BitEnvelope.Config
