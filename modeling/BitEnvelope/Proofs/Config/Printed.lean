import BitEnvelope.Proofs.Config.Described
import BitEnvelope.Proofs.Config.Printer
import Mathlib.Data.List.Nodup

/-!
# What is printed describes the configuration

The text that the printer writes is one of the texts that describe a configuration, so every
configuration has such a text, and what is printed is read back. The printer puts a new line before
each item of a block and one after the last, and these are blanks around the items.
-/

namespace BitEnvelope.Config

namespace Printer

open Json (Blanks blanks_nil CharText HexUnit IsHexDigit Padded StringText)

/-! ## Strings -/

theorem isHexDigit_digitChar {n : Nat} (h : n < 16) : IsHexDigit n n.digitChar := ⟨h, .inl rfl⟩

theorem charText_controlEscape {c : Char} (h : c.toNat < 0x20) : CharText c (controlEscape c) := by
  unfold controlEscape
  split
  · exact .letter (by decide)
  · exact .letter (by decide)
  · exact .letter (by decide)
  · exact .letter (by decide)
  · exact .letter (by decide)
  · have hunit : HexUnit (c.toNat % 16 + 16 * (c.toNat / 16 + 16 * (0 + 16 * 0)))
        ['0', '0', (c.toNat / 16).digitChar, (c.toNat % 16).digitChar] :=
      .digits (isHexDigit_digitChar (by decide)) (isHexDigit_digitChar (by decide))
        (isHexDigit_digitChar (by omega)) (isHexDigit_digitChar (by omega))
    have hvalue : c.toNat % 16 + 16 * (c.toNat / 16 + 16 * (0 + 16 * 0)) = c.toNat := by omega
    rw [hvalue] at hunit
    rw [padded_control h]
    exact .unit hunit

theorem charText_escape (c : Char) : CharText c (escape c) := by
  rw [escape]
  split
  · rename_i hc
    rw [beq_iff_eq.mp hc]
    exact .letter (by decide)
  · rename_i hquote
    split
    · rename_i hc
      rw [beq_iff_eq.mp hc]
      exact .letter (by decide)
    · rename_i hslash
      split
      · rename_i hcontrol
        exact charText_controlEscape hcontrol
      · rename_i hcontrol
        exact .plain (by simpa using hquote) (by simpa using hslash) (Nat.le_of_not_lt hcontrol)

theorem stringText_text (s : String) : StringText s (text s) := by
  refine ⟨s.toList.map escape, ?_, ?_⟩
  · rw [List.forall₂_map_right_iff, List.forall₂_same]
    exact fun c _ => charText_escape c
  · rw [text, List.flatMap_def]

example : text "a\"\n\x1f" = "\"a\\\"\\n\\u001f\"".toList := by cbv

theorem flagText_flag (b : Bool) : FlagText b (flag b) := by
  cases b <;> rfl

/-! ## Blocks -/

theorem blanks_line (level : Nat) : Blanks (line level) := by
  refine List.forall_mem_cons.mpr ⟨.inr (.inr (.inl rfl)), fun c hc => .inl ?_⟩
  exact List.eq_of_mem_replicate hc

/-- The items of a block with what follows each of them: a new line after the last one. -/
def ended {α : Type} (level : Nat) : List α → List (α × { cs : List Char // Blanks cs })
  | [] => []
  | a :: as =>
    (a, bif as.isEmpty then ⟨line level, blanks_line level⟩ else ⟨[], blanks_nil⟩) ::
      ended level as

variable {α : Type}

theorem map_fst_ended (level : Nat) (as : List α) : (ended level as).map Prod.fst = as := by
  induction as with
  | nil => rfl
  | cons a as ih => exact congrArg (a :: ·) ih

theorem intercalate_ended (level : Nat) (f : α → List Char) (a : α) (as : List α) :
    [','].intercalate
        ((ended level (a :: as)).map fun i => line (level + 1) ++ f i.1 ++ i.2.1) =
      line (level + 1) ++ f a ++
        (as.map f).flatMap (fun item => ',' :: (line (level + 1) ++ item)) ++ line level := by
  induction as generalizing a with
  | nil => simp [ended]
  | cons b as ih =>
      have hne : (ended level (b :: as)).map (fun i => line (level + 1) ++ f i.1 ++ i.2.1) ≠ [] :=
        List.cons_ne_nil _ _
      rw [ended, List.map_cons, List.intercalate_cons_of_ne_nil hne, ih]
      simp

/-- The printer's blocks are those of the grammar. -/
theorem block_eq (left right : Char) (level : Nat) (f : α → List Char) (as : List α) :
    block left right level (as.map f) = Json.block left right []
      ((ended level as).map fun i => line (level + 1) ++ f i.1 ++ i.2.1) := by
  cases as with
  | nil => rfl
  | cons a as =>
      rw [Json.block, intercalate_ended]
      rfl

theorem listText_list {text : α → List Char → Prop} {f : α → List Char} (h : ∀ a, text a (f a))
    (level : Nat) (as : List α) : ListText text as (list level (as.map f)) := by
  let items := (ended level as).map fun i : α × { cs : List Char // Blanks cs } =>
    (i.1, (⟨line (level + 1), f i.1, i.2.1, blanks_line _, i.2.2⟩ : Padded))
  have hitems : items.map Prod.fst = as := by
    rw [List.map_map]
    exact map_fst_ended level as
  have htexts : ∀ i ∈ items, text i.1 i.2.body := by
    intro i hi
    obtain ⟨a, -, rfl⟩ := List.mem_map.mp hi
    exact h a.1
  have hlist := @ListText.items α text [] items blanks_nil htexts
  rw [hitems, List.map_map] at hlist
  rw [list, block_eq]
  exact hlist

theorem recordText_record (level : Nat) (members : List (Field × List Char))
    (h : ∀ m ∈ members, m.1.text m.2) (hnodup : (members.map fun m => m.1.name).Nodup) :
    RecordText (members.map Prod.fst) (record level (members.map fun m => (m.1.name, m.2))) := by
  let entries := (ended level members).map fun i : (Field × List Char) × { cs // Blanks cs } =>
    ({ name := ⟨line (level + 1), text i.1.1.name, [], blanks_line _, blanks_nil⟩
       value := ⟨[' '], i.1.2, i.2.1, by decide, i.2.2⟩
       label := i.1.1.name
       spelled := stringText_text i.1.1.name } : Entry)
  have hlabels : entries.map Entry.label = members.map fun m => m.1.name := by
    have hnames := congrArg (List.map fun m : Field × List Char => m.1.name)
      (map_fst_ended level members)
    rw [List.map_map] at hnames
    rw [List.map_map]
    exact hnames
  have hchars : record level (members.map fun m => (m.1.name, m.2)) =
      Json.block '{' '}' [] (entries.map fun e => e.chars) := by
    rw [record, List.map_map, List.map_map]
    refine (block_eq '{' '}' level _ members).trans (congrArg _ (List.map_congr_left fun i _ => ?_))
    simp [Json.Member.chars, Padded.chars]
  rw [hchars]
  refine @RecordText.entries _ [] entries blanks_nil ?_ ?_
  · intro f hf
    obtain ⟨m, hm, rfl⟩ := List.mem_map.mp hf
    rw [hlabels]
    exact .inl (List.count_eq_one_of_mem hnodup (List.mem_map.mpr ⟨m, hm, rfl⟩))
  · intro e he
    obtain ⟨i, hi, rfl⟩ := List.mem_map.mp he
    have hmem : i.1 ∈ members := by
      rw [← map_fst_ended level members]
      exact List.mem_map_of_mem hi
    exact .inl ⟨i.1.1, List.mem_map_of_mem hmem, rfl, h i.1 hmem⟩

/-! ## Configurations -/

theorem recordText_pin (p : Pin) : RecordText (pinFields p) (pin p) := by
  refine recordText_record 2 [(⟨"index", SizeText p.index, False⟩, size p.index),
    (⟨"value", FlagText p.value, False⟩, flag p.value)] ?_ ?_
  · exact List.forall_mem_cons.mpr ⟨rfl, List.forall_mem_singleton.mpr (flagText_flag p.value)⟩
  · exact show ["index", "value"].Nodup by decide

theorem recordText_range (r : RangeText) : RecordText (rangeFields r) (range r) := by
  refine recordText_record 2 [(⟨"lo", StringText r.lower, False⟩, text r.lower),
    (⟨"hi", StringText r.upper, False⟩, text r.upper)] ?_ ?_
  · exact List.forall_mem_cons.mpr
      ⟨stringText_text r.lower, List.forall_mem_singleton.mpr (stringText_text r.upper)⟩
  · exact show ["lo", "hi"].Nodup by decide

/-- What is printed describes the configuration. -/
theorem describes_toJson (c : Config) : c.Describes c.toJson.toList := by
  refine ⟨.bare (document c), ?_, ?_⟩
  · refine recordText_record 0
      [(⟨"version", StringText c.version, c.version = Release.version⟩, text c.version),
      (⟨"bw", SizeText c.width, False⟩, size c.width),
      (⟨"signed_prefix", SizeText c.signedPrefix, c.signedPrefix = 0⟩, size c.signedPrefix),
      (⟨"fixed", ListText (fun p => RecordText (pinFields p)) c.pins, c.pins = []⟩,
        list 1 (c.pins.map pin)),
      (⟨"ranges", ListText (fun r => RecordText (rangeFields r)) c.ranges, c.ranges = []⟩,
        list 1 (c.ranges.map range))] ?_ ?_
    · simp only [List.forall_mem_cons]
      exact ⟨stringText_text c.version, rfl, rfl, listText_list recordText_pin 1 c.pins,
        listText_list recordText_range 1 c.ranges, List.forall_mem_nil _⟩
    · exact show ["version", "bw", "signed_prefix", "fixed", "ranges"].Nodup by decide
  · rw [toJson, String.toList_ofList]
    simp [Padded.bare, Padded.chars]

end Printer

/-- What is written as JSON is read back as it was. -/
theorem ofJson_toJson (c : Config) : ofJson c.toJson = .ok c := by
  obtain ⟨d, hread, hconfig⟩ := Reader.exists_feedAll_of_describes (Printer.describes_toJson c)
  rw [ofJson, hread]
  exact Reader.finish_between hconfig

end BitEnvelope.Config
