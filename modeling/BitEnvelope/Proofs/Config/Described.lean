import BitEnvelope.Proofs.Config.Records
import BitEnvelope.Proofs.Config.Tokens

/-!
# The layout of a configuration does not matter

Every text that describes a configuration is read as that configuration. Pins and intervals are read
into the draft while their list is open, so what is left of the last one does not matter; of the
document, the draft holds the fields whose names have occurred. At the end all fields have occurred
or have their default.
-/

namespace BitEnvelope.Config

open Json (Padded StringText Token)

namespace Reader

variable {fs : List Frame} {draft : Draft} {cs : List Char}

/-! ## Fields that have been read -/

/-- The value of a field, once its name has occurred. -/
def pick {α : Type} (labels : List String) (name : String) (a : α) : Option α :=
  if name ∈ labels then some a else none

section Pick

variable {α : Type} {labels : List String} {name label : String} {a b : α}

theorem pick_append : pick (labels ++ [label]) name a =
    if label = name then some a else pick labels name a := by
  by_cases h : label = name
  · have hmem : name ∈ labels ++ [label] := h ▸ List.mem_append_right labels List.mem_cons_self
    rw [if_pos h, pick, if_pos hmem]
  · have hmem : name ∈ labels ++ [label] ↔ name ∈ labels := by
      rw [List.mem_append, List.mem_singleton]
      exact or_iff_left (Ne.symm h)
    rw [if_neg h]
    exact if_congr hmem rfl rfl

theorem pick_of_mem (h : name ∈ labels) : pick labels name a = some a := if_pos h

theorem pick_of_notMem (h : name ∉ labels) : pick labels name a = none := if_neg h

/-- A value that has not been read is the default. -/
theorem getD_pick (h : name ∈ labels ∨ a = b) : (pick labels name a).getD b = a := by
  by_cases hmem : name ∈ labels
  · rw [pick_of_mem hmem]
    rfl
  · rw [pick_of_notMem hmem]
    exact (h.resolve_left hmem).symm

end Pick

/-! ## Pins and intervals -/

theorem spells_flag {b : Bool} (h : FlagText b cs) : Spells cs [.word (some b)] := by
  subst h
  cases b with
  | true => exact spells_word (c := 't') rfl
  | false => exact spells_word (c := 'f') rfl

theorem spells_string {content : String} (h : StringText content cs) :
    Spells cs [.text content] := by
  obtain ⟨pieces, hpieces, rfl⟩ := h
  exact spells_text (.of_pieces hpieces)

theorem leads_sizeText {n : UInt64} {d e : Decoder} (h : SizeText n cs)
    (hd : d.take (.number (some n)) = .ok e) : LeadsBefore cs d e := by
  subst h
  exact (spells_size n).leadsBefore hd

/-- Of a record of two fields, the draft holds a pair of values, each of them once its name has
occurred. -/
theorem fills_pair {α β : Type} {r : Record} {m n : String} {a : α} {b : β}
    {first second : List Char → Prop} {holding : Option α × Option β → Draft} (hne : m ≠ n)
    (hslots : ∀ label, label ≠ m → label ≠ n → r.slot label = .extra)
    (hfirst : ∀ y, (holding (none, y)).has (r.slot m) = false)
    (hsecond : ∀ x, (holding (x, none)).has (r.slot n) = false)
    (htake : ∀ x y cs, first cs →
      LeadsBefore cs ((members r).within fs (.value (r.slot m)) (holding (x, y)))
        ((members r).within fs .separator (holding (some a, y))))
    (htake' : ∀ x y cs, second cs →
      LeadsBefore cs ((members r).within fs (.value (r.slot n)) (holding (x, y)))
        ((members r).within fs .separator (holding (x, some b)))) :
    Fills r fs [⟨m, first, False⟩, ⟨n, second, False⟩] fun labels d =>
      d = holding (pick labels m a, pick labels n b) where
  extra label h := by
    simp only [List.forall_mem_cons] at h
    exact hslots label h.1 h.2.1
  skip label h labels d hd := by
    simp only [List.forall_mem_cons] at h
    rw [hd, pick_append, pick_append, if_neg h.1, if_neg h.2.1]
  fresh := by
    simp only [List.forall_mem_cons]
    refine ⟨?_, ?_, List.forall_mem_nil _⟩
    · rintro labels _ hnew rfl
      rw [pick_of_notMem hnew]
      exact hfirst _
    · rintro labels _ hnew rfl
      rw [pick_of_notMem hnew]
      exact hsecond _
  take := by
    simp only [List.forall_mem_cons]
    refine ⟨?_, ?_, List.forall_mem_nil _⟩
    · rintro labels _ rfl cs hcs
      refine ⟨_, rfl, ?_⟩
      rw [pick_append, pick_append, if_pos rfl, if_neg hne]
      exact htake _ _ cs hcs
    · rintro labels _ rfl cs hcs
      refine ⟨_, rfl, ?_⟩
      rw [pick_append, pick_append, if_neg hne.symm, if_pos rfl]
      exact htake' _ _ cs hcs

theorem fills_pin (fs : List Frame) (draft : Draft) (ps : List Pin) (p : Pin) :
    Fills .pin fs (pinFields p) fun labels d => d =
      Decoder.withPins draft ps (pick labels "index" p.index, pick labels "value" p.value) := by
  refine fills_pair (by decide) (fun label hindex hvalue => Record.slot_eq_extra ?_)
    (fun _ => rfl) (fun _ => rfl) (fun _ _ _ hcs => leads_sizeText hcs rfl)
    fun _ _ _ hcs => ((spells_flag hcs).leads rfl).before
  simp [Record.slots, Slot.name?, hindex.symm, hvalue.symm]

theorem fills_range (fs : List Frame) (draft : Draft) (rs : List RangeText) (r : RangeText) :
    Fills .range fs (rangeFields r) fun labels d => d =
      Decoder.withRanges draft rs (pick labels "lo" r.lower, pick labels "hi" r.upper) := by
  refine fills_pair (by decide) (fun label hlower hupper => Record.slot_eq_extra ?_)
    (fun _ => rfl) (fun _ => rfl) (fun _ _ _ hcs => ((spells_string hcs).leads rfl).before)
    fun _ _ _ hcs => ((spells_string hcs).leads rfl).before
  simp [Record.slots, Slot.name?, hlower.symm, hupper.symm]

theorem gathers_pins (draft : Draft) :
    Gathers .pin (fun p => RecordText (pinFields p)) (Decoder.withPins draft) := by
  intro fs ps s p cs place h hplace
  have hclear : (Decoder.withPins draft ps s).clear .pin =
      Decoder.withPins draft ps (none, none) := rfl
  obtain ⟨labels, _, rfl, hlabels, hread⟩ :=
    leads_record h (fills_pin (.items .pin :: fs) draft ps p) hclear hplace
  simp only [pinFields, List.forall_mem_cons, or_false] at hlabels
  refine ⟨(some p.index, some p.value), hread _ ?_⟩
  rw [pick_of_mem hlabels.1, pick_of_mem hlabels.2.1]
  rfl

theorem gathers_ranges (draft : Draft) :
    Gathers .range (fun r => RecordText (rangeFields r)) (Decoder.withRanges draft) := by
  intro fs rs s r cs place h hplace
  have hclear : (Decoder.withRanges draft rs s).clear .range =
      Decoder.withRanges draft rs (none, none) := rfl
  obtain ⟨labels, _, rfl, hlabels, hread⟩ :=
    leads_record h (fills_range (.items .range :: fs) draft rs r) hclear hplace
  simp only [rangeFields, List.forall_mem_cons, or_false] at hlabels
  refine ⟨(some r.lower, some r.upper), hread _ ?_⟩
  rw [pick_of_mem hlabels.1, pick_of_mem hlabels.2.1]
  rfl

theorem leads_pins (draft : Draft) {ps : List Pin}
    (h : ListText (fun p => RecordText (pinFields p)) ps cs) :
    ∃ s, Leads cs ((members .document).within [] (.value .pins) draft)
      ((members .document).within [] .separator (Decoder.withPins draft ps s)) := by
  have hopen : draft.openList .pins =
      Decoder.withPins draft [] (draft.index, draft.value) := rfl
  exact leads_list h (gathers_pins draft) (fun _ => rfl) hopen

theorem leads_ranges (draft : Draft) {rs : List RangeText}
    (h : ListText (fun r => RecordText (rangeFields r)) rs cs) :
    ∃ s, Leads cs ((members .document).within [] (.value .ranges) draft)
      ((members .document).within [] .separator (Decoder.withRanges draft rs s)) := by
  have hopen : draft.openList .ranges =
      Decoder.withRanges draft [] (draft.lower, draft.upper) := rfl
  exact leads_list h (gathers_ranges draft) (fun _ => rfl) hopen

/-! ## The document -/

/-- After members of the names `labels`, the draft holds the fields of `c` with these names. -/
structure Holds (c : Config) (labels : List String) (draft : Draft) : Prop where
  version : draft.version = pick labels "version" c.version
  width : draft.width = pick labels "bw" c.width
  signedPrefix : draft.signedPrefix = pick labels "signed_prefix" c.signedPrefix
  pins : draft.pins = pick labels "fixed" c.pins
  ranges : draft.ranges = pick labels "ranges" c.ranges

section Document

variable {c : Config} {labels : List String} {draft' : Draft}

theorem Holds.append (h : Holds c labels draft) {label : String}
    (hversion : draft'.version = if label = "version" then some c.version else draft.version)
    (hwidth : draft'.width = if label = "bw" then some c.width else draft.width)
    (hsign : draft'.signedPrefix =
      if label = "signed_prefix" then some c.signedPrefix else draft.signedPrefix)
    (hpins : draft'.pins = if label = "fixed" then some c.pins else draft.pins)
    (hranges : draft'.ranges = if label = "ranges" then some c.ranges else draft.ranges) :
    Holds c (labels ++ [label]) draft' := by
  constructor
  · rw [pick_append, hversion, h.version]
  · rw [pick_append, hwidth, h.width]
  · rw [pick_append, hsign, h.signedPrefix]
  · rw [pick_append, hpins, h.pins]
  · rw [pick_append, hranges, h.ranges]

theorem fills_document (c : Config) : Fills .document [] c.fields (Holds c) where
  extra label h := by
    apply Record.slot_eq_extra
    simp only [fields, List.forall_mem_cons] at h
    obtain ⟨hversion, hwidth, hsign, hpins, hranges, -⟩ := h
    simp [Record.slots, Slot.name?, hversion.symm, hwidth.symm, hsign.symm, hpins.symm,
      hranges.symm]
  skip label h labels draft hd := by
    simp only [fields, List.forall_mem_cons] at h
    obtain ⟨hversion, hwidth, hsign, hpins, hranges, -⟩ := h
    exact hd.append (if_neg hversion).symm (if_neg hwidth).symm (if_neg hsign).symm
      (if_neg hpins).symm (if_neg hranges).symm
  fresh := by
    have hnone : ∀ {α : Type} {value : Option α} {labels : List String} {name : String} {a : α},
        name ∉ labels → value = pick labels name a → value.isSome = false := by
      rintro α value labels name a hnew rfl
      rw [pick_of_notMem hnew]
      rfl
    simp only [fields, List.forall_mem_cons]
    exact ⟨fun _ _ hnew hd => hnone hnew hd.version, fun _ _ hnew hd => hnone hnew hd.width,
      fun _ _ hnew hd => hnone hnew hd.signedPrefix, fun _ _ hnew hd => hnone hnew hd.pins,
      fun _ _ hnew hd => hnone hnew hd.ranges, List.forall_mem_nil _⟩
  take := by
    simp only [fields, List.forall_mem_cons]
    refine ⟨?_, ?_, ?_, ?_, ?_, List.forall_mem_nil _⟩
    · intro labels draft hd cs hcs
      exact ⟨{ draft with version := some c.version }, hd.append rfl rfl rfl rfl rfl,
        ((spells_string hcs).leads rfl).before⟩
    · intro labels draft hd cs hcs
      exact ⟨{ draft with width := some c.width }, hd.append rfl rfl rfl rfl rfl,
        leads_sizeText hcs rfl⟩
    · intro labels draft hd cs hcs
      exact ⟨{ draft with signedPrefix := some c.signedPrefix }, hd.append rfl rfl rfl rfl rfl,
        leads_sizeText hcs rfl⟩
    · intro labels draft hd cs hcs
      obtain ⟨s, hread⟩ := leads_pins draft hcs
      exact ⟨Decoder.withPins draft c.pins s, hd.append rfl rfl rfl rfl rfl, hread.before⟩
    · intro labels draft hd cs hcs
      obtain ⟨s, hread⟩ := leads_ranges draft hcs
      exact ⟨Decoder.withRanges draft c.ranges s, hd.append rfl rfl rfl rfl rfl, hread.before⟩

/-- What has been read is the configuration, once all fields have occurred that have no default. -/
theorem Holds.config? (h : Holds c labels draft)
    (hlabels : ∀ f ∈ c.fields, f.name ∈ labels ∨ f.optional) :
    draft.complete .document = .ok draft ∧ draft.config? = some c := by
  simp only [fields, List.forall_mem_cons, or_false] at hlabels
  obtain ⟨hversion, hwidth, hsign, hpins, hranges, -⟩ := hlabels
  have hsome : draft.width = some c.width := h.width.trans (pick_of_mem hwidth)
  constructor
  · rw [Draft.complete, hsome]
    rfl
  · rw [Draft.config?, hsome, h.version, h.signedPrefix, h.pins, h.ranges, getD_pick hversion,
      getD_pick hsign, getD_pick hpins, getD_pick hranges]
    rfl

/-- A text that describes a configuration is read to its end, and then the configuration is there. -/
theorem exists_feedAll_of_describes (h : c.Describes cs) :
    ∃ d, start.feedAll cs = .ok (.between d) ∧ d.config? = some c := by
  obtain ⟨p, hrecord, rfl⟩ := h
  have hblank : Holds c [] (Draft.blank.clear .document) := ⟨rfl, rfl, rfl, rfl, rfl⟩
  obtain ⟨labels, draft, hholds, hlabels, hread⟩ :=
    leads_record hrecord (fills_document c) hblank (.inl rfl)
  obtain ⟨hcomplete, hconfig⟩ := hholds.config? hlabels
  exact ⟨_, (hread draft hcomplete).padded, hconfig⟩

end Document

end Reader

/-- Every text that describes a configuration is read as that configuration, whatever the order of
its members, the spelling of its strings, the blanks between its tokens, the members under other
names and the omitted defaults are. -/
theorem ofJson_eq_of_describes {c : Config} {text : String} (h : c.Describes text.toList) :
    ofJson text = .ok c := by
  obtain ⟨d, hread, hconfig⟩ := Reader.exists_feedAll_of_describes h
  rw [ofJson, hread]
  exact Reader.finish_between hconfig

/-- A text with its members in another order, an escape in a name, the defaults omitted, and a
member that is skipped although neither its number nor its string has a value. The braces are
written as `\x7b` and `\x7d`. -/
def shuffled : String :=
  "\n\x7b\"note\":[1e999,\"\\uD800\"],\"fixed\":[\x7b\"value\":true,\"index\": 3 \x7d]," ++
    "\"\\u0062w\":8\t\x7d"

theorem isValue_note : Json.IsValue "[1e999,\"\\uD800\"]".toList := by
  have hnumber : Json.IsNumber "1e999".toList :=
    @Json.IsNumber.parts [] ['1'] [] ['e', '9', '9', '9'] (.inl rfl)
      (.digits rfl (by decide) (List.forall_mem_nil _)) .none
      (@Json.IsExponent.digits 'e' [] ['9', '9', '9'] (.inl rfl) (.inl rfl)
        (.cons rfl (List.all_eq_true.mp rfl)))
  have hunit : Json.HexUnit 0xd800 ['D', '8', '0', '0'] :=
    @Json.HexUnit.digits 13 8 0 0 'D' '8' '0' '0' ⟨by decide, .inr rfl⟩ ⟨by decide, .inl rfl⟩
      ⟨by decide, .inl rfl⟩ ⟨by decide, .inl rfl⟩
  have hstring : Json.IsString "\"\\uD800\"".toList :=
    ⟨[['\\', 'u', 'D', '8', '0', '0']], List.forall_mem_singleton.mpr (.unit hunit), rfl⟩
  exact @Json.IsValue.list [] [.bare "1e999".toList, .bare "\"\\uD800\"".toList] (by decide)
    (List.forall_mem_cons.mpr ⟨.number hnumber, List.forall_mem_singleton.mpr (.string hstring)⟩)

/-- A size of one digit. -/
theorem sizeText_of_lt {n : UInt64} (h : n.toNat < 10) : SizeText n [n.toNat.digitChar] := by
  rw [SizeText, Numeral.digits, dif_neg (by omega)]

theorem recordText_shuffledPin :
    RecordText (pinFields ⟨3, true⟩) "\x7b\"value\":true,\"index\": 3 \x7d".toList := by
  let value : Entry := .plain "value" rfl (.bare "true".toList)
  let index : Entry := .plain "index" rfl ⟨[' '], ['3'], [' '], by decide, by decide⟩
  have hindex : SizeText 3 ['3'] := sizeText_of_lt (by decide)
  refine @RecordText.entries (pinFields ⟨3, true⟩) [] [value, index] (by decide) ?_ ?_
  · exact List.forall_mem_cons.mpr ⟨.inl rfl, List.forall_mem_singleton.mpr (.inl rfl)⟩
  · exact List.forall_mem_cons.mpr ⟨.inl ⟨_, List.mem_cons_of_mem _ List.mem_cons_self, rfl, rfl⟩,
      List.forall_mem_singleton.mpr (.inl ⟨_, List.mem_cons_self, rfl, hindex⟩)⟩

/-- The text gives the width and the one pin. -/
theorem ofJson_eq_of_describes_shuffled :
    let c := (unrestricted 8).withPin 3 true
    c.Describes shuffled.toList ∧ ofJson shuffled = .ok c := by
  intro c
  have hunit : Json.HexUnit 'b'.toNat ['0', '0', '6', '2'] :=
    @Json.HexUnit.digits 0 0 6 2 '0' '0' '6' '2' ⟨by decide, .inl rfl⟩ ⟨by decide, .inl rfl⟩
      ⟨by decide, .inl rfl⟩ ⟨by decide, .inl rfl⟩
  have hname : StringText "bw" "\"\\u0062w\"".toList :=
    ⟨[['\\', 'u', '0', '0', '6', '2'], ['w']],
      .cons (.unit hunit) (.cons (.plain (by decide) (by decide) (by decide)) .nil), rfl⟩
  let note : Entry := .plain "note" rfl (.bare "[1e999,\"\\uD800\"]".toList)
  let fixed : Entry :=
    .plain "fixed" rfl (.bare "[\x7b\"value\":true,\"index\": 3 \x7d]".toList)
  let bw : Entry :=
    { name := .bare "\"\\u0062w\"".toList, value := ⟨[], ['8'], ['\t'], by decide, by decide⟩
      label := "bw", spelled := hname }
  have hother : ∀ f ∈ c.fields, "note" ≠ f.name := by
    simp only [fields, List.forall_mem_cons]
    exact ⟨by decide, by decide, by decide, by decide, by decide, List.forall_mem_nil _⟩
  have hpins : ListText (fun p => RecordText (pinFields p)) c.pins fixed.value.body :=
    @ListText.items Pin (fun p => RecordText (pinFields p)) []
      [(⟨3, true⟩, .bare "\x7b\"value\":true,\"index\": 3 \x7d".toList)] (by decide)
      (List.forall_mem_singleton.mpr recordText_shuffledPin)
  have hwidth : SizeText 8 ['8'] := sizeText_of_lt (by decide)
  have hlabels : [note, fixed, bw].map Entry.label = ["note", "fixed", "bw"] := rfl
  have hrecord := @RecordText.entries c.fields [] [note, fixed, bw] (by decide) ?_ ?_
  · have hdescribes : c.Describes shuffled.toList :=
      ⟨⟨['\n'], _, [], by decide, by decide⟩, hrecord, by rfl⟩
    exact ⟨hdescribes, ofJson_eq_of_describes hdescribes⟩
  · rw [hlabels]
    simp only [fields, List.forall_mem_cons]
    exact ⟨.inr ⟨rfl, by decide⟩, .inl rfl, .inr ⟨rfl, by decide⟩, .inl rfl, .inr ⟨rfl, by decide⟩,
      List.forall_mem_nil _⟩
  · simp only [List.forall_mem_cons]
    exact ⟨.inr ⟨hother, isValue_note⟩,
      .inl ⟨c.fields[3], List.getElem_mem _, rfl, hpins⟩,
      .inl ⟨c.fields[1], List.getElem_mem _, rfl, hwidth⟩, List.forall_mem_nil _⟩

end BitEnvelope.Config
