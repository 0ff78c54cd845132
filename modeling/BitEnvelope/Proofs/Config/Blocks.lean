import BitEnvelope.Proofs.Config.Spelling
import BitEnvelope.Proofs.Json.Passing

/-!
# Values between brackets

Where a reader stands between two tokens, it is determined by its decoder. Characters lead from
one decoder to another if they are read from the one place to the other, with no fault on the way.
Blanks lead nowhere, and what stands between brackets is read if each of its items is: the items
may fill the draft step by step, so an invariant says what has been filled by the items so far.

A value that nobody asks for is read over, however deep its brackets go.
-/

namespace BitEnvelope.Config

open Json (Blanks Fault NumberReader Padded TextReader Token)

namespace Reader

variable {d e : Decoder} {t : Token} {cs ds : List Char} {c : Char}

/-- The characters `cs` lead from the decoder `d` to the decoder `e`. -/
def Leads (cs : List Char) (d e : Decoder) : Prop := (between d).feedAll cs = .ok (between e)

/-- The characters `cs` lead from `d` to `e` if a character follows that ends a number. -/
def LeadsBefore (cs : List Char) (d e : Decoder) : Prop :=
  ∀ c rest, NumberReader.Ends c →
    (between d).feedAll (cs ++ c :: rest) = (between e).feedAll (c :: rest)

theorem Spells.leads (h : Spells cs [t]) (ht : d.take t = .ok e) : Leads cs d e :=
  h d e ((d.takeAll_singleton t).trans ht)

theorem SpellsBefore.leadsBefore (h : SpellsBefore cs [t]) (ht : d.take t = .ok e) :
    LeadsBefore cs d e :=
  h d e ((d.takeAll_singleton t).trans ht)

theorem Leads.append {d' : Decoder} (h : Leads cs d d') (h' : Leads ds d' e) :
    Leads (cs ++ ds) d e :=
  (feedAll_append_of_feedAll h ds).trans h'

theorem Leads.before (h : Leads cs d e) : LeadsBefore cs d e :=
  fun c rest _ => feedAll_append_of_feedAll h (c :: rest)

theorem Leads.append_before {d' : Decoder} (h : Leads cs d d') (h' : LeadsBefore ds d' e) :
    LeadsBefore (cs ++ ds) d e := by
  intro c rest hc
  rw [List.append_assoc, feedAll_append_of_feedAll h]
  exact h' c rest hc

theorem LeadsBefore.append {d' : Decoder} (h : LeadsBefore cs d d') (hc : NumberReader.Ends c)
    (h' : Leads (c :: ds) d' e) : Leads (cs ++ c :: ds) d e :=
  (h c ds hc).trans h'

theorem LeadsBefore.append_before {d' : Decoder} (h : LeadsBefore cs d d')
    (hc : NumberReader.Ends c) (h' : LeadsBefore (c :: ds) d' e) :
    LeadsBefore (cs ++ c :: ds) d e := by
  intro x rest hx
  rw [List.append_assoc, List.cons_append, h c _ hc]
  exact h' x rest hx

theorem leads_punctuation (h : Json.punctuation? c = some t) (ht : d.take t = .ok e) :
    Leads [c] d e :=
  (spells_punctuation h).leads ht

/-! ## Blanks -/

theorem isSpace_of_blanks (h : Blanks cs) : ∀ c ∈ cs, Json.isSpace c = true := by
  intro c hc
  obtain rfl | rfl | rfl | rfl := h c hc <;> rfl

theorem ends_of_blanks (h : Blanks cs) : ∀ c ∈ cs, NumberReader.Ends c := by
  intro c hc
  obtain rfl | rfl | rfl | rfl := h c hc <;> decide

theorem leads_blanks (h : Blanks cs) (d : Decoder) : Leads cs d d := by
  induction cs with
  | nil => rfl
  | cons c cs ih =>
      obtain ⟨-, hrest⟩ := List.forall_mem_cons.mp h
      have hspace := isSpace_of_blanks h c List.mem_cons_self
      exact Leads.append (spells_space hspace d d rfl) (ih hrest)

/-- Blanks end a number too. -/
theorem LeadsBefore.append_blanks (h : LeadsBefore cs d e) (hds : Blanks ds) :
    LeadsBefore (cs ++ ds) d e := by
  cases ds with
  | nil => rwa [List.append_nil]
  | cons c ds =>
      exact h.append_before (ends_of_blanks hds c List.mem_cons_self) (leads_blanks hds e).before

theorem LeadsBefore.padded {p : Padded} (h : LeadsBefore p.body d e) : LeadsBefore p.chars d e :=
  ((leads_blanks p.blanks_before d).append_before h).append_blanks p.blanks_after

theorem Leads.padded {p : Padded} (h : Leads p.body d e) : Leads p.chars d e :=
  ((leads_blanks p.blanks_before d).append h).append (leads_blanks p.blanks_after e)

/-- A member is read if its name leads to a colon and its value to the end of it. -/
theorem LeadsBefore.member {m : Json.Member} {s : Slot} {fs : List Frame} {draft : Draft}
    (hname : Leads m.name.body d { place := .colon s, frames := fs, draft })
    (hvalue : LeadsBefore m.value.body { place := .value s, frames := fs, draft } e) :
    LeadsBefore m.chars d e := by
  have hcolon : Leads [':'] { place := .colon s, frames := fs, draft }
      { place := .value s, frames := fs, draft } := leads_punctuation rfl rfl
  exact hname.padded.append_before (hcolon.append_before hvalue.padded)

/-! ## Items -/

/-- A kind of brackets: its tokens, the frame between them, and what may come next before the first
item and after a comma. -/
structure Brackets where
  left : Char
  right : Char
  opening : Token
  closing : Token
  frame : Frame
  first : Place
  next : Place
  punctuation_left : Json.punctuation? left = some opening
  punctuation_right : Json.punctuation? right = some closing
  ends_right : NumberReader.Ends right
  take_comma : ∀ fs draft,
    Decoder.take { place := .separator, frames := frame :: fs, draft } .comma =
      .ok { place := next, frames := frame :: fs, draft }

namespace Brackets

/-- A record of names and values. -/
def record (frame : Frame)
    (h : ∀ fs draft, Decoder.take { place := .separator, frames := frame :: fs, draft } .comma =
      .ok { place := .key, frames := frame :: fs, draft }) : Brackets :=
  { left := '{', right := '}', opening := .openRecord, closing := .closeRecord, frame
    first := .keyOrClose, next := .key, punctuation_left := rfl, punctuation_right := rfl
    ends_right := by decide, take_comma := h }

/-- A list of values for one slot. -/
def list (frame : Frame) (s : Slot)
    (h : ∀ fs draft, Decoder.take { place := .separator, frames := frame :: fs, draft } .comma =
      .ok { place := .value s, frames := frame :: fs, draft }) : Brackets :=
  { left := '[', right := ']', opening := .openList, closing := .closeList, frame
    first := .valueOrClose s, next := .value s, punctuation_left := rfl, punctuation_right := rfl
    ends_right := by decide, take_comma := h }

variable {α : Type} (b : Brackets) (fs : List Frame) (chars : α → List Char)
  (holds : List α → Draft → Prop)

/-- The decoder between the brackets. -/
def within (place : Place) (draft : Draft) : Decoder :=
  { place, frames := b.frame :: fs, draft }

/-- Each of the items is read where an item may stand, and `holds` then holds of one item more. -/
def Reads (items : List α) : Prop :=
  ∀ as a bs, items = as ++ a :: bs → ∀ draft, holds as draft →
    ∀ place, place = b.first ∨ place = b.next →
      ∃ draft', holds (as ++ [a]) draft' ∧
        LeadsBefore (chars a) (b.within fs place draft) (b.within fs .separator draft')

variable {b fs chars holds} {items : List α}

theorem Reads.leadsBefore_rest (h : b.Reads fs chars holds items) {as bs : List α} {a : α}
    (hitems : items = as ++ a :: bs) {draft : Draft} (hholds : holds as draft) {place : Place}
    (hplace : place = b.first ∨ place = b.next) :
    ∃ draft', holds items draft' ∧
      LeadsBefore ([','].intercalate ((a :: bs).map chars)) (b.within fs place draft)
        (b.within fs .separator draft') := by
  obtain ⟨draft₁, hholds₁, hfirst⟩ := h as a bs hitems draft hholds place hplace
  induction bs generalizing as a draft place draft₁ with
  | nil =>
      rw [hitems, List.map_singleton, List.intercalate_singleton]
      exact ⟨draft₁, hholds₁, hfirst⟩
  | cons a' bs ih =>
      have hsplit : items = (as ++ [a]) ++ a' :: bs := by
        rw [hitems, List.append_assoc]
        rfl
      obtain ⟨draft₂, hholds₂, hsecond⟩ := h _ a' bs hsplit draft₁ hholds₁ b.next (.inr rfl)
      obtain ⟨draft', hholds', hrest⟩ :=
        ih hsplit hholds₁ (.inr rfl) draft₂ hholds₂ hsecond
      have hcomma : Leads [','] (b.within fs .separator draft₁) (b.within fs b.next draft₁) :=
        leads_punctuation rfl (b.take_comma fs draft₁)
      refine ⟨draft', hholds', ?_⟩
      rw [List.map_cons, List.map_cons, List.intercalate_cons_cons, List.append_assoc]
      exact hfirst.append_before (by decide) (hcomma.append_before hrest)

/-- If the items are read one by one, then all that stands between the brackets is. -/
theorem Reads.leads_block (h : b.Reads fs chars holds items) {pad : List Char} (hpad : Blanks pad)
    {draft : Draft} (hholds : holds [] draft) :
    ∃ draft', holds items draft' ∧ ∀ d e, d.take b.opening = .ok (b.within fs b.first draft) →
      (∀ place, place = b.first ∨ place = .separator →
        (b.within fs place draft').take b.closing = .ok e) →
      Leads (Json.block b.left b.right pad (items.map chars)) d e := by
  have hopen : ∀ d, d.take b.opening = .ok (b.within fs b.first draft) →
      Leads (b.left :: pad) d (b.within fs b.first draft) := fun d hd =>
    (leads_punctuation b.punctuation_left hd).append (leads_blanks hpad _)
  cases items with
  | nil =>
      refine ⟨draft, hholds, fun d e hd he => ?_⟩
      rw [Json.block, List.map_nil, List.intercalate_nil, List.append_nil]
      exact (hopen d hd).append (leads_punctuation b.punctuation_right (he _ (.inl rfl)))
  | cons a as =>
      obtain ⟨draft', hholds', hitems⟩ :=
        h.leadsBefore_rest (List.nil_append _).symm hholds (.inl rfl)
      refine ⟨draft', hholds', fun d e hd he => ?_⟩
      rw [Json.block, List.append_assoc]
      exact (hopen d hd).append (hitems.append b.ends_right
        (leads_punctuation b.punctuation_right (he _ (.inr rfl))))

end Brackets

/-! ## Values that are skipped -/

/-- A place where a value is skipped. -/
def SkipsValue (d : Decoder) : Prop := d.place = .value .extra ∨ d.place = .valueOrClose .extra

theorem SkipsValue.wants (h : SkipsValue d) : d.wantsValue = true := by
  obtain hplace | hplace := h <;> rw [Decoder.wantsValue, hplace]

theorem SkipsValue.loose (h : SkipsValue d) : d.strict = false := by
  obtain hplace | hplace := h <;> rw [Decoder.strict, hplace] <;> rfl

/-- A single token is skipped, whatever it holds. -/
theorem SkipsValue.take (h : SkipsValue d)
    (ht : (∃ s, t = .text s) ∨ (∃ n, t = .number n) ∨ ∃ flag, t = .word flag) :
    d.take t = .ok d.afterValue := by
  obtain hplace | hplace := h <;> obtain ⟨s, rfl⟩ | ⟨n, rfl⟩ | ⟨flag, rfl⟩ := ht <;>
    simp only [Decoder.take, hplace] <;> rfl

/-- The characters are read over wherever a value is skipped. -/
def Skipped (cs : List Char) : Prop := ∀ d, SkipsValue d → LeadsBefore cs d d.afterValue

/-- A string that is not used is read over, and what stands in it does not matter. -/
theorem leads_string (h : Json.IsString cs) (hstrict : d.strict = false)
    (he : ∀ s, d.take (.text s) = .ok e) : Leads cs d e := by
  obtain ⟨pieces, hpieces, rfl⟩ := h
  obtain ⟨content, hrun⟩ := TextReader.Passes.flatten hpieces []
  rw [← hstrict] at hrun
  exact feedAll_of_waits (run_text hrun (he _))

namespace Skipped

theorem string (h : Json.IsString cs) : Skipped cs := by
  intro d hd
  exact (leads_string h hd.loose fun s => hd.take (.inl ⟨s, rfl⟩)).before

/-- The size of a number that is not used does not matter. -/
theorem number (h : Json.IsNumber cs) : Skipped cs := by
  intro d hd x rest hx
  obtain ⟨c, ds, r, s, rfl, hstart, hrun, hs, hstrict⟩ :=
    NumberReader.exists_run_of_isNumber d.strict h
  have hclose : s.close = .ok (.number s.size?) := by
    rw [NumberReader.close, hstrict, hd.loose]
    rfl
  exact feedAll_number hstart hrun hs hclose hd.wants (hd.take (.inr (.inl ⟨_, rfl⟩))) hx rest

theorem word {word : String} (h : word ∈ ["true", "false", "null"]) : Skipped word.toList := by
  intro d hd
  have htake : ∀ flag, d.take (.word flag) = .ok d.afterValue :=
    fun flag => hd.take (.inr (.inr ⟨flag, rfl⟩))
  simp only [List.mem_cons, List.not_mem_nil, or_false] at h
  obtain rfl | rfl | rfl := h
  · exact ((spells_word (c := 't') rfl).leads (htake _)).before
  · exact ((spells_word (c := 'f') rfl).leads (htake _)).before
  · exact ((spells_word (c := 'n') rfl).leads (htake _)).before

/-- Between the brackets of a list that is skipped, values are skipped, and the draft stays. -/
theorem list {pad : List Char} {items : List Padded} (hpad : Blanks pad)
    (h : ∀ i ∈ items, Skipped i.body) :
    Skipped (Json.block '[' ']' pad (items.map Padded.chars)) := by
  intro d hd
  let brackets : Brackets := .list .skippedList .extra fun _ _ => rfl
  have hreads : brackets.Reads d.frames Padded.chars (fun _ draft => draft = d.draft) items := by
    intro as i bs hitems draft hdraft place hplace
    have hmem : i ∈ items := hitems ▸ List.mem_append_right as List.mem_cons_self
    exact ⟨draft, hdraft, (h i hmem (brackets.within d.frames place draft) hplace.symm).padded⟩
  obtain ⟨draft, rfl, hblock⟩ := hreads.leads_block hpad rfl
  refine (hblock d d.afterValue ?_ ?_).before
  · obtain hplace | hplace := hd <;> simp only [Decoder.take, hplace] <;> rfl
  · rintro _ (rfl | rfl)
    · rfl
    · rfl

/-- In a record that is skipped, names are read over as well. -/
theorem record {pad : List Char} {members : List Json.Member} (hpad : Blanks pad)
    (hnames : ∀ m ∈ members, Json.IsString m.name.body)
    (h : ∀ m ∈ members, Skipped m.value.body) :
    Skipped (Json.block '{' '}' pad (members.map Json.Member.chars)) := by
  intro d hd
  let brackets : Brackets := .record .skippedRecord fun _ _ => rfl
  have hreads : brackets.Reads d.frames Json.Member.chars (fun _ draft => draft = d.draft)
      members := by
    intro as m bs hitems draft hdraft place hplace
    have hmem : m ∈ members := hitems ▸ List.mem_append_right as List.mem_cons_self
    have hname : Leads m.name.body (brackets.within d.frames place draft)
        (brackets.within d.frames (.colon .extra) draft) := by
      refine leads_string (hnames m hmem) ?_ fun s => ?_
      · obtain rfl | rfl := hplace <;> rfl
      · obtain rfl | rfl := hplace <;> rfl
    have hvalue := h m hmem (brackets.within d.frames (.value .extra) draft) (.inl rfl)
    exact ⟨draft, hdraft, .member hname hvalue⟩
  obtain ⟨draft, rfl, hblock⟩ := hreads.leads_block hpad rfl
  refine (hblock d d.afterValue ?_ ?_).before
  · obtain hplace | hplace := hd <;> simp only [Decoder.take, hplace] <;> rfl
  · rintro _ (rfl | rfl)
    · rfl
    · rfl

/-- Every value of the grammar is skipped. -/
theorem of_isValue (h : Json.IsValue cs) : Skipped cs := by
  induction h with
  | word h => exact word h
  | number h => exact number h
  | string h => exact string h
  | list hpad _ ih => exact list hpad ih
  | record hpad hnames _ ih => exact record hpad hnames ih

end Skipped

end Reader

end BitEnvelope.Config
