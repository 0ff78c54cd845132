import BitEnvelope.Proofs.Config.Blocks
import BitEnvelope.Proofs.Config.Layout

/-!
# Records and lists of any layout

While the members of a record are read, what the draft holds depends on the names that have
occurred, and not on their order: `Fills` says so of one kind of record, and then a record is read
if each of its fields is. Members under other names are skipped. A list of records is read if a
record is added wherever one may stand.
-/

namespace BitEnvelope.Config

open Json (Padded StringText)

/-! ## Names of members -/

theorem Record.slot_eq_extra {r : Record} {label : String}
    (h : ∀ s ∈ r.slots, s.name? ≠ some label) : r.slot label = .extra := by
  have hnone : (r.slots.find? fun s => s.name? == some label) = none := by
    rw [List.find?_eq_none]
    intro s hs
    rw [beq_iff_eq]
    exact h s hs
  rw [Record.slot, hnone]
  rfl

namespace Reader

variable {r : Record} {fs : List Frame} {draft : Draft} {cs : List Char} {place : Place}

/-- The brackets of a record with names. -/
def members (r : Record) : Brackets := .record (.members r) fun _ _ => rfl

/-- The brackets of a list of records. -/
def records (r : Record) : Brackets := .list (.items r) (.record r) fun _ _ => rfl

/-- A name is accepted as long as it has not occurred. -/
theorem leads_name {label : String} (h : StringText label cs)
    (hplace : place = (members r).first ∨ place = (members r).next)
    (hnew : draft.has (r.slot label) = false) :
    Leads cs ((members r).within fs place draft)
      ((members r).within fs (.colon (r.slot label)) draft) := by
  obtain ⟨pieces, hpieces, rfl⟩ := h
  refine (spells_text (.of_pieces hpieces)).leads ?_
  have hkey : ((members r).within fs place draft).takeKey label =
      .ok ((members r).within fs (.colon (r.slot label)) draft) := by
    change (if draft.has (r.slot label) then _ else _) = _
    rw [hnew]
    rfl
  obtain rfl | rfl := hplace
  · exact hkey
  · exact hkey

/-! ## Records -/

/-- While a record is read, `holds` says what the draft holds after the members of some names. Other
names do not matter, and the value of a field is read if its name has not occurred. -/
structure Fills (r : Record) (fs : List Frame) (fields : List Field)
    (holds : List String → Draft → Prop) : Prop where
  extra : ∀ label, (∀ f ∈ fields, label ≠ f.name) → r.slot label = .extra
  skip : ∀ label, (∀ f ∈ fields, label ≠ f.name) → ∀ labels draft, holds labels draft →
    holds (labels ++ [label]) draft
  fresh : ∀ f ∈ fields, ∀ labels draft, f.name ∉ labels → holds labels draft →
    draft.has (r.slot f.name) = false
  take : ∀ f ∈ fields, ∀ labels draft, holds labels draft → ∀ cs, f.text cs →
    ∃ draft', holds (labels ++ [f.name]) draft' ∧
      LeadsBefore cs ((members r).within fs (.value (r.slot f.name)) draft)
        ((members r).within fs .separator draft')

theorem notMem_of_count_eq_one {α : Type} [BEq α] [LawfulBEq α] {as bs : List α} {a : α}
    (h : (as ++ a :: bs).count a = 1) : a ∉ as := by
  rw [List.count_append, List.count_cons_self] at h
  exact List.count_eq_zero.mp (by omega)

/-- The next member is read: it is a field that has not occurred, or it is skipped. -/
theorem Fills.reads {fields : List Field} {holds : List String → Draft → Prop}
    (hfills : Fills r fs fields holds) {entries : List Entry}
    (honce : ∀ f ∈ fields, (entries.map Entry.label).count f.name = 1 ∨
      f.optional ∧ f.name ∉ entries.map Entry.label)
    (hvalues : ∀ e ∈ entries, (∃ f ∈ fields, e.label = f.name ∧ f.text e.value.body) ∨
      (∀ f ∈ fields, e.label ≠ f.name) ∧ Json.IsValue e.value.body) :
    (members r).Reads fs (fun e : Entry => e.chars) (fun as => holds (as.map Entry.label))
      entries := by
  intro as e bs hentries draft hholds place hplace
  have hmem : e ∈ entries := hentries ▸ List.mem_append_right as List.mem_cons_self
  have hgrow : ∀ {draft}, holds (as.map Entry.label ++ [e.label]) draft →
      holds ((as ++ [e]).map Entry.label) draft := by
    intro draft h
    rwa [List.map_append]
  obtain ⟨f, hf, hlabel, htext⟩ | ⟨hne, htext⟩ := hvalues e hmem
  · have hnew : f.name ∉ as.map Entry.label := by
      obtain hcount | ⟨-, hnone⟩ := honce f hf
      · rw [hentries, List.map_append, List.map_cons, hlabel] at hcount
        exact notMem_of_count_eq_one hcount
      · exact absurd (List.mem_map.mpr ⟨e, hmem, hlabel⟩) hnone
    have hname : Leads e.name.body ((members r).within fs place draft)
        ((members r).within fs (.colon (r.slot e.label)) draft) :=
      leads_name e.spelled hplace (hlabel ▸ hfills.fresh f hf _ _ hnew hholds)
    obtain ⟨draft', hholds', hvalue⟩ := hfills.take f hf _ _ hholds _ htext
    rw [hlabel] at hname hgrow
    exact ⟨draft', hgrow hholds', .member hname hvalue⟩
  · have hextra := hfills.extra e.label hne
    have hname : Leads e.name.body ((members r).within fs place draft)
        ((members r).within fs (.colon .extra) draft) :=
      hextra ▸ leads_name e.spelled hplace (hextra ▸ rfl)
    have hvalue := Skipped.of_isValue htext
      ((members r).within fs (.value .extra) draft) (.inl rfl)
    exact ⟨draft, hgrow (hfills.skip e.label hne _ _ hholds), .member hname hvalue⟩

theorem take_closeRecord {draft' : Draft} (h : draft.complete r = .ok draft')
    (hplace : place = (members r).first ∨ place = .separator) :
    ((members r).within fs place draft).take .closeRecord =
      .ok (Decoder.afterValue { place := .separator, frames := fs, draft := draft' }) := by
  have hclose : ((members r).within fs place draft).leaveRecord r =
      .ok (Decoder.afterValue { place := .separator, frames := fs, draft := draft' }) := by
    change (draft.complete r >>= fun draft => _) = _
    rw [h]
    rfl
  obtain rfl | rfl := hplace
  · exact hclose
  · exact hclose

/-- A record is read to its end, and then the names of all fields have occurred that may not be left
out. -/
theorem leads_record {fields : List Field} {holds : List String → Draft → Prop}
    (h : RecordText fields cs) (hfills : Fills r fs fields holds)
    (hholds : holds [] (draft.clear r))
    (hplace : place = .value (.record r) ∨ place = .valueOrClose (.record r)) :
    ∃ labels draft', holds labels draft' ∧ (∀ f ∈ fields, f.name ∈ labels ∨ f.optional) ∧
      ∀ draft'', draft'.complete r = .ok draft'' →
        Leads cs { place, frames := fs, draft }
          (Decoder.afterValue { place := .separator, frames := fs, draft := draft'' }) := by
  obtain @⟨pad, entries, hpad, honce, hvalues⟩ := h
  obtain ⟨draft', hholds', hblock⟩ := (hfills.reads honce hvalues).leads_block hpad hholds
  refine ⟨entries.map Entry.label, draft', hholds', fun f hf => ?_, fun draft'' hend =>
    hblock _ _ ?_ fun place => take_closeRecord hend⟩
  · obtain hcount | ⟨hoptional, -⟩ := honce f hf
    · refine .inl (List.count_pos_iff.mp ?_)
      omega
    · exact .inr hoptional
  · obtain rfl | rfl := hplace
    · rfl
    · rfl

/-! ## Lists of records -/

section Lists

variable {α σ : Type} {text : α → List Char → Prop} {holding : List α → σ → Draft}

/-- The draft `holding as s` holds the items `as`, and `s` is left of the last one. Wherever an item
may stand, each of its texts adds it. -/
def Gathers (r : Record) (text : α → List Char → Prop) (holding : List α → σ → Draft) : Prop :=
  ∀ fs as s a cs place, text a cs →
    place = .value (.record r) ∨ place = .valueOrClose (.record r) →
    ∃ s', Leads cs ((records r).within fs place (holding as s))
      ((records r).within fs .separator (holding (as ++ [a]) s'))

theorem leads_list {as : List α} (h : ListText text as cs) (hitem : Gathers r text holding)
    {slot : Slot} {s : σ}
    (hopen : ∀ d : Decoder, d.takeValue slot .openList = .ok (d.enterItems slot r))
    (hempty : draft.openList slot = holding [] s) :
    ∃ s', Leads cs { place := .value slot, frames := fs, draft }
      (Decoder.afterValue { place := .separator, frames := fs, draft := holding as s' }) := by
  obtain @⟨pad, items, hpad, htexts⟩ := h
  have hreads : (records r).Reads fs (fun i : α × Padded => i.2.chars)
      (fun as draft => ∃ s, draft = holding (as.map Prod.fst) s) items := by
    rintro as i bs hitems _ ⟨s, rfl⟩ place hplace
    have hmem : i ∈ items := hitems ▸ List.mem_append_right as List.mem_cons_self
    obtain ⟨s', hadd⟩ := hitem fs (as.map Prod.fst) s i.1 i.2.body place (htexts i hmem) hplace.symm
    refine ⟨_, ⟨s', ?_⟩, hadd.padded.before⟩
    rw [List.map_append]
    rfl
  obtain ⟨_, ⟨s', rfl⟩, hblock⟩ := hreads.leads_block hpad ⟨s, rfl⟩
  refine ⟨s', hblock _ _ ?_ ?_⟩
  · rw [Brackets.within, List.map_nil, ← hempty]
    exact hopen _
  · rintro _ (rfl | rfl)
    · rfl
    · rfl

end Lists

end Reader

end BitEnvelope.Config
