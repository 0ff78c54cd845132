import BitEnvelope.Proofs.Config.Printer

/-!
# The tokens of a configuration

The decoder takes all tokens that the printer spells. The draft of a decoder holds the values of the
pin or interval that was read last, so while a list of them is read it is known only up to these.
-/

namespace BitEnvelope.Config

open Json (Token)
open Printer (pinTokens rangeTokens documentTokens listTokens)

namespace Decoder

/-! ## Lists of records -/

section Lists

variable {α σ : Type} {item : α → List Token} {holding : List α → σ → Draft} {r : Record}

/-- The decoder within a list of records of one kind. -/
def inItems (r : Record) (fs : List Frame) (draft : Draft) (place : Place) : Decoder :=
  { place, frames := .items r :: fs, draft }

/-- The draft `holding as s` holds the items `as`, and `s` is left of the last one. Wherever an
item may stand, the tokens of `item a` add `a`. -/
def Collects (r : Record) (item : α → List Token) (holding : List α → σ → Draft) : Prop :=
  ∀ fs as s a place, place = .value (.record r) ∨ place = .valueOrClose (.record r) →
    ∃ s', (inItems r fs (holding as s) place).takeAll (item a) =
      .ok (inItems r fs (holding (as ++ [a]) s') .separator)

theorem takeAll_rest (h : Collects r item holding) (fs : List Frame) (as : List α) (s : σ)
    (bs : List α) : ∃ s',
      (inItems r fs (holding as s) .separator).takeAll
          ((bs.map item).flatMap (fun ts => .comma :: ts) ++ [.closeList]) =
        .ok (inItems r fs (holding (as ++ bs) s') .separator).leave := by
  induction bs generalizing as s with
  | nil =>
      refine ⟨s, ?_⟩
      rw [List.append_nil]
      rfl
  | cons b bs ih =>
      obtain ⟨s₁, hitem⟩ := h fs as s b _ (.inl rfl)
      obtain ⟨s₂, hrest⟩ := ih (as ++ [b]) s₁
      have hcomma : (inItems r fs (holding as s) .separator).take .comma =
          .ok (inItems r fs (holding as s) (.value (.record r))) := rfl
      refine ⟨s₂, ?_⟩
      rw [List.map_cons, List.flatMap_cons, List.append_assoc, List.cons_append,
        takeAll_cons_of_take hcomma, takeAll_append_of_takeAll hitem, hrest, List.append_assoc]
      rfl

theorem takeAll_list (slot : Slot) (draft : Draft) (s : σ)
    (hopen : ∀ d : Decoder, d.takeValue slot .openList = .ok (d.enterItems slot r))
    (hempty : draft.openList slot = holding [] s) (h : Collects r item holding) (fs : List Frame)
    (as : List α) : ∃ s',
      takeAll { place := .value slot, frames := fs, draft } (listTokens (as.map item)) =
        .ok (inItems r fs (holding as s') .separator).leave := by
  have hfirst : take { place := .value slot, frames := fs, draft } .openList =
      .ok (inItems r fs (holding [] s) (.valueOrClose (.record r))) := by
    rw [← hempty]
    exact hopen _
  cases as with
  | nil =>
      refine ⟨s, ?_⟩
      rw [List.map_nil, listTokens, Printer.blockTokens, takeAll_cons_of_take hfirst]
      rfl
  | cons a as =>
      obtain ⟨s₁, hitem⟩ := h fs [] s a _ (.inr rfl)
      obtain ⟨s₂, hrest⟩ := takeAll_rest h fs [a] s₁ as
      refine ⟨s₂, ?_⟩
      rw [List.map_cons, listTokens, Printer.blockTokens, List.append_assoc,
        takeAll_cons_of_take hfirst, takeAll_append_of_takeAll hitem]
      exact hrest

end Lists

/-! ## The members of the document -/

/-- The decoder after a member of the document. -/
def afterMember (draft : Draft) : Decoder :=
  { place := .separator, frames := [.members .document], draft }

/-- The decoder before the value of a member of the document. -/
def beforeMember (draft : Draft) (slot : Slot) : Decoder :=
  { place := .value slot, frames := [.members .document], draft }

/-- The draft with the pins `ps`, the last of which has left the position and the value `s`. -/
def withPins (draft : Draft) (ps : List Pin) (s : Option UInt64 × Option Bool) : Draft :=
  { draft with index := s.1, value := s.2, pins := some ps }

/-- The draft with the intervals `rs`, the last of which has left the bounds `s`. -/
def withRanges (draft : Draft) (rs : List RangeText) (s : Option String × Option String) : Draft :=
  { draft with lower := s.1, upper := s.2, ranges := some rs }

theorem collects_pins (draft : Draft) : Collects .pin pinTokens (withPins draft) := by
  intro fs ps s p place hplace
  refine ⟨(some p.index, some p.value), ?_⟩
  obtain rfl | rfl := hplace
  · rfl
  · rfl

theorem collects_ranges (draft : Draft) : Collects .range rangeTokens (withRanges draft) := by
  intro fs rs s r place hplace
  refine ⟨(some r.lower, some r.upper), ?_⟩
  obtain rfl | rfl := hplace
  · rfl
  · rfl

theorem takeAll_pins (draft : Draft) (ps : List Pin) : ∃ s,
    (beforeMember draft .pins).takeAll (listTokens (ps.map pinTokens)) =
      .ok (afterMember (withPins draft ps s)) :=
  takeAll_list .pins draft (draft.index, draft.value) (fun _ => rfl) rfl (collects_pins draft)
    [.members .document] ps

theorem takeAll_ranges (draft : Draft) (rs : List RangeText) : ∃ s,
    (beforeMember draft .ranges).takeAll (listTokens (rs.map rangeTokens)) =
      .ok (afterMember (withRanges draft rs s)) :=
  takeAll_list .ranges draft (draft.lower, draft.upper) (fun _ => rfl) rfl (collects_ranges draft)
    [.members .document] rs

/-- The draft after the members that are not lists. -/
def scalars (c : Config) : Draft :=
  { Draft.blank with
    version := some c.version
    width := some c.width
    signedPrefix := some c.signedPrefix }

/-- The tokens before the list of the pins. -/
def scalarTokens (c : Config) : List Token :=
  [.openRecord, .text "version", .colon, .text c.version,
    .comma, .text "bw", .colon, .number (some c.width),
    .comma, .text "signed_prefix", .colon, .number (some c.signedPrefix),
    .comma, .text "fixed", .colon]

theorem takeAll_scalars (c : Config) :
    start.takeAll (scalarTokens c) = .ok (beforeMember (scalars c) .pins) :=
  rfl

theorem documentTokens_eq (c : Config) :
    documentTokens c =
      scalarTokens c ++ (listTokens (c.pins.map pinTokens) ++
        ([.comma, .text "ranges", .colon] ++ (listTokens (c.ranges.map rangeTokens) ++
          [.closeRecord]))) := by
  simp [documentTokens, scalarTokens, Printer.recordTokens, Printer.blockTokens]

theorem exists_takeAll_document (c : Config) :
    ∃ d, start.takeAll (documentTokens c) = .ok d := by
  obtain ⟨s, hpins⟩ := takeAll_pins (scalars c) c.pins
  obtain ⟨s', hranges⟩ := takeAll_ranges (withPins (scalars c) c.pins s) c.ranges
  have hkey : (afterMember (withPins (scalars c) c.pins s)).takeAll
      [.comma, .text "ranges", .colon] =
    .ok (beforeMember (withPins (scalars c) c.pins s) .ranges) := rfl
  refine ⟨leave (afterMember (withRanges (withPins (scalars c) c.pins s) c.ranges s')), ?_⟩
  rw [documentTokens_eq, takeAll_append_of_takeAll (takeAll_scalars c),
    takeAll_append_of_takeAll hpins, takeAll_append_of_takeAll hkey,
    takeAll_append_of_takeAll hranges]
  rfl

end Decoder

end BitEnvelope.Config
