import BitEnvelope.Proofs.Config.Tokens

/-!
# A text that is cut short

No strict prefix of the JSON text of a configuration is read as one, and none is taken for malformed
or for a text with a wrong value: the reader finds that the text is cut. Before the closing brace of
the document no value is complete, so between two tokens, within a string and within a word the text
cannot end. Where it ends within the digits of a size, the digits before are a size as well; the
decoder takes it where it takes the whole one, and then waits for the next token.
-/

namespace BitEnvelope.Config

open Json (Fault NumberReader Renders Run TextReader Token)

theorem Draft.exists_put_size {draft draft' : Draft} {slot : Slot} {n : UInt64}
    (h : draft.put slot (.number (some n)) = .ok draft') (m : UInt64) :
    ∃ draft'', draft.put slot (.number (some m)) = .ok draft'' := by
  cases slot with
  | width | signedPrefix | index | extra => exact ⟨_, rfl⟩
  | record | pins | ranges | version | value | lower | upper => cases h

namespace Decoder

variable {d e f : Decoder} {t : Token} {ts : List Token}

theorem place_ne_done_of_takeAll (h : d.takeAll ts = .ok f) (hf : f.place ≠ .done) :
    d.place ≠ .done := by
  cases ts with
  | nil =>
      cases h
      exact hf
  | cons t ts =>
      obtain ⟨e, htake, -⟩ := bind_eq_ok.mp h
      exact place_ne_done_of_take htake

/-- Where one size is taken, so is any other. -/
theorem exists_take_size {n : UInt64} (h : d.take (.number (some n)) = .ok e) (m : UInt64) :
    ∃ e', d.take (.number (some m)) = .ok e' ∧ e'.place = e.place := by
  cases hplace : d.place with
  | value slot | valueOrClose slot =>
      simp only [take, hplace] at h ⊢
      obtain ⟨draft, hput, hafter⟩ := bind_eq_ok.mp h
      obtain ⟨draft', hput'⟩ := Draft.exists_put_size hput m
      cases hafter
      exact ⟨afterValue { d with draft := draft' }, bind_eq_ok.mpr ⟨draft', hput', rfl⟩, rfl⟩
  | key | keyOrClose | colon | separator | done => simp [take, hplace] at h

end Decoder

namespace Reader

variable {d e f : Decoder} {t : Token} {ts : List Token} {r s : Reader} {cs ds : List Char}
  {c : Char}

/-- At the end of the text, a number that may end there is handed over. -/
theorem finish_inNumber {r : NumberReader} (hr : r.finish = .ok t) (he : d.take t = .ok e) :
    (inNumber d r).finish = (between e).finish := by
  simp only [finish, inNumber, hr]
  change (emit _ t >>= _) = _
  rw [emit_of_take he]
  rfl

/-- Within a size, the digits so far are taken for all of it. -/
theorem finish_inSize {n : UInt64} (h : d.take (.number (some n)) = .ok e) (he : e.place ≠ .done)
    {m : Nat} (hm : m < 2 ^ 64) : (inNumber d (.ofNat d.strict m)).finish = .error .cut := by
  obtain ⟨e', htake, hplace⟩ := Decoder.exists_take_size h (UInt64.ofNat m)
  have hclose : (NumberReader.ofNat d.strict m).finish = .ok (.number (some (UInt64.ofNat m))) := by
    rw [NumberReader.finish, if_pos (NumberReader.complete_ofNat d.strict m),
      NumberReader.close_ofNat d.strict hm]
  rw [finish_inNumber hclose htake]
  exact finish_between_of_ne (hplace ▸ he)

/-- A size is read up to the character after it, which its last reader takes for the first one after
the size. -/
theorem run_size {n : UInt64} (he : d.take (.number (some n)) = .ok e)
    (hdone : e.place ≠ .done) (hc : NumberReader.Ends c)
    (hrest : Run Waits (between e) (c :: cs) s) :
    Run Waits (between d) (Numeral.digits 10 n.toNat ++ c :: cs) s := by
  obtain ⟨x, xs, r, hdigits, hstart, hextends⟩ := NumberReader.exists_run_digits d.strict n.toNat_lt
  have hfirst := feed_number hstart (Decoder.wantsValue_of_take he (.inl ⟨_, rfl⟩))
  have hwithin : Run Waits (inNumber d r) xs (inNumber d (.ofNat d.strict n.toNat)) := by
    refine hextends.map (inNumber d) ?_
    rintro _ _ _ ⟨hnext, m, hm, rfl⟩
    exact ⟨feed_inNumber hnext, finish_inSize he hdone hm⟩
  have hclose := NumberReader.close_ofNat d.strict n.toNat_lt
  rw [UInt64.ofNat_toNat] at hclose
  have hend := feed_inNumber_end
    (NumberReader.feed_end_of_complete (NumberReader.complete_ofNat d.strict n.toNat) hc) hclose he
  rw [hdigits]
  cases hrest with
  | cons hnext hrest =>
      have hlast : Waits (inNumber d (.ofNat d.strict n.toNat)) c _ :=
        ⟨hend.trans hnext.1, finish_inSize he hdone n.toNat_lt⟩
      exact .cons ⟨hfirst, finish_between_of_ne (Decoder.place_ne_done_of_take he)⟩
        (hwithin.append (.cons hlast hrest))

/-- As long as the document is not complete, the text cannot end before any character of a
rendering. -/
theorem run_of_renders (h : Renders cs ts) (hf : d.takeAll ts = .ok f)
    (hdone : f.place ≠ .done) : Run Waits (between d) cs (between f) := by
  induction h generalizing d with
  | nil =>
      cases hf
      exact .nil
  | space hspace _ ih =>
      have hcut := finish_between_of_ne (Decoder.place_ne_done_of_takeAll hf hdone)
      exact .cons ⟨feed_space hspace d, hcut⟩ (ih hf)
  | punctuation htoken _ ih =>
      obtain ⟨e, he, hrest⟩ := bind_eq_ok.mp hf
      have hcut := finish_between_of_ne (Decoder.place_ne_done_of_take he)
      exact .cons ⟨feed_punctuation htoken he, hcut⟩ (ih hrest)
  | text hcontent _ ih =>
      obtain ⟨e, he, hrest⟩ := bind_eq_ok.mp hf
      obtain ⟨content, hrun, haccepted⟩ := exists_run_text hcontent he
      exact (run_text hrun haccepted).append (ih hrest)
  | word hword _ ih =>
      obtain ⟨e, he, hrest⟩ := bind_eq_ok.mp hf
      exact (run_word hword he).append (ih hrest)
  | size n hends _ ih =>
      obtain ⟨e, he, hrest⟩ := bind_eq_ok.mp hf
      exact run_size he (Decoder.place_ne_done_of_takeAll hrest hdone) hends (ih hrest)

/-- In a run in which the reader waits, no character may be the last one. -/
theorem exists_cut_of_run (h : Run Waits r (cs ++ c :: ds) s) :
    ∃ r', r.feedAll cs = .ok r' ∧ r'.finish = .error .cut := by
  induction cs generalizing r with
  | nil =>
      cases h with
      | cons hfirst _ => exact ⟨r, rfl, hfirst.2⟩
  | cons x xs ih =>
      cases h with
      | cons hfirst hrest =>
          rw [feedAll_cons_of_feed hfirst.1]
          exact ih hrest

theorem run_document (c : Config) :
    ∃ d, Run Waits start (Printer.document c) (between d) := by
  obtain ⟨cs, ts, hdocument, htokens, hrenders⟩ := Printer.rendersClosed_document c
  obtain ⟨d, htake⟩ := Decoder.exists_takeAll_document c
  rw [htokens] at htake
  obtain ⟨e, hinner, hlast⟩ := foldlM_append_eq_ok.mp htake
  have hclose : e.take .closeRecord = .ok d := (e.takeAll_singleton _).symm.trans hlast
  have hopen : e.place ≠ .done := Decoder.place_ne_done_of_take hclose
  have hbrace : Waits (between e) '}' (between d) :=
    ⟨feed_punctuation rfl hclose, finish_between_of_ne hopen⟩
  refine ⟨d, ?_⟩
  rw [hdocument]
  exact (run_of_renders hrenders hinner hopen).append (.cons hbrace .nil)

end Reader

/-- Of the JSON text of a configuration, every strict prefix is read as a text that is cut. -/
theorem ofJson_eq_cut (c : Config) {p : String} (h : p.toList <+: c.toJson.toList)
    (hne : p ≠ c.toJson) : ofJson p = .error .cut := by
  obtain ⟨d, hrun⟩ := Reader.run_document c
  obtain ⟨rest, hrest⟩ := h
  cases rest with
  | nil => exact absurd (String.toList_inj.mp ((List.append_nil _).symm.trans hrest)) hne
  | cons x xs =>
      rw [toJson, String.toList_ofList] at hrest
      obtain ⟨r, hread, hcut⟩ := Reader.exists_cut_of_run (hrest ▸ hrun)
      rw [ofJson, hread]
      exact hcut

/-- The text is cut within the escape of a new line. -/
theorem ofJson_eq_cut_escape :
    let c : Config := { unrestricted 12 with version := "\n" }
    let head := "\x7b\n  \"version\": \"\\"
    head.toList <+: c.toJson.toList ∧ head ≠ c.toJson ∧ ofJson head = .error .cut := by
  intro c head
  have htext : c.toJson.toList = Printer.document c := String.toList_ofList
  have hhead : head.toList <+: c.toJson.toList := by
    rw [htext]
    decide
  have hne : head.toList ≠ Printer.document c := by decide
  have hstrict : head ≠ c.toJson := fun h => hne ((congrArg String.toList h).trans htext)
  exact ⟨hhead, hstrict, ofJson_eq_cut c hhead hstrict⟩

end BitEnvelope.Config
