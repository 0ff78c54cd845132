import BitEnvelope.Config.Reader
import BitEnvelope.Proofs.Fallible
import BitEnvelope.Proofs.Json.Rendering

/-!
# How tokens are spelled

A `Reader` hands the tokens of a text to its decoder. Characters spell a token if the reader hands
over that token wherever the decoder accepts it, and is between tokens again. Spellings of tokens,
and the blanks between them, can be put one after the other. Only a number is not closed by its own
last character, so it needs one after it that cannot be part of a number. Strings and words are read
in runs that the text cannot end within.
-/

namespace BitEnvelope.Config

open Json (Fault NumberReader Run TextReader Token)

/-! ## Where tokens are accepted -/

namespace Decoder

variable {d e : Decoder} {t : Token} {s : String}

def takeAll (d : Decoder) (ts : List Token) : Except Fault Decoder := ts.foldlM take d

theorem takeAll_singleton (d : Decoder) (t : Token) : d.takeAll [t] = d.take t := by
  rw [takeAll, List.foldlM_cons]
  cases d.take t <;> rfl

theorem takeAll_cons_of_take (h : d.take t = .ok e) (ts : List Token) :
    d.takeAll (t :: ts) = e.takeAll ts :=
  foldlM_cons_of_ok h ts

theorem takeAll_append_of_takeAll {ts : List Token} (h : d.takeAll ts = .ok e) (us : List Token) :
    d.takeAll (ts ++ us) = e.takeAll us :=
  foldlM_append_of_ok h us

theorem wants_of_take_text (h : d.take (.text s) = .ok e) :
    (d.wantsValue || d.wantsKey) = true := by
  rw [wantsValue, wantsKey]
  cases hplace : d.place with
  | value | valueOrClose | key | keyOrClose => rfl
  | colon | separator | done => simp [take, hplace] at h

theorem wantsValue_of_take (h : d.take t = .ok e)
    (ht : (∃ n, t = .number n) ∨ ∃ flag, t = .word flag) : d.wantsValue = true := by
  rw [wantsValue]
  cases hplace : d.place with
  | value | valueOrClose => rfl
  | key | keyOrClose | colon | separator | done =>
      obtain ⟨n, rfl⟩ | ⟨flag, rfl⟩ := ht <;> simp [take, hplace] at h

/-- Nothing comes after the document. -/
theorem place_ne_done_of_take (h : d.take t = .ok e) : d.place ≠ .done := by
  intro hdone
  simp [take, hdone] at h

/-- A text that is read loosely is not used. -/
theorem take_text_of_not_strict (h : d.strict = false) (s s' : String) :
    d.take (.text s) = d.take (.text s') := by
  cases hplace : d.place with
  | value slot | valueOrClose slot =>
      have hslot : slot = .extra := by simpa [strict, hplace] using h
      subst hslot
      simp only [take, hplace]
      rfl
  | key | keyOrClose =>
      have hhead : d.frames.head? = some .skippedRecord := by simpa [strict, hplace] using h
      obtain ⟨fs, hframes⟩ := List.head?_eq_some_iff.mp hhead
      simp only [take, hplace, takeKey, hframes]
  | colon | separator | done => simp only [take, hplace]

end Decoder

namespace Reader

variable {d e : Decoder} {t : Token} {ts : List Token} {cs : List Char} {c : Char}

/-- The reader between two tokens. -/
def between (d : Decoder) : Reader := { lexeme := .none, decoder := d }

/-- The reader within a string. -/
def inText (d : Decoder) (r : TextReader) : Reader := { lexeme := .text r, decoder := d }

/-- The reader within a number. -/
def inNumber (d : Decoder) (r : NumberReader) : Reader := { lexeme := .number r, decoder := d }

/-- The reader within a word, of which the letters `left` are due. -/
def inWord (d : Decoder) (left : List Char) (flag : Option Bool) : Reader :=
  { lexeme := .word left flag, decoder := d }

/-! ## Steps -/

theorem feedAll_cons (r : Reader) (c : Char) (cs : List Char) :
    r.feedAll (c :: cs) = r.feed c >>= fun s => s.feedAll cs :=
  List.foldlM_cons

theorem feedAll_cons_of_feed {r s : Reader} (h : r.feed c = .ok s) (cs : List Char) :
    r.feedAll (c :: cs) = s.feedAll cs :=
  foldlM_cons_of_ok h cs

theorem feedAll_append_of_feedAll {r s : Reader} (h : r.feedAll cs = .ok s) (ds : List Char) :
    r.feedAll (cs ++ ds) = s.feedAll ds :=
  foldlM_append_of_ok h ds

/-- A run within a token is a run of the reader. -/
theorem feedAll_of_run {σ : Type} {next : σ → Char → σ → Prop} (within : σ → Reader)
    (step : ∀ r c s, next r c s → (within r).feed c = .ok (within s)) {r s : σ}
    (h : Run next r cs s) : (within r).feedAll cs = .ok (within s) := by
  induction h with
  | nil => rfl
  | cons first _ ih => exact (feedAll_cons_of_feed (step _ _ _ first) _).trans ih

theorem emit_of_take {r : Reader} (h : r.decoder.take t = .ok e) : r.emit t = .ok (between e) := by
  rw [emit, h]
  rfl

theorem feed_space (h : Json.isSpace c = true) (d : Decoder) :
    (between d).feed c = .ok (between d) :=
  if_pos h

theorem feed_punctuation (h : Json.punctuation? c = some t) (he : d.take t = .ok e) :
    (between d).feed c = .ok (between e) := by
  have hspace : Json.isSpace c = false := by
    unfold Json.punctuation? at h
    split at h <;> first | rfl | cases h
  change (between d).feedFirst c = _
  rw [feedFirst, hspace, h]
  exact emit_of_take he

theorem feed_quote (h : (d.wantsValue || d.wantsKey) = true) :
    (between d).feed '"' = .ok (inText d (.between d.strict [])) :=
  if_pos h

theorem feed_inText {r s : TextReader} (h : r.Continues c s) :
    (inText d r).feed c = .ok (inText d s) := by
  simp only [feed, inText, h]
  rfl

theorem feed_inText_closed {r : TextReader} {content : String}
    (h : r.feed c = .ok (.closed content)) (he : d.take (.text content) = .ok e) :
    (inText d r).feed c = .ok (between e) := by
  simp only [feed, inText, h]
  exact emit_of_take he

theorem feed_number {r : NumberReader} (h : NumberReader.start? d.strict c = some r)
    (hd : d.wantsValue = true) : (between d).feed c = .ok (inNumber d r) := by
  have hne : ∀ x, NumberReader.start? d.strict x = none → (c == x) = false := by
    intro x hx
    rw [beq_eq_false_iff_ne]
    rintro rfl
    rw [hx] at h
    cases h
  have hspace : Json.isSpace c = false := by
    rw [Json.isSpace, hne ' ' rfl, hne '\t' rfl, hne '\n' rfl, hne '\r' rfl]
    rfl
  have hpunctuation : Json.punctuation? c = none := by
    unfold Json.punctuation?
    split <;> first | cases h | rfl
  change (between d).feedFirst c = _
  simp only [feedFirst, hspace, hpunctuation, hne '"' rfl, between, hd, h]
  rfl

theorem feed_inNumber {r s : NumberReader} (h : r.Continues c s) :
    (inNumber d r).feed c = .ok (inNumber d s) := by
  simp only [feed, inNumber, h]
  rfl

/-- The character that ends a number is read as the first one after it. -/
theorem feed_inNumber_end {r : NumberReader} (h : r.feed c = .ok none) (hr : r.close = .ok t)
    (he : d.take t = .ok e) : (inNumber d r).feed c = (between e).feed c := by
  simp only [feed, inNumber, h, hr]
  change (emit _ t >>= fun s => s.feedFirst c) = _
  rw [emit_of_take he]
  rfl

/-! ## The end of the text -/

/-- At the end of the text, the decoder has the configuration. -/
theorem finish_between {c : Config} (h : d.config? = some c) : (between d).finish = .ok c := by
  simp only [finish, between, pure_bind, h]
  rfl

theorem finish_between_of_ne (h : d.place ≠ .done) : (between d).finish = .error .cut := by
  have hnone : d.config? = none := if_neg h
  simp only [finish, between, pure_bind, hnone]
  rfl

/-- The reader goes on from `r` to `s` with one character. If the text ended instead, it would be
cut. -/
def Waits (r : Reader) (c : Char) (s : Reader) : Prop :=
  r.feed c = .ok s ∧ r.finish = .error .cut

theorem feedAll_of_waits {r s : Reader} (h : Run Waits r cs s) : r.feedAll cs = .ok s :=
  feedAll_of_run id (fun _ _ _ hnext => hnext.1) h

/-! ## Spellings -/

/-- The characters `cs` are read as the tokens `ts` wherever these are accepted. -/
def Spells (cs : List Char) (ts : List Token) : Prop :=
  ∀ d e, d.takeAll ts = .ok e → (between d).feedAll cs = .ok (between e)

/-- The characters `cs` are read as the tokens `ts` if a character follows that ends a number. -/
def SpellsBefore (cs : List Char) (ts : List Token) : Prop :=
  ∀ d e, d.takeAll ts = .ok e → ∀ c rest, NumberReader.Ends c →
    (between d).feedAll (cs ++ c :: rest) = (between e).feedAll (c :: rest)

/-! ## Blanks and punctuation -/

theorem spells_space (h : Json.isSpace c = true) : Spells [c] [] := by
  intro d e he
  cases he
  exact feedAll_cons_of_feed (feed_space h d) []

theorem spells_punctuation (h : Json.punctuation? c = some t) : Spells [c] [t] := by
  intro d e he
  rw [Decoder.takeAll_singleton] at he
  exact feedAll_cons_of_feed (feed_punctuation h he) []

/-! ## Texts -/

/-- A string is read if its reader gets to the closing quote and its content is accepted. -/
theorem run_text {content : List Char}
    (hrun : Run TextReader.Continues (.between d.strict []) cs (.between d.strict content))
    (he : d.take (.text (String.ofList content.reverse)) = .ok e) :
    Run Waits (between d) ('"' :: cs ++ ['"']) (between e) := by
  have hquote : Waits (between d) '"' (inText d (.between d.strict [])) :=
    ⟨feed_quote (Decoder.wants_of_take_text he),
      finish_between_of_ne (Decoder.place_ne_done_of_take he)⟩
  have hwithin : Run Waits (inText d (.between d.strict [])) cs
      (inText d (.between d.strict content)) :=
    hrun.map (inText d) fun _ _ _ hnext => ⟨feed_inText hnext, rfl⟩
  have hclosed : Waits (inText d (.between d.strict content)) '"' (between e) :=
    ⟨feed_inText_closed rfl he, rfl⟩
  exact .cons hquote (hwithin.append (.cons hclosed .nil))

/-- The reader of a string gets to a content that is accepted where the string is. -/
theorem exists_run_text {s : String} (h : TextReader.StandsFor cs s.toList)
    (he : d.take (.text s) = .ok e) :
    ∃ content, Run TextReader.Continues (.between d.strict []) cs (.between d.strict content) ∧
      d.take (.text (String.ofList content.reverse)) = .ok e := by
  obtain ⟨content, hcontent, hrun⟩ := h d.strict []
  refine ⟨content, hrun, ?_⟩
  cases hstrict : d.strict with
  | false => rwa [Decoder.take_text_of_not_strict hstrict _ s]
  | true => rwa [hcontent hstrict, List.append_nil, List.reverse_reverse, String.ofList_toList]

theorem spells_text {s : String} (h : TextReader.StandsFor cs s.toList) :
    Spells ('"' :: cs ++ ['"']) [.text s] := by
  intro d e he
  rw [Decoder.takeAll_singleton] at he
  obtain ⟨content, hrun, hcontent⟩ := exists_run_text h he
  exact feedAll_of_waits (run_text hrun hcontent)

/-! ## Numbers and words -/

/-- A number is read if its reader may end and gives a token that is accepted. -/
theorem feedAll_number {r s : NumberReader} (hstart : NumberReader.start? d.strict c = some r)
    (hrun : Run NumberReader.Continues r cs s) (hs : s.complete = true) (hclose : s.close = .ok t)
    (hd : d.wantsValue = true) (he : d.take t = .ok e) {x : Char} (hx : NumberReader.Ends x)
    (rest : List Char) :
    (between d).feedAll (c :: cs ++ x :: rest) = (between e).feedAll (x :: rest) := by
  rw [List.cons_append, feedAll_cons_of_feed (feed_number hstart hd),
    feedAll_append_of_feedAll (feedAll_of_run (inNumber d) (fun _ _ _ => feed_inNumber) hrun),
    feedAll_cons, feedAll_cons,
    feed_inNumber_end (NumberReader.feed_end_of_complete hs hx) hclose he]

theorem spells_size (n : UInt64) :
    SpellsBefore (Numeral.digits 10 n.toNat) [.number (some n)] := by
  intro d e he c rest hc
  rw [Decoder.takeAll_singleton] at he
  have hvalue := Decoder.wantsValue_of_take he (.inl ⟨_, rfl⟩)
  obtain ⟨x, xs, r, hdigits, hstart, hextends⟩ := NumberReader.exists_run_digits d.strict
    n.toNat_lt
  have hrun : Run NumberReader.Continues r xs _ := hextends.map id fun _ _ _ h => h.1
  have hclose := NumberReader.close_ofNat d.strict n.toNat_lt
  rw [UInt64.ofNat_toNat] at hclose
  rw [hdigits]
  exact feedAll_number hstart hrun (NumberReader.complete_ofNat _ _) hclose hvalue he hc rest

theorem feed_word {left : List Char} {flag : Option Bool} (h : Json.word? c = some (left, flag))
    (hd : d.wantsValue = true) : (between d).feed c = .ok (inWord d left flag) := by
  unfold Json.word? at h
  split at h <;> cases h <;> exact if_pos hd

theorem feed_inWord {left : List Char} {flag : Option Bool} (hleft : left ≠ []) :
    (inWord d (c :: left) flag).feed c = .ok (inWord d left flag) := by
  simp only [feed, inWord, bne_self_eq_false, List.isEmpty_eq_false_iff.mpr hleft]
  rfl

theorem feed_inWord_last {flag : Option Bool} (he : d.take (.word flag) = .ok e) :
    (inWord d [c] flag).feed c = .ok (between e) := by
  simp only [feed, inWord, bne_self_eq_false, List.isEmpty_nil]
  exact emit_of_take he

theorem run_inWord {left : List Char} {flag : Option Bool} (he : d.take (.word flag) = .ok e)
    (hleft : left ≠ []) : Run Waits (inWord d left flag) left (between e) := by
  induction left with
  | nil => exact absurd rfl hleft
  | cons x xs ih =>
      by_cases hxs : xs = []
      · subst hxs
        exact .cons ⟨feed_inWord_last he, rfl⟩ .nil
      · exact .cons ⟨feed_inWord hxs, rfl⟩ (ih hxs)

theorem ne_nil_of_word? {left : List Char} {flag : Option Bool}
    (h : Json.word? c = some (left, flag)) : left ≠ [] := by
  unfold Json.word? at h
  split at h <;> cases h <;> exact List.cons_ne_nil _ _

theorem run_word {left : List Char} {flag : Option Bool} (h : Json.word? c = some (left, flag))
    (he : d.take (.word flag) = .ok e) : Run Waits (between d) (c :: left) (between e) := by
  have hfirst : Waits (between d) c (inWord d left flag) :=
    ⟨feed_word h (Decoder.wantsValue_of_take he (.inr ⟨_, rfl⟩)),
      finish_between_of_ne (Decoder.place_ne_done_of_take he)⟩
  exact .cons hfirst (run_inWord he (ne_nil_of_word? h))

theorem spells_word {left : List Char} {flag : Option Bool}
    (h : Json.word? c = some (left, flag)) : Spells (c :: left) [.word flag] := by
  intro d e he
  rw [Decoder.takeAll_singleton] at he
  exact feedAll_of_waits (run_word h he)

end Reader

end BitEnvelope.Config
