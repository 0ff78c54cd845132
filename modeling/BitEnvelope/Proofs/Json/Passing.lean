import BitEnvelope.Proofs.Json.Grammar
import BitEnvelope.Proofs.Json.Number
import BitEnvelope.Proofs.Json.Text
import Mathlib.Tactic.IntervalCases

/-!
# Strings and numbers of the grammar are read

A string that has a content stands for it, whatever the escapes are. A reader that does not use what
it reads also gets to the end of every string and every number of the grammar: it looks neither for
the second half of a surrogate pair nor at the size of a number, so only the phases matter that it
goes through.
-/

namespace BitEnvelope.Json

/-! ## Strings -/

namespace TextReader

theorem hexDigit?_of_isHexDigit {n : Nat} {c : Char} (h : IsHexDigit n c) :
    hexDigit? c = some n := by
  obtain ⟨hn, hc⟩ := h
  interval_cases n <;> obtain rfl | rfl := hc <;> rfl

theorem exists_hexValue?_of_hexUnit {n : Nat} {ds : List Char} (h : HexUnit n ds) :
    ∃ a b c d, ds = [a, b, c, d] ∧ hexValue? [d, c, b, a] = some n := by
  obtain ⟨ha, hb, hc, hd⟩ := h
  refine ⟨_, _, _, _, rfl, ?_⟩
  simp only [hexValue?, hexDigit?_of_isHexDigit ha, hexDigit?_of_isHexDigit hb,
    hexDigit?_of_isHexDigit hc, hexDigit?_of_isHexDigit hd]
  rfl

theorem escape?_of_mem_letterEscapes : ∀ e ∈ letterEscapes, escape? e.1 = some e.2 := by
  decide

/-- A code point is no surrogate. -/
theorem not_surrogate (c : Char) :
    c.toNat < 0x110000 ∧ isLow c.toNat = false ∧ isHigh c.toNat = false := by
  have hvalid : c.toNat < 0xd800 ∨ 0xdfff < c.toNat ∧ c.toNat < 0x110000 := c.valid
  simp only [isLow, isHigh, Bool.and_eq_false_iff, decide_eq_false_iff_not]
  omega

/-- The two halves of a code point above `U+FFFF` are a pair, and its value is the code point. -/
theorem pair_of_above {n : Nat} (habove : 0x10000 ≤ n) (hlt : n < 0x110000) :
    isHigh (0xd800 + (n - 0x10000) / 0x400) = true ∧
      isLow (0xd800 + (n - 0x10000) / 0x400) = false ∧
      isLow (0xdc00 + (n - 0x10000) % 0x400) = true ∧
      pairValue (0xd800 + (n - 0x10000) / 0x400) (0xdc00 + (n - 0x10000) % 0x400) = n := by
  obtain ⟨m, rfl⟩ := Nat.exists_eq_add_of_le habove
  rw [Nat.add_sub_cancel_left]
  refine ⟨?_, ?_, ?_, ?_⟩
  · simp only [isHigh, Bool.and_eq_true, decide_eq_true_iff]
    omega
  · simp only [isLow, Bool.and_eq_false_iff, decide_eq_false_iff_not]
    omega
  · simp only [isLow, Bool.and_eq_true, decide_eq_true_iff]
    omega
  · unfold pairValue
    omega

theorem StandsFor.of_charText {c : Char} {cs : List Char} (h : CharText c cs) :
    StandsFor cs [c] := by
  cases h with
  | plain quote backslash control => exact .self quote backslash (Nat.not_lt.mpr control)
  | letter h => exact .letter (escape?_of_mem_letterEscapes _ h)
  | unit h =>
      obtain ⟨a, b, x, d, rfl, hvalue⟩ := exists_hexValue?_of_hexUnit h
      obtain ⟨-, hlow, hhigh⟩ := not_surrogate c
      have hunit := StandsFor.unit hvalue hlow hhigh
      rwa [Char.ofNat_toNat] at hunit
  | pair above high low =>
      obtain ⟨a, b, x, d, rfl, hfirst⟩ := exists_hexValue?_of_hexUnit high
      obtain ⟨a', b', x', d', rfl, hsecond⟩ := exists_hexValue?_of_hexUnit low
      obtain ⟨hhigh, hnot, hlow, hvalue⟩ := pair_of_above above (not_surrogate c).1
      have hpair := StandsFor.pair hfirst hhigh hnot hsecond hlow
      rwa [hvalue, Char.ofNat_toNat] at hpair

theorem StandsFor.of_pieces {content : List Char} {pieces : List (List Char)}
    (h : List.Forall₂ CharText content pieces) : StandsFor pieces.flatten content := by
  induction h with
  | nil => exact nil
  | cons first _ ih =>
      rw [List.flatten_cons]
      exact (of_charText first).append ih

/-- A loose reader gets over the characters `cs`. -/
def Passes (cs : List Char) : Prop :=
  ∀ seen, ∃ after, Run Continues (between false seen) cs (between false after)

theorem StandsFor.passes {cs content : List Char} (h : StandsFor cs content) : Passes cs := by
  intro seen
  obtain ⟨after, -, hrun⟩ := h false seen
  exact ⟨after, hrun⟩

theorem Passes.of_isPiece {cs : List Char} (h : IsPiece cs) : Passes cs := by
  cases h with
  | text h => exact (StandsFor.of_charText h).passes
  | unit h =>
      intro seen
      obtain ⟨a, b, c, d, rfl, hvalue⟩ := exists_hexValue?_of_hexUnit h
      exact ⟨seen, (run_escape false seen).append (run_unit rfl hvalue rfl)⟩

theorem Passes.flatten {pieces : List (List Char)} (h : ∀ p ∈ pieces, IsPiece p) :
    Passes pieces.flatten := by
  induction pieces with
  | nil => exact fun seen => ⟨seen, .nil⟩
  | cons p pieces ih =>
      intro seen
      obtain ⟨hp, hpieces⟩ := List.forall_mem_cons.mp h
      obtain ⟨mid, hfirst⟩ := Passes.of_isPiece hp seen
      obtain ⟨after, hrest⟩ := ih hpieces mid
      exact ⟨after, hfirst.append hrest⟩

end TextReader

/-! ## Numbers -/

namespace NumberReader

variable {p q : NumberPhase} {c : Char} {cs ds : List Char}

@[simp] theorem strict_pushWhole (r : NumberReader) (d : Nat) :
    (r.pushWhole d).strict = r.strict := by
  unfold pushWhole
  dsimp only
  split
  · rfl
  · rfl

theorem phase_pushWhole (r : NumberReader) (d : Nat) :
    (r.pushWhole d).phase = if r.phase = .sign ∧ d = 0 then .zero else .whole := by
  unfold pushWhole
  dsimp only
  split
  · rfl
  · rfl

@[simp] theorem strict_pushFraction (r : NumberReader) (d : Nat) :
    (r.pushFraction d).strict = r.strict := by
  unfold pushFraction
  dsimp only
  split
  · rfl
  · rfl

@[simp] theorem phase_pushFraction (r : NumberReader) (d : Nat) :
    (r.pushFraction d).phase = .fraction := by
  unfold pushFraction
  dsimp only
  split
  · rfl
  · rfl

/-- The characters `cs` lead from every reader in the phase `p` to one in the phase `q`. -/
def Passes (p : NumberPhase) (cs : List Char) (q : NumberPhase) : Prop :=
  ∀ r : NumberReader, r.phase = p →
    ∃ s : NumberReader, (s.phase = q ∧ s.strict = r.strict) ∧ Run Continues r cs s

namespace Passes

theorem nil : Passes p [] p := fun r hr => ⟨r, ⟨hr, rfl⟩, .nil⟩

theorem append {p' : NumberPhase} (h : Passes p cs p') (h' : Passes p' ds q) :
    Passes p (cs ++ ds) q := by
  intro r hr
  obtain ⟨mid, ⟨hmid, hstrict⟩, hfirst⟩ := h r hr
  obtain ⟨s, ⟨hs, hstrict'⟩, hrest⟩ := h' mid hmid
  exact ⟨s, ⟨hs, hstrict'.trans hstrict⟩, hfirst.append hrest⟩

theorem single (h : ∀ r : NumberReader, r.phase = p →
    ∃ s : NumberReader, (s.phase = q ∧ s.strict = r.strict) ∧ r.Continues c s) :
    Passes p [c] q := by
  intro r hr
  obtain ⟨s, hs, hstep⟩ := h r hr
  exact ⟨s, hs, .cons hstep .nil⟩

theorem cons {p' : NumberPhase} (h : Passes p [c] p') (h' : Passes p' cs q) :
    Passes p (c :: cs) q :=
  h.append h'

/-- Digits that keep the phase. -/
theorem digits (hstep : ∀ d : Char, d.isDigit = true → Passes q [d] q)
    (h : ∀ d ∈ cs, d.isDigit = true) : Passes q cs q := by
  induction cs with
  | nil => exact nil
  | cons d cs ih =>
      obtain ⟨hd, hcs⟩ := List.forall_mem_cons.mp h
      exact (hstep d hd).cons (ih hcs)

end Passes

theorem digit?_of_isDigit (h : c.isDigit = true) : Integer.digit? c = some (c.toNat - '0'.toNat) :=
  if_pos h

/-! ### One character -/

theorem passes_zero : Passes .sign ['0'] .zero := by
  refine .single fun r hr => ⟨r.pushWhole 0, ⟨?_, r.strict_pushWhole 0⟩, ?_⟩
  · rw [phase_pushWhole, if_pos ⟨hr, rfl⟩]
  · rw [Continues, feed, hr]
    rfl

theorem passes_first (h : c.isDigit = true) (hzero : c ≠ '0') : Passes .sign [c] .whole := by
  refine .single fun r hr => ⟨r.pushWhole (c.toNat - '0'.toNat), ⟨?_, r.strict_pushWhole _⟩, ?_⟩
  · have hpositive : c.toNat - '0'.toNat ≠ 0 := by
      have hle : '0'.toNat ≤ c.toNat := by
        simp only [Char.isDigit, Bool.and_eq_true, decide_eq_true_iff] at h
        exact h.1
      have hne : c.toNat ≠ '0'.toNat := fun heq => hzero (Char.toNat_inj.mp heq)
      omega
    rw [phase_pushWhole, if_neg fun hboth => hpositive hboth.2]
  · rw [Continues, feed, hr, digit?_of_isDigit h]

theorem passes_whole (h : c.isDigit = true) : Passes .whole [c] .whole := by
  refine .single fun r hr => ⟨r.pushWhole (c.toNat - '0'.toNat), ⟨?_, r.strict_pushWhole _⟩, ?_⟩
  · rw [phase_pushWhole, hr]
    rfl
  · rw [Continues, feed, hr, digit?_of_isDigit h]

theorem passes_fraction (hp : p = .point ∨ p = .fraction) (h : c.isDigit = true) :
    Passes p [c] .fraction := by
  refine .single fun r hr => ⟨r.pushFraction (c.toNat - '0'.toNat),
    ⟨r.phase_pushFraction _, r.strict_pushFraction _⟩, ?_⟩
  obtain rfl | rfl := hp
  · rw [Continues, feed, hr, digit?_of_isDigit h]
  · rw [Continues, feed, hr, digit?_of_isDigit h]

theorem passes_exponent (hp : p = .exponent ∨ p = .exponentSign ∨ p = .exponentDigits)
    (h : c.isDigit = true) : Passes p [c] .exponentDigits := by
  refine .single fun r hr => ⟨r.pushExponent (c.toNat - '0'.toNat), ⟨rfl, rfl⟩, ?_⟩
  obtain rfl | rfl | rfl := hp
  · rw [Continues, feed, hr, digit?_of_isDigit h]
  · rw [Continues, feed, hr, digit?_of_isDigit h]
  · rw [Continues, feed, hr, digit?_of_isDigit h]

theorem passes_point (hp : p = .zero ∨ p = .whole) : Passes p ['.'] .point := by
  refine .single fun r hr => ⟨r.startFraction, ⟨rfl, rfl⟩, ?_⟩
  obtain rfl | rfl := hp
  · rw [Continues, feed, hr]
    rfl
  · rw [Continues, feed, hr]
    rfl

theorem passes_letter (hp : p = .zero ∨ p = .whole ∨ p = .fraction) (hc : c = 'e' ∨ c = 'E') :
    Passes p [c] .exponent := by
  refine .single fun r hr => ⟨r.startExponent, ⟨rfl, rfl⟩, ?_⟩
  rw [Continues, feed, hr]
  obtain rfl | rfl := hc <;> obtain rfl | rfl | rfl := hp <;> rfl

theorem passes_exponentSign (hc : c = '+' ∨ c = '-') : Passes .exponent [c] .exponentSign := by
  obtain rfl | rfl := hc
  · refine .single fun r hr => ⟨{ r with phase := .exponentSign }, ⟨rfl, rfl⟩, ?_⟩
    rw [Continues, feed, hr]
    rfl
  · refine .single fun r hr =>
      ⟨{ r with phase := .exponentSign, exponentNegative := true }, ⟨rfl, rfl⟩, ?_⟩
    rw [Continues, feed, hr]
    rfl

/-! ### The parts of a number -/

theorem exists_passes_whole (h : IsWhole cs) :
    ∃ q, (q = .zero ∨ q = .whole) ∧ Passes .sign cs q := by
  cases h with
  | zero => exact ⟨.zero, .inl rfl, passes_zero⟩
  | digits first nonzero rest =>
      exact ⟨.whole, .inr rfl,
        (passes_first first nonzero).cons (.digits (fun _ => passes_whole) rest)⟩

theorem exists_passes_fraction (hp : p = .zero ∨ p = .whole) (h : IsFraction cs) :
    ∃ q, (q = .zero ∨ q = .whole ∨ q = .fraction) ∧ Passes p cs q := by
  cases h with
  | none =>
      refine ⟨p, ?_, .nil⟩
      obtain rfl | rfl := hp
      · exact .inl rfl
      · exact .inr (.inl rfl)
  | digits h =>
      obtain ⟨first, rest⟩ := h
      refine ⟨.fraction, .inr (.inr rfl), (passes_point hp).cons ?_⟩
      exact (passes_fraction (.inl rfl) first).cons
        (.digits (fun _ => passes_fraction (.inr rfl)) rest)

theorem passes_digits (hp : p = .exponent ∨ p = .exponentSign) (h : IsDigits cs) :
    Passes p cs .exponentDigits := by
  obtain ⟨first, rest⟩ := h
  have hstep : p = .exponent ∨ p = .exponentSign ∨ p = .exponentDigits :=
    hp.imp_right Or.inl
  exact (passes_exponent hstep first).cons
    (.digits (fun _ => passes_exponent (.inr (.inr rfl))) rest)

theorem exists_passes_exponent (hp : p = .zero ∨ p = .whole ∨ p = .fraction) (h : IsExponent cs) :
    ∃ q, (q = .zero ∨ q = .whole ∨ q = .fraction ∨ q = .exponentDigits) ∧ Passes p cs q := by
  cases h with
  | none =>
      refine ⟨p, ?_, .nil⟩
      obtain rfl | rfl | rfl := hp
      · exact .inl rfl
      · exact .inr (.inl rfl)
      · exact .inr (.inr (.inl rfl))
  | digits letter hsign h =>
      refine ⟨.exponentDigits, .inr (.inr (.inr rfl)), (passes_letter hp letter).cons ?_⟩
      obtain rfl | rfl | rfl := hsign
      · exact passes_digits (.inl rfl) h
      · exact (passes_exponentSign (.inl rfl)).append (passes_digits (.inr rfl) h)
      · exact (passes_exponentSign (.inr rfl)).append (passes_digits (.inr rfl) h)

/-- Without a minus sign, the first step of a run is what starts the number. -/
theorem start?_of_continues {strict : Bool} {r : NumberReader} (h : (blank strict).Continues c r) :
    start? strict c = some r := by
  cases hdigit : Integer.digit? c with
  | none =>
      rw [Continues, feed, hdigit] at h
      cases h
  | some d =>
      have hminus : (c == '-') = false := by
        rw [beq_eq_false_iff_ne]
        rintro rfl
        cases hdigit
      rw [Continues, feed, hdigit] at h
      rw [start?, hminus, hdigit]
      exact congrArg some (Option.some.inj (Except.ok.inj h))

theorem exists_cons_of_isWhole (h : IsWhole cs) : ∃ c ds, cs = c :: ds := by
  cases h with
  | zero => exact ⟨_, _, rfl⟩
  | digits => exact ⟨_, _, rfl⟩

/-- A number of the grammar leads to a reader that may end, of the strictness that it started
with. -/
theorem exists_run_of_isNumber (strict : Bool) (h : IsNumber cs) :
    ∃ c ds r s, cs = c :: ds ∧ start? strict c = some r ∧ Run Continues r ds s ∧
      s.complete = true ∧ s.strict = strict := by
  obtain ⟨hsign, hwhole, hfraction, hexponent⟩ := h
  obtain ⟨p, hp, hfirst⟩ := exists_passes_whole hwhole
  obtain ⟨p', hp', hsecond⟩ := exists_passes_fraction hp hfraction
  obtain ⟨q, hq, hthird⟩ := exists_passes_exponent hp' hexponent
  have hpasses := (hfirst.append hsecond).append hthird
  have hcomplete : ∀ s : NumberReader, s.phase = q → s.complete = true := by
    intro s hs
    rw [complete, hs]
    obtain rfl | rfl | rfl | rfl := hq <;> rfl
  obtain rfl | rfl := hsign
  · obtain ⟨c, ds, rfl⟩ := exists_cons_of_isWhole hwhole
    obtain ⟨s, ⟨hs, hstrict⟩, hrun⟩ := hpasses (blank strict) rfl
    cases hrun with
    | cons first rest =>
        exact ⟨c, _, _, s, rfl, start?_of_continues first, rest, hcomplete s hs, hstrict⟩
  · obtain ⟨s, ⟨hs, hstrict⟩, hrun⟩ := hpasses { blank strict with negative := true } rfl
    exact ⟨'-', _, _, s, rfl, rfl, hrun, hcomplete s hs, hstrict⟩

end NumberReader

end BitEnvelope.Json
