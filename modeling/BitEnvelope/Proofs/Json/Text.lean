import BitEnvelope.Json.TextReader
import BitEnvelope.Proofs.Json.Run

/-!
# What the characters of a string stand for

Between the quotes of a string a character stands for itself, or an escape of several characters
stands for one. A reader that is outside of an escape before such a piece is outside of one after
it, and has added what the piece stands for, so pieces can be put together. A loose reader follows
the same steps, but does not keep what an escape `\u` stands for.
-/

namespace BitEnvelope.Json.TextReader

variable {r s : TextReader} {cs ds : List Char}

/-- The string is still open after the character `c`. -/
abbrev Continues (r : TextReader) (c : Char) (s : TextReader) : Prop := r.feed c = .ok (.more s)

/-! ## Pieces of a string -/

/-- A reader outside of an escape. -/
def between (strict : Bool) (content : List Char) : TextReader :=
  { strict, content, phase := .plain }

/-- The characters `cs` of a string stand for `content`. -/
def StandsFor (cs content : List Char) : Prop :=
  ∀ strict seen, ∃ after, (strict = true → after = content.reverse ++ seen) ∧
    Run Continues (between strict seen) cs (between strict after)

namespace StandsFor

variable {xs ys : List Char}

theorem nil : StandsFor [] [] := fun _ seen => ⟨seen, fun _ => rfl, .nil⟩

theorem append (h : StandsFor cs xs) (h' : StandsFor ds ys) : StandsFor (cs ++ ds) (xs ++ ys) := by
  intro strict seen
  obtain ⟨mid, hmid, hfirst⟩ := h strict seen
  obtain ⟨after, hafter, hrest⟩ := h' strict mid
  refine ⟨after, fun hs => ?_, hfirst.append hrest⟩
  rw [hafter hs, hmid hs, List.reverse_append, List.append_assoc]

theorem flatMap {f : Char → List Char} (h : ∀ c, StandsFor (f c) [c]) (xs : List Char) :
    StandsFor (xs.flatMap f) xs := by
  induction xs with
  | nil => exact nil
  | cons c xs ih =>
      rw [List.flatMap_cons]
      exact (h c).append ih

/-- A character that is neither a quote nor a backslash nor below `U+0020` stands for itself. -/
theorem self {c : Char} (hquote : c ≠ '"') (hslash : c ≠ '\\') (hcontrol : ¬ c.toNat < 0x20) :
    StandsFor [c] [c] := by
  intro strict seen
  refine ⟨c :: seen, fun _ => rfl, .cons ?_ .nil⟩
  rw [Continues, feed, between]
  dsimp only
  rw [if_neg (by simpa using hquote), if_neg (by simpa using hslash), if_neg hcontrol]
  rfl

/-- A letter after a backslash. -/
theorem letter {l c : Char} (h : escape? l = some c) : StandsFor ['\\', l] [c] := by
  intro strict seen
  have hu : (l == 'u') = false := by
    rw [beq_eq_false_iff_ne]
    rintro rfl
    cases h
  refine ⟨c :: seen, fun _ => rfl, .cons (s := { between strict seen with phase := .escaped }) rfl
    (.cons ?_ .nil)⟩
  simp only [Continues, feed, hu, h]
  rfl

end StandsFor

/-! ## Escapes by number -/

theorem utf8Size_of_hexDigit? {c : Char} {n : Nat} (h : hexDigit? c = some n) :
    c.utf8Size = 1 := by
  have hle : c ≤ 'f' := by
    unfold hexDigit? at h
    split at h
    · rename_i hc
      exact Char.le_trans hc.2 (by decide)
    · split at h
      · rename_i hc
        exact hc.2
      · split at h
        · rename_i hc
          exact Char.le_trans hc.2 (by decide)
        · cases h
  rw [Char.utf8Size, if_pos]
  exact UInt32.le_trans hle (by decide)

theorem utf8Size_of_hexValue? {ds : List Char} {n : Nat} (h : hexValue? ds = some n) :
    ∀ d ∈ ds, d.utf8Size = 1 := by
  induction ds generalizing n with
  | nil => exact List.forall_mem_nil _
  | cons d ds ih =>
      obtain ⟨x, hx, hrest⟩ := Option.bind_eq_some_iff.mp h
      obtain ⟨y, hy, -⟩ := Option.bind_eq_some_iff.mp hrest
      exact List.forall_mem_cons.mpr ⟨utf8Size_of_hexDigit? hx, ih hy⟩

theorem feed_unit {high : Option Nat} {seen : List Char} {c : Char}
    (hphase : r.phase = .unit high seen) (hsize : byteSize (c :: seen) < 4) :
    r.feed c = .ok (.more { r with phase := .unit high (c :: seen) }) := by
  simp only [feed, hphase]
  rw [feedUnit, if_pos hsize]
  rfl

theorem feed_unit_last {high : Option Nat} {seen : List Char} {c : Char} {n : Nat}
    (hphase : r.phase = .unit high seen) (hsize : ¬ byteSize (c :: seen) < 4)
    (hvalue : hexValue? (c :: seen) = some n) : r.feed c = (r.takeUnit high n).map .more := by
  simp only [feed, hphase]
  rw [feedUnit, if_neg hsize, hvalue]

/-- Four hexadecimal digits give a unit. -/
theorem run_unit {a b c d : Char} {n : Nat} {high : Option Nat} (hphase : r.phase = .unit high [])
    (h : hexValue? [d, c, b, a] = some n) (hs : r.takeUnit high n = .ok s) :
    Run Continues r [a, b, c, d] s := by
  have hsize := utf8Size_of_hexValue? h
  simp only [List.forall_mem_cons] at hsize
  obtain ⟨hd, hc, hb, ha, -⟩ := hsize
  have hlast : ({ r with phase := .unit high [c, b, a] } : TextReader).Continues d s := by
    rw [Continues, feed_unit_last rfl ?_ h]
    · change (r.takeUnit high n).map TextStep.more = _
      rw [hs]
      rfl
    · simp only [byteSize, ha, hb, hc, hd]
      decide
  refine .cons (feed_unit hphase ?_) (.cons (feed_unit rfl ?_) (.cons (feed_unit rfl ?_)
    (.cons hlast .nil))) <;>
    simp only [byteSize, ha, hb, hc] <;> decide

/-- A backslash and the letter of a unit, outside of an escape. -/
theorem run_escape (strict : Bool) (content : List Char) :
    Run Continues (between strict content) ['\\', 'u']
      { strict, content, phase := .unit none [] } :=
  .cons (s := { between strict content with phase := .escaped }) rfl (.cons rfl .nil)

/-- A unit that is no surrogate stands for a character. -/
theorem StandsFor.unit {a b c d : Char} {n : Nat} (h : hexValue? [d, c, b, a] = some n)
    (hlow : isLow n = false) (hhigh : isHigh n = false) :
    StandsFor ['\\', 'u', a, b, c, d] [Char.ofNat n] := by
  intro strict seen
  cases strict with
  | false =>
      exact ⟨seen, fun h => absurd h Bool.false_ne_true,
        (run_escape false seen).append (run_unit rfl h rfl)⟩
  | true =>
      refine ⟨Char.ofNat n :: seen, fun _ => rfl,
        (run_escape true seen).append (run_unit rfl h ?_)⟩
      simp only [takeUnit, hlow, hhigh]
      rfl

/-- A high and a low unit stand for one character. -/
theorem StandsFor.pair {a b c d a' b' c' d' : Char} {m n : Nat}
    (hm : hexValue? [d, c, b, a] = some m) (hhigh : isHigh m = true) (hlow : isLow m = false)
    (hn : hexValue? [d', c', b', a'] = some n) (hpartner : isLow n = true) :
    StandsFor ['\\', 'u', a, b, c, d, '\\', 'u', a', b', c', d'] [Char.ofNat (pairValue m n)] := by
  intro strict seen
  cases strict with
  | false =>
      refine ⟨seen, fun h => absurd h Bool.false_ne_true, ?_⟩
      exact ((run_escape false seen).append (run_unit rfl hm rfl)).append
        ((run_escape false seen).append (run_unit rfl hn rfl))
  | true =>
      -- A strict reader waits for the second unit from the backslash on.
      let waiting : TextReader := { strict := true, content := seen, phase := .lowBackslash m }
      have hfirst : Run Continues (between true seen) ['\\', 'u', a, b, c, d] waiting := by
        refine (run_escape true seen).append (run_unit rfl hm ?_)
        simp only [takeUnit, hlow, hhigh]
        rfl
      have hletter : Run Continues waiting ['\\', 'u']
          { waiting with phase := .unit (some m) [] } :=
        .cons (s := { waiting with phase := .lowLetter m }) rfl (.cons rfl .nil)
      refine ⟨Char.ofNat (pairValue m n) :: seen, fun _ => rfl,
        hfirst.append (hletter.append (run_unit rfl hn ?_))⟩
      simp only [takeUnit, hpartner]
      rfl

end BitEnvelope.Json.TextReader
