import BitEnvelope.Envelope.Scatter
import BitEnvelope.Envelope.Search
import BitEnvelope.Envelope.Sweep
import BitEnvelope.Proofs.Envelope.Failure
import BitEnvelope.Proofs.Envelope.Headroom
import BitEnvelope.Proofs.Envelope.Perturbation

/-!
# The free bits of the committed value

Another committed value makes no difference to what an envelope answers, if it has the same bits at
the pinned positions: the operations read the committed value under the mask of the pins, or at one
position that is known to be pinned. Tightening alone looks at the whole committed value, but
whether it fails, and where the interval starts after it, hangs on the values of the envelope.
-/

namespace BitEnvelope

theorem Packed.mapWords_congr {x : Packed} {n : Nat} {f g : Nat → Word → Word}
    (h : ∀ k, k < n → ∀ w, f k w = g k w) : x.mapWords n f = x.mapWords n g := by
  rw [mapWords, mapWords]
  congr 2
  funext k w
  split
  · rename_i hk
    exact h k hk w
  · rfl

theorem Packed.getLsbD_word (x : Packed) (k : Nat) {j : Nat} (hj : j < 32) :
    (x.word k).getLsbD j = x.bit (32 * k + j) := by
  rw [bit, show (32 * k + j) / 32 = k by omega, show (32 * k + j) % 32 = j by omega]

namespace Envelope

/-- The envelope `e` with the committed value `c`. -/
def withCurrent (e : Envelope) (c : Packed) : Envelope := { e with current := c }

/-- The values `c` and the committed one have the same bits at the pinned positions. -/
def SharesPins (e : Envelope) (c : Packed) : Prop :=
  ∀ i, e.isFree i = false → c.bit i = e.current.bit i

theorem isFree_of_divergence? {e : Envelope} {x : Packed} {p : Nat}
    (h : e.divergence? x = some p) : e.isFree p = false := by
  obtain ⟨-, hset, -⟩ := getLsbD_of_findSome?_highest h
  rw [getLsbD_divergence, Bool.and_eq_true, Bool.not_eq_true'] at hset
  exact hset.2

theorem not_or_eq_not_or_and (p w : Word) : ~~~p ||| w = ~~~p ||| (w &&& p) := by
  apply BitVec.eq_of_getLsbD_eq
  intro j hj
  simp only [BitVec.getLsbD_or, BitVec.getLsbD_and, BitVec.getLsbD_not, hj, decide_true,
    Bool.true_and]
  cases p.getLsbD j <;> cases w.getLsbD j <;> rfl

/-- A sweep reads which positions are free, and no value but the one that it changes. -/
theorem sweep_withCurrent (e : Envelope) (c : Packed) : (e.withCurrent c).sweep = e.sweep := by
  funext b goal is x
  induction is generalizing x with
  | nil => rfl
  | cons i is ih =>
      rw [sweep, sweep, ih]
      rfl

/-- So does the scan of the sign prefix. -/
theorem extendSign_withCurrent (e : Envelope) (c : Packed) :
    (e.withCurrent c).extendSign = e.extendSign := by
  funext x
  rw [extendSign_eq, extendSign_eq]
  rfl

theorem raiseUntil_withCurrent (e : Envelope) (c : Packed) :
    (e.withCurrent c).raiseUntil = e.raiseUntil := by
  funext goal x
  rw [raiseUntil, raiseUntil, sweepUp, sweepUp, sweep_withCurrent, extendSign_withCurrent]
  rfl

theorem lowerUntil_withCurrent (e : Envelope) (c : Packed) :
    (e.withCurrent c).lowerUntil = e.lowerUntil := by
  funext goal x
  rw [lowerUntil, lowerUntil, sweepDown, sweepDown, sweep_withCurrent, extendSign_withCurrent]
  rfl

theorem scatterAbove_withCurrent (e : Envelope) (c : Packed) :
    (e.withCurrent c).scatterAbove = e.scatterAbove := by
  funext x d
  rw [scatterAbove, scatterAbove, extendSign_withCurrent]
  rfl

theorem redrawBelow_withCurrent (e : Envelope) (c : Packed) :
    (e.withCurrent c).redrawBelow = e.redrawBelow := by
  funext x chosen d
  cases chosen with
  | none => rfl
  | some p =>
      rw [redrawBelow, redrawBelow, extendSign_withCurrent]
      rfl

theorem scatterBelow_withCurrent (e : Envelope) (c : Packed) :
    (e.withCurrent c).scatterBelow = e.scatterBelow := by
  funext x d
  rw [scatterBelow, scatterBelow, redrawBelow_withCurrent]
  rfl

theorem sweepIntoRange_withCurrent (e : Envelope) (c : Packed) :
    (e.withCurrent c).sweepIntoRange = e.sweepIntoRange := by
  funext downFirst x
  simp only [sweepIntoRange, sweepUp, sweepDown, sweep_withCurrent]
  rfl

/-- Whatever the two envelopes are asked, they give the same answers and write the same values. -/
structure AnswersAlike (e f : Envelope) : Prop where
  scratch_eq : f.scratch = e.scratch
  isZero_eq : f.isZero = e.isZero
  isOnes_eq : f.isOnes = e.isOnes
  inRange_eq : f.inRange = e.inRange
  admits_eq : f.admits = e.admits
  floor?_eq : f.floor? = e.floor?
  ceil?_eq : f.ceil? = e.ceil?
  least_eq : f.least = e.least
  greatest_eq : f.greatest = e.greatest
  fill?_eq : f.fill? = e.fill?
  extendSign_eq : f.extendSign = e.extendSign
  lowerUntil_eq : f.lowerUntil = e.lowerUntil
  raiseUntil_eq : f.raiseUntil = e.raiseUntil
  scatterAbove_eq : f.scatterAbove = e.scatterAbove
  scatterBelow_eq : f.scatterBelow = e.scatterBelow
  variant_eq : f.variant = e.variant
  repair?_eq : f.repair? = e.repair?

namespace SharesPins

variable {e : Envelope} {c : Packed} (hc : e.SharesPins c)
include hc

/-! ## The pins -/

theorem word_and (k : Nat) : c.word k &&& e.pins.word k = e.current.word k &&& e.pins.word k := by
  apply BitVec.eq_of_getLsbD_eq
  intro j hj
  rw [BitVec.getLsbD_and, BitVec.getLsbD_and, Packed.getLsbD_word _ _ hj,
    Packed.getLsbD_word _ _ hj, Packed.getLsbD_word _ _ hj]
  cases hp : e.pins.bit (32 * k + j) with
  | false => simp
  | true => rw [hc _ (by simp [isFree, hp])]

/-- Under the mask of the pins, a word differs from both committed values in the same bits. -/
theorem word_xor_and (w : Word) (k : Nat) :
    (w ^^^ c.word k) &&& e.pins.word k = (w ^^^ e.current.word k) &&& e.pins.word k := by
  apply BitVec.eq_of_getLsbD_eq
  intro j _
  have hbit := congrArg (BitVec.getLsbD · j) (hc.word_and k)
  simp only [BitVec.getLsbD_and, BitVec.getLsbD_xor] at hbit ⊢
  cases hp : (e.pins.word k).getLsbD j with
  | false => simp
  | true => simpa [hp] using congrArg (xor (w.getLsbD j)) (by simpa [hp] using hbit)

theorem agrees_eq : (e.withCurrent c).agrees = e.agrees := by
  funext x
  refine List.all_congr rfl fun k => ?_
  change (e.pins.word k &&& (x.word k ^^^ c.word k) == 0) =
    (e.pins.word k &&& (x.word k ^^^ e.current.word k) == 0)
  rw [BitVec.and_comm, hc.word_xor_and, BitVec.and_comm]

theorem admits_eq : (e.withCurrent c).admits = e.admits := by
  funext x
  rw [admits, admits, hc.agrees_eq]
  rfl

theorem forbids_eq : (e.withCurrent c).forbids = e.forbids := by
  funext i b
  change (!e.isFree i && c.bit i != b) = (!e.isFree i && e.current.bit i != b)
  cases hpin : e.isFree i with
  | true => rfl
  | false => rw [hc i hpin]

theorem fill?_eq : (e.withCurrent c).fill? = e.fill? := by
  funext x lo hi b
  rw [fill?, fill?, hc.forbids_eq]

theorem completes_iff {n : Nat} : (e.withCurrent c).Completes n ↔ e.Completes n := by
  refine and_congr_right fun _ => forall_congr' fun i => imp_congr_right fun _ =>
    imp_congr_right fun hpin => ?_
  change n.testBit i = c.bit i ↔ n.testBit i = e.current.bit i
  rw [hc i hpin]

theorem allows_iff {n : Nat} : (e.withCurrent c).Allows n ↔ e.Allows n := by
  rw [Envelope.allows_iff, Envelope.allows_iff, hc.completes_iff]
  rfl

/-! ## Completions -/

theorem applyPins_eq : (e.withCurrent c).applyPins = e.applyPins := by
  funext x
  refine Packed.mapWords_congr fun k _ w => ?_
  exact congrArg ((w &&& ~~~e.pins.word k) ||| ·) (hc.word_and k)

theorem divergence?_eq : (e.withCurrent c).divergence? = e.divergence? := by
  funext x
  have hword : (fun k => ((x.word k ^^^ c.word k) &&& e.pins.word k).highest?.map (32 * k + ·)) =
      fun k => ((x.word k ^^^ e.current.word k) &&& e.pins.word k).highest?.map (32 * k + ·) := by
    funext k
    rw [hc.word_xor_and]
  exact congrArg ((List.range e.wordCount).reverse.findSome? ·) hword

theorem nearestCompletion?_eq :
    (e.withCurrent c).nearestCompletion? = e.nearestCompletion? := by
  funext b x
  rw [nearestCompletion?, nearestCompletion?, hc.divergence?_eq, hc.applyPins_eq]
  cases hd : e.divergence? x with
  | none => rfl
  | some p =>
      have hbit : (e.withCurrent c).current.bit p = e.current.bit p :=
        hc p (isFree_of_divergence? hd)
      dsimp only
      rw [hbit]
      rfl

theorem ceilCompletion?_eq : (e.withCurrent c).ceilCompletion? = e.ceilCompletion? :=
  congrFun hc.nearestCompletion?_eq true

theorem floorCompletion?_eq : (e.withCurrent c).floorCompletion? = e.floorCompletion? := by
  funext x
  rw [Envelope.floorCompletion?_eq, Envelope.floorCompletion?_eq, hc.nearestCompletion?_eq]

/-! ## Searches -/

theorem raise?_eq : (e.withCurrent c).raise? = e.raise? := by
  funext x
  rw [raise?, raise?, hc.ceilCompletion?_eq]
  rfl

theorem lower?_eq : (e.withCurrent c).lower? = e.lower? := by
  funext x
  rw [lower?, lower?, hc.floorCompletion?_eq]
  rfl

theorem ceil?_eq : (e.withCurrent c).ceil? = e.ceil? := by
  funext src dst
  rw [ceil?, ceil?, hc.ceilCompletion?_eq, hc.raise?_eq]
  rfl

theorem floor?_eq : (e.withCurrent c).floor? = e.floor? := by
  funext src dst
  rw [floor?, floor?, hc.floorCompletion?_eq, hc.lower?_eq]
  rfl

theorem least_eq : (e.withCurrent c).least = e.least := by
  funext out
  have hpins : (fun k (_ : Word) => e.pins.word k &&& c.word k) =
      fun k _ => e.pins.word k &&& e.current.word k := by
    funext k _
    rw [BitVec.and_comm, hc.word_and, BitVec.and_comm]
  simp only [least, hc.ceilCompletion?_eq, hc.raise?_eq, extendSign_withCurrent]
  change _ = e.extendSign _
  rw [← hpins]
  rfl

theorem greatest_eq : (e.withCurrent c).greatest = e.greatest := by
  funext out
  have hpins : (fun k (_ : Word) => ~~~e.pins.word k ||| c.word k) =
      fun k _ => ~~~e.pins.word k ||| e.current.word k := by
    funext k _
    rw [not_or_eq_not_or_and, hc.word_and, ← not_or_eq_not_or_and]
  simp only [greatest, hc.floorCompletion?_eq, hc.lower?_eq, extendSign_withCurrent]
  change _ = e.extendSign _
  rw [← hpins]
  rfl

/-! ## Changes of a value -/

theorem settle_eq : (e.withCurrent c).settle = e.settle := by
  funext x
  rw [settle, settle, hc.applyPins_eq, extendSign_withCurrent]

theorem repair?_eq : (e.withCurrent c).repair? = e.repair? := by
  funext downFirst x
  rw [repair?, repair?, hc.settle_eq, hc.admits_eq, sweepIntoRange_withCurrent,
    extendSign_withCurrent]
  rfl

theorem variant_eq : (e.withCurrent c).variant = e.variant := by
  funext out d
  rw [variant, variant, hc.applyPins_eq, extendSign_withCurrent]
  rfl

/-! ## All answers -/

theorem answersAlike : AnswersAlike e (e.withCurrent c) where
  scratch_eq := rfl
  isZero_eq := rfl
  isOnes_eq := rfl
  inRange_eq := rfl
  admits_eq := hc.admits_eq
  floor?_eq := hc.floor?_eq
  ceil?_eq := hc.ceil?_eq
  least_eq := hc.least_eq
  greatest_eq := hc.greatest_eq
  fill?_eq := hc.fill?_eq
  extendSign_eq := extendSign_withCurrent e c
  lowerUntil_eq := lowerUntil_withCurrent e c
  raiseUntil_eq := raiseUntil_withCurrent e c
  scatterAbove_eq := scatterAbove_withCurrent e c
  scatterBelow_eq := scatterBelow_withCurrent e c
  variant_eq := hc.variant_eq
  repair?_eq := hc.repair?_eq

/-! ## Tightening -/

theorem raisedLo_eq : (e.withCurrent c).raisedLo = e.raisedLo := by
  rw [raisedLo, raisedLo, hc.ceilCompletion?_eq]
  rfl

end SharesPins

/-- The envelopes have the same width, pins, interval and sign prefix, and their committed values
have the same bits at the pinned positions. -/
structure Alike (e f : Envelope) : Prop where
  width_eq : f.width = e.width
  pins_eq : f.pins = e.pins
  lo_eq : f.lo = e.lo
  hi_eq : f.hi = e.hi
  signedPrefix_eq : f.signedPrefix = e.signedPrefix
  current_bit_eq : ∀ i < e.width, e.isFree i = false → f.current.bit i = e.current.bit i

theorem Alike.eq_withCurrent {e f : Envelope} (h : e.Alike f) : f = e.withCurrent f.current := by
  obtain ⟨hwidth, hpins, hlo, hhi, hsign, -⟩ := h
  rw [withCurrent, ← hwidth, ← hpins, ← hlo, ← hhi, ← hsign]

/-- Above the width, both committed values are clear, and beyond their words nothing is pinned. -/
theorem Alike.sharesPins {e f : Envelope} (h : e.Alike f) (he : e.Regular) (hf : f.Regular)
    (hclear : e.ClearHeadroom) : e.SharesPins f.current := by
  intro i hpin
  by_cases hi : i < e.width
  · exact h.current_bit_eq i hi hpin
  · have hi := Nat.le_of_not_lt hi
    have hc : i < 32 * e.wordCount := by
      by_contra hge
      rw [hclear.isFree_of_le (Nat.le_of_not_lt hge)] at hpin
      cases hpin
    have hcurrent : f.current.IsValue e.width := h.width_eq ▸ hf.current
    rw [hcurrent.bit_of_le hi hc, he.current.bit_of_le hi hc]

theorem Alike.answersAlike {e f : Envelope} (h : e.Alike f) (he : e.Regular) (hf : f.Regular)
    (hclear : e.ClearHeadroom) : e.AnswersAlike f := by
  have hshares := h.sharesPins he hf hclear
  rw [h.eq_withCurrent]
  exact hshares.answersAlike

/-- Both operations fail with the same error, or they leave envelopes that are alike. -/
inductive EndAlike : Except EnvelopeError Envelope → Except EnvelopeError Envelope → Prop
  | failed (err : EnvelopeError) : EndAlike (.error err) (.error err)
  | done {e f : Envelope} (h : e.Alike f) : EndAlike (.ok e) (.ok f)

/-- Tightening fails or succeeds in both, whether or not the committed value has to move, and it
raises the start of the interval to the same completion. -/
theorem SharesPins.tighten {e : Envelope} {c : Packed} (hc : e.SharesPins c) (he : e.Regular)
    (hf : (e.withCurrent c).Regular) : EndAlike e.tighten (e.withCurrent c).tighten := by
  cases htight : e.tighten with
  | error err =>
      obtain ⟨hempty, herr⟩ := he.tighten_eq_error_iff.mp htight
      have hfailed : (e.withCurrent c).tighten = .error err :=
        hf.tighten_eq_error_iff.mpr ⟨fun n hn => hempty n (hc.allows_iff.mp hn), herr⟩
      rw [hfailed]
      exact .failed err
  | ok e' =>
      have hsame := he.sameValues_of_tighten htight
      cases htight' : (e.withCurrent c).tighten with
      | error err =>
          obtain ⟨hempty, -⟩ := hf.tighten_eq_error_iff.mp htight'
          exact absurd (hc.allows_iff.mpr ((hsame.allows_iff _).mp hsame.allows_current)) (hempty _)
      | ok f' =>
          have hsame' := hf.sameValues_of_tighten htight'
          have hlo : f'.lo = e'.lo := by
            rw [lo_of_tighten htight, lo_of_tighten htight', hc.raisedLo_eq]
            rfl
          exact .done {
            width_eq := hsame'.width_eq.trans hsame.width_eq.symm
            pins_eq := hsame'.pins_eq.trans hsame.pins_eq.symm
            lo_eq := hlo
            hi_eq := hsame'.hi_eq.trans hsame.hi_eq.symm
            signedPrefix_eq := hsame'.signedPrefix_eq.trans hsame.signedPrefix_eq.symm
            current_bit_eq := fun i hi hpin => by
              rw [hsame.width_eq] at hi
              rw [hsame.isFree_eq] at hpin
              rw [hsame'.current_bit_eq hi hpin, hsame.current_bit_eq hi hpin]
              exact hc i hpin }

namespace Alike

variable {e f : Envelope} (h : e.Alike f)
include h

theorem pin (he : e.Regular) (hf : f.Regular) {i : Nat} (hi : i < e.width) (b : Bool) :
    (e.pinned i b).Alike (f.pinned i b) := by
  have hpins : f.pins.setBit i true = e.pins.setBit i true := by rw [h.pins_eq]
  have hif : i < f.width := h.width_eq.symm ▸ hi
  refine ⟨h.width_eq, hpins, h.lo_eq, h.hi_eq, h.signedPrefix_eq, fun j hj hpin => ?_⟩
  rw [hf.bit_current_pinned hif, he.bit_current_pinned hi]
  split
  · rfl
  · rename_i hji
    rw [he.isFree_pinned hi, bne_iff_ne.mpr hji, Bool.and_true] at hpin
    exact h.current_bit_eq j hj hpin

theorem narrowed (l r : Int) : (e.narrowed l r).Alike (f.narrowed l r) := by
  rw [h.eq_withCurrent]
  exact ⟨rfl, rfl, rfl, rfl, rfl, h.current_bit_eq⟩

theorem tighten (he : e.Regular) (hf : f.Regular) (hclear : e.ClearHeadroom) :
    EndAlike e.tighten f.tighten := by
  have hshares := h.sharesPins he hf hclear
  rw [h.eq_withCurrent] at hf ⊢
  exact hshares.tighten he hf

theorem restrict (he : e.Regular) (hf : f.Regular) (hclear : e.ClearHeadroom) (l r : Int) :
    EndAlike (e.restrict l r) (f.restrict l r) := by
  rw [restrict_eq, restrict_eq, residue_congr h.width_eq, residue_congr h.width_eq]
  split
  · exact .done h
  · exact (h.narrowed l r).tighten (he.narrowed_regular l r) (hf.narrowed_regular l r)
      (hclear.narrowed he l r)

end Alike

end Envelope

end BitEnvelope
