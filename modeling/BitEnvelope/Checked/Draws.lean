import BitEnvelope.Checked.Misuse
import BitEnvelope.Draws

/-!
# Checked draws

A number is drawn below one that is not zero. The choice among candidates draws below their count, so
it fails once the count, which is a word, has come back to zero.
-/

namespace BitEnvelope.Draws

/-- A number below `n`, which is not zero. -/
def checkedBelow (n : Nat) (d : Draws) : Except Misuse (Nat × Draws) := do
  Misuse.emptyChoice.unless (n != 0)
  return d.below n

/-- Goes through the candidates as `chooseFrom` does, unless the count overflows. -/
def checkedChooseFrom {α : Type} (n : Word) (kept : Option α) :
    List α → Draws → Except Misuse (Option α × Draws)
  | [], d => .ok (kept, d)
  | x :: xs, d => do
    let n := n + 1
    let (r, d) ← d.checkedBelow n.toNat
    checkedChooseFrom n (if r = 0 then some x else kept) xs d

/-- One of the candidates, of which there are fewer than `2 ^ 32`. -/
def checkedChoose {α : Type} (candidates : List α) (d : Draws) :
    Except Misuse (Option α × Draws) :=
  checkedChooseFrom 0 none candidates d

end BitEnvelope.Draws
