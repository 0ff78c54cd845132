import BitEnvelope.Word

/-!
# Random draws

Randomised operations take their randomness from a `Draws` value and hand back what is left of
it, so a run is determined by the draws it is given. A `Draws` value holds words that are drawn
first, in order, and the state of a linear congruential generator that goes on when they are used
up. It counts how many words have been drawn. Each of `coin`, `below` and `next` draws exactly one
word.

`choose` picks one of a list of candidates by reservoir sampling: it draws one word for each of
them, in order, and the `k`-th one becomes the choice if its word is a multiple of `k`. The count of the
candidates is itself a word, so there are to be fewer than `2 ^ 32` of them.
-/

namespace BitEnvelope

/-- A source of random words. -/
structure Draws where
  /-- The words that come first. -/
  given : List Word
  /-- The state of the generator that follows them. -/
  state : UInt64
  /-- How many words have been drawn. -/
  used : Nat
deriving DecidableEq, Repr

namespace Draws

def start (given : List Word) (seed : UInt64) : Draws :=
  { given, state := seed, used := 0 }

def advance (s : UInt64) : UInt64 := s * 6364136223846793005 + 1442695040888963407

/-- The next word, and the source after it. Past the given words it is the high half of the
generator's next state. -/
def next : Draws → Word × Draws
  | ⟨w :: ws, s, k⟩ => (w, ⟨ws, s, k + 1⟩)
  | ⟨[], s, k⟩ =>
    let t := advance s
    ((t >>> 32).toBitVec.setWidth 32, ⟨[], t, k + 1⟩)

/-- A coin: heads if the next word is even. -/
def coin (d : Draws) : Bool × Draws :=
  let (w, d) := d.next
  (w.toNat % 2 == 0, d)

/-- A number below `n`: the next word reduced modulo `n`. -/
def below (n : Nat) (d : Draws) : Nat × Draws :=
  let (w, d) := d.next
  (w.toNat % n, d)

/-- The next `n` words, in the order they are drawn. -/
def take : Nat → Draws → List Word × Draws
  | 0, d => ([], d)
  | n + 1, d =>
    let (w, d) := d.next
    let (ws, d) := take n d
    (w :: ws, d)

/-- Goes through the candidates. `n` counts those that have been seen, and `kept` is the choice among
them. -/
def chooseFrom {α : Type} (n : Word) (kept : Option α) : List α → Draws → Option α × Draws
  | [], d => (kept, d)
  | x :: xs, d =>
    let n := n + 1
    let (r, d) := d.below n.toNat
    chooseFrom n (if r = 0 then some x else kept) xs d

/-- One of the candidates, chosen with one draw for each of them; none if there are none. -/
def choose {α : Type} (candidates : List α) (d : Draws) : Option α × Draws :=
  chooseFrom 0 none candidates d

end Draws

end BitEnvelope
