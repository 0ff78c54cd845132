import BitEnvelope.Words.Basic

/-!
# Products of word lists

The product of two lists of `n` words takes `2 * n` words. It is built row by row: row `i` adds
the multiple of the second operand by word `i` of the first one to the words from place `i` on,
and puts the carry that leaves the row into the word above it, which no earlier row has reached.
-/

namespace BitEnvelope.Words

/-- One place of a row: a product of two words, the word already there, and the carry. The sum
fits in sixty-four bits, because a carry that leaves a place is less than `2 ^ 32`. -/
def mulStep (x y acc : Word) (carry : BitVec 64) : BitVec 64 :=
  x.setWidth 64 * y.setWidth 64 + acc.setWidth 64 + carry

/-- One row: `x` times the words `ys` is added to the accumulated words, and the carry out of the
last place takes the word that follows. -/
def mulRow (x : Word) : BitVec 64 → List Word → List Word → List Word
  | carry, y :: ys, acc :: accs =>
    let t := mulStep x y acc carry
    t.setWidth 32 :: mulRow x (t >>> 32) ys accs
  | carry, [], _ :: accs => carry.setWidth 32 :: accs
  | _, _, [] => []

/-- The rows of all words `xs`; each row starts one place above the row before it. -/
def mulRows : List Word → List Word → List Word → List Word
  | [], _, accs => accs
  | x :: xs, ys, accs =>
    match mulRow x 0 ys accs with
    | [] => []
    | w :: rest => w :: mulRows xs ys rest

/-- The full product of two lists of one length, twice as long as they are. -/
def mul (a b : List Word) : List Word :=
  mulRows a b (List.replicate (2 * a.length) 0)

/-- The product of `a` and `b`, built in place over the first words of `out`: these are cleared, and
the rows are added to them. -/
def mulInto (a b out : List Word) : List Word :=
  mulRows a b (overwrite out (List.replicate (2 * a.length) 0))

end BitEnvelope.Words
