/-!
# Runs over characters

The readers of strings and of numbers take one character at a time until they are closed. A run is
what happens before that.
-/

namespace BitEnvelope.Json

variable {σ τ : Type} {next : σ → Char → σ → Prop} {r s t : σ} {cs ds : List Char}

/-- The characters `cs` lead from `r` to `s`, where `next` says what one character leads to. -/
inductive Run (next : σ → Char → σ → Prop) : σ → List Char → σ → Prop where
  | nil {r : σ} : Run next r [] r
  | cons {r s t : σ} {c : Char} {cs : List Char} (first : next r c s) (rest : Run next s cs t) :
      Run next r (c :: cs) t

theorem Run.append (h : Run next r cs s) (h' : Run next s ds t) : Run next r (cs ++ ds) t := by
  induction h with
  | nil => exact h'
  | cons first _ ih => exact .cons first (ih h')

/-- Steps that are steps of another kind as well make up a run of the other kind. -/
theorem Run.map {next' : τ → Char → τ → Prop} (f : σ → τ)
    (step : ∀ r c s, next r c s → next' (f r) c (f s)) (h : Run next r cs s) :
    Run next' (f r) cs (f s) := by
  induction h with
  | nil => exact .nil
  | cons first _ ih => exact .cons (step _ _ _ first) ih

end BitEnvelope.Json
