/-!
# Steps that may fail

What a sequence of steps gives is what its last step gives, if all steps before it succeed. `Answers`
compares such steps with the same ones without a check: it says what they give if they give anything,
and where they are sure to give it.
-/

namespace BitEnvelope

variable {α β ε : Type}

theorem bind_eq_ok {x : Except ε α} {f : α → Except ε β} {b : β} :
    x >>= f = .ok b ↔ ∃ a, x = .ok a ∧ f a = .ok b := by
  cases x with
  | error e =>
      constructor
      · intro h
        cases h
      · rintro ⟨_, h, _⟩
        cases h
  | ok a =>
      constructor
      · intro h
        exact ⟨a, rfl, h⟩
      · rintro ⟨_, h, hf⟩
        cases h
        exact hf

theorem foldlM_cons_of_ok {f : β → α → Except ε β} {a : α} {x y : β} (h : f x a = .ok y)
    (as : List α) : (a :: as).foldlM f x = as.foldlM f y := by
  rw [List.foldlM_cons, h]
  rfl

theorem foldlM_append_of_ok {f : β → α → Except ε β} {as : List α} {x y : β}
    (h : as.foldlM f x = .ok y) (bs : List α) : (as ++ bs).foldlM f x = bs.foldlM f y := by
  rw [List.foldlM_append, h]
  rfl

theorem foldlM_append_eq_ok {f : β → α → Except ε β} {xs ys : List α} {x z : β} :
    (xs ++ ys).foldlM f x = .ok z ↔ ∃ y, xs.foldlM f x = .ok y ∧ ys.foldlM f y = .ok z := by
  rw [List.foldlM_append, bind_eq_ok]

/-- What every step of a fold keeps holds of its result. -/
theorem foldlM_ok_induction {f : β → α → Except ε β} {P : β → Prop} {xs : List α} {x y : β}
    (step : ∀ x a y, P x → f x a = .ok y → P y) (hx : P x) (h : xs.foldlM f x = .ok y) : P y := by
  induction xs generalizing x with
  | nil =>
      cases h
      exact hx
  | cons a xs ih =>
      rw [List.foldlM_cons, bind_eq_ok] at h
      obtain ⟨z, hz, hrest⟩ := h
      exact ih (step x a z hx hz) hrest

theorem forM_eq_ok {g : α → Except ε Unit} {xs : List α} (h : ∀ a ∈ xs, g a = .ok ()) :
    xs.forM g = .ok () := by
  induction xs with
  | nil => rfl
  | cons a xs ih =>
      change g a >>= (fun _ => xs.forM g) = .ok ()
      rw [h a List.mem_cons_self]
      exact ih fun b hb => h b (List.mem_cons_of_mem a hb)

/-- The steps `x` give nothing but `a`, and where `p` holds they do give it. -/
structure Answers (p : Prop) (x : Except ε α) (a : α) : Prop where
  eq_ok : p → x = .ok a
  unique : ∀ b, x = .ok b → b = a

namespace Answers

variable {p q : Prop} {x y : Except ε α} {f : α → Except ε β} {a b : α} {c : β}

theorem pure (a : α) : Answers p (.ok a : Except ε α) a := by
  refine ⟨fun _ => rfl, fun b hb => ?_⟩
  cases hb
  rfl

/-- A check has nothing to give but that it has passed. -/
theorem check {x : Except ε Unit} (h : p → x = .ok ()) : Answers p x () := ⟨h, fun _ _ => rfl⟩

theorem mono (h : Answers q x a) (hpq : p → q) : Answers p x a :=
  ⟨fun hp => h.eq_ok (hpq hp), h.unique⟩

theorem bind (hx : Answers p x a) (hf : Answers p (f a) c) : Answers p (x >>= f) c := by
  constructor
  · intro hp
    rw [hx.eq_ok hp]
    exact hf.eq_ok hp
  · intro c' hc'
    obtain ⟨a', ha', hc'⟩ := bind_eq_ok.mp hc'
    rw [hx.unique a' ha'] at hc'
    exact hf.unique c' hc'

theorem ite {r : Prop} [Decidable r] (yes : r → Answers p x a) (no : ¬ r → Answers p y b) :
    Answers p (if r then x else y) (if r then a else b) := by
  split
  · rename_i hr
    exact yes hr
  · rename_i hr
    exact no hr

end Answers

end BitEnvelope
