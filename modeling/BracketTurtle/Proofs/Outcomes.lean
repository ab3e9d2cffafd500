import Mathlib.Tactic

/-!
# Outcomes

Steps that may fail, one after the other: the whole comes to something when every step does. Two
such courses of steps are alike when they come to related things or fail with related errors.
-/

namespace BracketTurtle

variable {ε ε' α β : Type}

theorem ok_bind (a : α) (f : α → Except ε β) : (.ok a : Except ε α) >>= f = f a := rfl

theorem error_bind (e : ε) (f : α → Except ε β) : (.error e : Except ε α) >>= f = .error e := rfl

theorem pure_eq_ok (a : α) : (pure a : Except ε α) = .ok a := rfl

theorem bind_eq_ok {x : Except ε α} {f : α → Except ε β} {b : β} :
    x >>= f = .ok b ↔ ∃ a, x = .ok a ∧ f a = .ok b := by
  cases x with
  | error e => simp [bind, Except.bind]
  | ok a => simp [bind, Except.bind]

theorem mapError_eq_ok {x : Except ε α} {f : ε → ε'} {a : α} :
    x.mapError f = .ok a ↔ x = .ok a := by
  cases x with
  | error e => simp [Except.mapError]
  | ok a => simp [Except.mapError]

theorem toOption_eq_some {x : Except ε α} {a : α} : x.toOption = some a ↔ x = .ok a := by
  cases x <;> simp [Except.toOption]

/-- Both come to something, or both fail, with what they come to or fail with related. -/
inductive Alike (E : ε → ε' → Prop) (R : α → β → Prop) : Except ε α → Except ε' β → Prop
  | ok {a : α} {b : β} : R a b → Alike E R (.ok a) (.ok b)
  | error {e : ε} {e' : ε'} : E e e' → Alike E R (.error e) (.error e')

namespace Alike

variable {γ δ ζ ζ' : Type} {E : ε → ε' → Prop} {F : ζ → ζ' → Prop} {R : α → β → Prop}
  {S : γ → δ → Prop} {x : Except ε α} {y : Except ε' β}

theorem bind {f : α → Except ε γ} {g : β → Except ε' δ} (h : Alike E R x y)
    (hf : ∀ a b, R a b → Alike E S (f a) (g b)) : Alike E S (x >>= f) (y >>= g) := by
  cases h with
  | ok hab => exact hf _ _ hab
  | error he => exact .error he

theorem map {f : α → γ} {g : β → δ} (h : Alike E R x y) (hf : ∀ a b, R a b → S (f a) (g b)) :
    Alike E S (x.map f) (y.map g) := by
  cases h with
  | ok hab => exact .ok (hf _ _ hab)
  | error he => exact .error he

theorem mapError {f : ε → ζ} {g : ε' → ζ'} (h : Alike E R x y)
    (hf : ∀ e e', E e e' → F (f e) (g e')) : Alike F R (x.mapError f) (y.mapError g) := by
  cases h with
  | ok hab => exact .ok hab
  | error he => exact .error (hf _ _ he)

theorem of_ok {a : α} (h : Alike E R (.ok a) y) : ∃ b, y = .ok b ∧ R a b := by
  cases h with
  | ok hab => exact ⟨_, rfl, hab⟩

theorem of_error {e : ε} (h : Alike E R (.error e : Except ε α) y) :
    ∃ e', y = .error e' ∧ E e e' := by
  cases h with
  | error he => exact ⟨_, rfl, he⟩

end Alike

end BracketTurtle
