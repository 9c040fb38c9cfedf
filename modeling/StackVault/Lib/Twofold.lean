import Mathlib.Data.Option.Basic

/-! Two fallible computations side by side. They end alike when both fail with one error, or both return and
    their results are related. The relation passes through binds, so that a program is related to itself over two
    inputs once its smallest parts are. -/

namespace Twofold

variable {ε α α' β β' : Type}

/-- Both computations fail with the same error, or both return and the results are related. -/
def Both (R : α → α' → Prop) : Except ε α → Except ε α' → Prop
  | .ok a, .ok a' => R a a'
  | .error e, .error e' => e = e'
  | .ok _, .error _ => False
  | .error _, .ok _ => False

section Rules
variable {R : α → α' → Prop} {S : β → β' → Prop} {x : Except ε α} {x' : Except ε α'} {f : α → Except ε β}
  {f' : α' → Except ε β'} {a : α} {a' : α'}

theorem Both.pure (h : R a a') : Both (ε := ε) R (pure a) (pure a') := h

theorem Both.error {e : ε} : Both R (.error e) (.error e) := rfl

theorem Both.ends (h : Both R x x') :
    (∃ e, x = .error e ∧ x' = .error e) ∨ ∃ a a', x = .ok a ∧ x' = .ok a' ∧ R a a' := by
  cases x with
  | error e =>
    cases x' with
    | error e' => exact Or.inl ⟨e, rfl, congrArg _ (Eq.symm h)⟩
    | ok a' => exact h.elim
  | ok a =>
    cases x' with
    | error e' => exact h.elim
    | ok a' => exact Or.inr ⟨a, a', rfl, rfl, h⟩

theorem Both.bind (h : Both R x x') (hf : ∀ a a', R a a' → Both S (f a) (f' a')) : Both S (x >>= f) (x' >>= f') := by
  rcases h.ends with ⟨e, rfl, rfl⟩ | ⟨a, a', rfl, rfl, ha⟩
  · rfl
  · exact hf a a' ha

theorem Both.map {g : α → β} {g' : α' → β'} (h : Both R x x') (hg : ∀ a a', R a a' → S (g a) (g' a')) :
    Both S (x.map g) (x'.map g') := by
  rcases h.ends with ⟨e, rfl, rfl⟩ | ⟨a, a', rfl, rfl, ha⟩
  · rfl
  · exact hg a a' ha

theorem Both.of_ok (h : Both R x x') (hx : x = .ok a) : ∃ a', x' = .ok a' ∧ R a a' := by
  subst hx
  cases x' with
  | error e' => exact h.elim
  | ok a' => exact ⟨a', rfl, h⟩

theorem Both.of_eq {x : Except ε α} {R : α → α → Prop} (h : ∀ a, x = .ok a → R a a) : Both R x x := by
  cases x with
  | error e => rfl
  | ok a => exact h a rfl

end Rules

/-! ### Errors that are related -/

section Ends
variable {ε' : Type} {E : ε → ε' → Prop} {R : α → α' → Prop} {x : Except ε α} {x' : Except ε' α'}

/-- Both computations fail and the errors are related, or both return and the results are. -/
inductive Ends (E : ε → ε' → Prop) (R : α → α' → Prop) : Except ε α → Except ε' α' → Prop
  | ok {a : α} {a' : α'} (h : R a a') : Ends E R (.ok a) (.ok a')
  | error {e : ε} {e' : ε'} (h : E e e') : Ends E R (.error e) (.error e')

theorem Ends.of_ok {a : α} (h : Ends E R (.ok a) x') : ∃ a', x' = .ok a' ∧ R a a' := by
  cases h with
  | ok h => exact ⟨_, rfl, h⟩

theorem Ends.to_ok {a' : α'} (h : Ends E R x (.ok a')) : ∃ a, x = .ok a ∧ R a a' := by
  cases h with
  | ok h => exact ⟨_, rfl, h⟩

theorem Ends.of_error {e : ε} (h : Ends E R (.error e) x') : ∃ e', x' = .error e' ∧ E e e' := by
  cases h with
  | error h => exact ⟨_, rfl, h⟩

theorem Ends.imp {S : α → α' → Prop} (h : Ends E R x x') (hS : ∀ a a', x = .ok a → R a a' → S a a') :
    Ends E S x x' := by
  cases h with
  | ok h => exact .ok (hS _ _ rfl h)
  | error h => exact .error h

theorem Ends.bind {f : α → Except ε β} {f' : α' → Except ε' β'} {S : β → β' → Prop} (h : Ends E R x x')
    (hf : ∀ a a', R a a' → Ends E S (f a) (f' a')) : Ends E S (x >>= f) (x' >>= f') := by
  cases h with
  | ok h => exact hf _ _ h
  | error h => exact .error h

theorem Ends.map_left {g : α → β} {S : β → α' → Prop} (h : Ends E R x x') (hg : ∀ a a', R a a' → S (g a) a') :
    Ends E S (x >>= fun a => pure (g a)) x' := by
  cases h with
  | ok h => exact .ok (hg _ _ h)
  | error h => exact .error h

end Ends

/-! ### Computations that may not have ended -/

section Rel
variable {R : α → α' → Prop} {S : β → β' → Prop} {x : Option α} {x' : Option α'} {a : α}

theorem rel_map {g : α → β} {g' : α' → β'} (h : Option.Rel R x x') (hg : ∀ a a', R a a' → S (g a) (g' a')) :
    Option.Rel S (x.map g) (x'.map g') := by
  cases h with
  | none => exact .none
  | some h => exact .some (hg _ _ h)

theorem of_some (h : Option.Rel R x x') (hx : x = some a) : ∃ a', x' = some a' ∧ R a a' := by
  subst hx
  cases h with
  | some h => exact ⟨_, rfl, h⟩

end Rel

end Twofold
