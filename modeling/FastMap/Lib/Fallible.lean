import Mathlib

/-!
# Calls that may fail

A sequence of calls has gone through if every one of them has, and what it returns is what the last
one returns.
-/

namespace Except

universe u v

variable {ε : Type u} {α β : Type v} {x : Except ε α} {f : α → Except ε β} {b : β}

lemma bind_eq_ok : (x >>= f) = .ok b ↔ ∃ a, x = .ok a ∧ f a = .ok b := by
  cases x <;> simp [bind, Except.bind]

lemma ok_bind (a : α) (f : α → Except ε β) : (Except.ok a >>= f) = f a := rfl

lemma pure_eq_ok {a : α} : (pure a : Except ε α) = .ok a := rfl

end Except
