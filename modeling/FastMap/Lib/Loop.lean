import Mathlib.Data.Nat.Notation
import Mathlib.Tactic.Common

/-!
# Loops

A `while` loop with a bound on the number of its passes. The condition and the body may fail. A loop
ends if it gives a result for some bound, and then it gives the same result for every larger one.
-/

namespace Loop

variable {σ : Type*} {cond : σ → Option Bool} {body : σ → Option σ} {s s' : σ} {n fuel fuel' : ℕ}

/-- `while (cond) body`. `none` is a test or a pass that fails, or a loop that has not ended after
`fuel` tests. -/
def run (cond : σ → Option Bool) (body : σ → Option σ) : ℕ → σ → Option σ
  | 0, _ => none
  | fuel + 1, s =>
    match cond s with
    | none => none
    | some false => some s
    | some true =>
      match body s with
      | none => none
      | some s => run cond body fuel s

lemma run_of_false (hc : cond s = some false) : run cond body (fuel + 1) s = some s := by
  rw [run, hc]

lemma run_of_true (hc : cond s = some true) (hb : body s = some s') :
    run cond body (fuel + 1) s = run cond body fuel s' := by
  rw [run, hc, hb]

/-- More passes do not change the result. -/
lemma run_mono (h : run cond body fuel s = some s') (hle : fuel ≤ fuel') :
    run cond body fuel' s = some s' := by
  induction fuel generalizing s fuel' with
  | zero => simp [run] at h
  | succ fuel ih =>
    obtain ⟨fuel', rfl⟩ : ∃ m, fuel' = m + 1 := ⟨fuel' - 1, by omega⟩
    rw [run] at h ⊢
    cases hc : cond s with
    | none => simp [hc] at h
    | some c =>
      cases c with
      | false => simpa [hc] using h
      | true =>
        cases hb : body s with
        | none => simp [hc, hb] at h
        | some s₁ =>
          simp only [hc, hb] at h ⊢
          exact ih h (by omega)

/-- A loop whose `i`-th state is known ends with the last of them. -/
lemma run_eq_of_states {f : ℕ → σ} (hcond : ∀ i < n, cond (f i) = some true)
    (hbody : ∀ i < n, body (f i) = some (f (i + 1))) (hend : cond (f n) = some false)
    (hfuel : n < fuel) : run cond body fuel (f 0) = some (f n) := by
  induction n generalizing f fuel with
  | zero =>
    obtain ⟨fuel, rfl⟩ : ∃ m, fuel = m + 1 := ⟨fuel - 1, by omega⟩
    exact run_of_false hend
  | succ n ih =>
    obtain ⟨fuel, rfl⟩ : ∃ m, fuel = m + 1 := ⟨fuel - 1, by omega⟩
    rw [run_of_true (hcond 0 (by omega)) (hbody 0 (by omega))]
    -- the remaining passes, counted from the second state on
    exact ih (f := fun i => f (i + 1)) (fun i hi => hcond (i + 1) (by omega))
      (fun i hi => hbody (i + 1) (by omega)) hend (by omega)

/-- A loop whose condition holds over and over again does not end. -/
lemma run_eq_none {I : σ → Prop} (hcond : ∀ s, I s → cond s = some true)
    (hbody : ∀ s s', I s → body s = some s' → I s') (h : I s) (fuel : ℕ) :
    run cond body fuel s = none := by
  induction fuel generalizing s with
  | zero => rfl
  | succ fuel ih =>
    rw [run, hcond s h]
    cases hb : body s with
    | none => rfl
    | some s' => exact ih (hbody s s' h hb)

end Loop
