import Mathlib

/-!
# Runs of a labelled machine

A machine is a relation between a state, a label and the next state. A run is a finite sequence of
its steps, and is indexed by the labels it took.
-/

lemma Except.toOption_eq_some {ε α : Type*} {x : Except ε α} {a : α} :
    x.toOption = some a ↔ x = .ok a := by
  cases x <;> simp [Except.toOption]

lemma Except.map_eq_ok {ε α β : Type*} {x : Except ε α} {f : α → β} {b : β} :
    x.map f = .ok b ↔ ∃ a, x = .ok a ∧ f a = b := by
  cases x <;> simp [Except.map]

/-- The state after a sequence of labelled steps. -/
inductive Run {σ α : Type*} (step : σ → α → σ → Prop) (s₀ : σ) : List α → σ → Prop
  | nil : Run step s₀ [] s₀
  | snoc {as : List α} {a : α} {s s' : σ} :
      Run step s₀ as s → step s a s' → Run step s₀ (as ++ [a]) s'

namespace Run

variable {σ τ α : Type*} {step step' : σ → α → σ → Prop} {s₀ s s' : σ} {as : List α}

/-- What holds initially and is kept by every step holds at the end of every run. -/
lemma invariant {I : σ → Prop} (hstep : ∀ s a s', I s → step s a s' → I s')
    (h : Run step s₀ as s) (h₀ : I s₀) : I s := by
  induction h with
  | nil => exact h₀
  | snoc _ hs ih => exact hstep _ _ _ ih hs

lemma eq_of_nil (h : Run step s₀ [] s) : s = s₀ := by
  generalize hl : [] = l at h
  cases h with
  | nil => rfl
  | snoc _ _ => simp at hl

/-- The last step of a run. -/
lemma last_step {a : α} (h : Run step s₀ (as ++ [a]) s') : ∃ s, Run step s₀ as s ∧ step s a s' := by
  generalize hl : as ++ [a] = l at h
  cases h with
  | nil => simp at hl
  | snoc hr hs =>
    obtain ⟨rfl, rfl⟩ : as = _ ∧ a = _ := by simpa using hl
    exact ⟨_, hr, hs⟩

/-- A run may be continued by another one. -/
lemma append {bs : List α} (h : Run step s₀ as s) (h' : Run step s bs s') :
    Run step s₀ (as ++ bs) s' := by
  induction h' with
  | nil => simpa using h
  | snoc _ hs ih => simpa using ih.snoc hs

/-- The steps of a run may be replaced one by one. -/
lemma mono_of_mem (hstep : ∀ s a s', a ∈ as → step s a s' → step' s a s')
    (h : Run step s₀ as s) : Run step' s₀ as s := by
  induction h with
  | nil => exact .nil
  | snoc _ hs ih =>
    exact (ih fun s a s' ha => hstep s a s' (List.mem_append_left _ ha)).snoc
      (hstep _ _ _ (by simp) hs)

/-- The same, where the steps may be replaced as long as an invariant holds. -/
lemma mono_invariant {I : σ → Prop} (hstep : ∀ s a s', I s → step s a s' → step' s a s' ∧ I s')
    (h : Run step s₀ as s) (h₀ : I s₀) : Run step' s₀ as s ∧ I s := by
  induction h with
  | nil => exact ⟨.nil, h₀⟩
  | snoc _ hs ih =>
    obtain ⟨hr, hi⟩ := ih
    obtain ⟨hs', hi'⟩ := hstep _ _ _ hi hs
    exact ⟨hr.snoc hs', hi'⟩

/-- When each step is matched by a run of another machine, so is each run. -/
lemma matched {β : Type*} {stepₜ : τ → β → τ → Prop} {R : σ → τ → Prop} {t₀ : τ}
    (hstep : ∀ s a s' t, R s t → step s a s' → ∃ bs t', Run stepₜ t bs t' ∧ R s' t')
    (h : Run step s₀ as s) (h₀ : R s₀ t₀) : ∃ bs t, Run stepₜ t₀ bs t ∧ R s t := by
  induction h with
  | nil => exact ⟨[], t₀, .nil, h₀⟩
  | snoc _ hs ih =>
    obtain ⟨bs, t, ht, hr⟩ := ih
    obtain ⟨bs', t', ht', hr'⟩ := hstep _ _ _ _ hr hs
    exact ⟨bs ++ bs', t', ht.append ht', hr'⟩

/-- The run of a machine that computes its steps. -/
lemma of_foldlM {f : σ → α → Option σ} (hf : ∀ s a s', f s a = some s' → step s a s')
    (h : as.foldlM f s = some s') : Run step s as s' := by
  -- steps are added at the end, so the steps before `as` are generalised
  have hrun : ∀ (as : List α) (t : σ) (done : List α), Run step s done t →
      as.foldlM f t = some s' → Run step s (done ++ as) s' := by
    intro as
    induction as with
    | nil =>
      intro t done hr hs
      obtain rfl : t = s' := by simpa using hs
      simpa using hr
    | cons a as ih =>
      intro t done hr hs
      rw [List.foldlM_cons] at hs
      obtain ⟨u, hu, hs⟩ := Option.bind_eq_some_iff.mp hs
      have := ih u (done ++ [a]) (hr.snoc (hf t a u hu)) hs
      simpa using this
  simpa using hrun as s [] .nil h

/-- When every step acts on an image of the state as a function of its label, a run acts as the
sequence of its labels. -/
lemma simulation {I : σ → Prop} {g : σ → τ} {f : τ → α → τ}
    (hstep : ∀ s a s', I s → step s a s' → I s' ∧ g s' = f (g s) a)
    (h : Run step s₀ as s) (h₀ : I s₀) : I s ∧ g s = as.foldl f (g s₀) := by
  induction h with
  | nil => exact ⟨h₀, rfl⟩
  | snoc _ hs ih =>
    obtain ⟨hi, ha⟩ := ih
    obtain ⟨hi', ha'⟩ := hstep _ _ _ hi hs
    refine ⟨hi', ?_⟩
    rw [List.foldl_append, List.foldl_cons, List.foldl_nil, ← ha, ha']

end Run
