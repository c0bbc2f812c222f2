import Mathlib

/-!
# Locks and their holders

Resources with a lock bit each, and threads that hold some of them. A thread may take a resource
whose bit is clear, setting it, and give back one that it holds, clearing the bit. If nothing else
touches the bits, no resource ever has two holders.
-/

/-- Every held resource is locked and has one holder, who holds it once. -/
structure LockTable {ρ τ : Type*} (locked : ρ → Bool) (held : τ → Multiset ρ) : Prop where
  nodup (t : τ) : (held t).Nodup
  locked_of_mem {t : τ} {r : ρ} : r ∈ held t → locked r = true
  exclusive {t t' : τ} {r : ρ} : r ∈ held t → r ∈ held t' → t = t'

/-- What a step of a thread may do to the bits and to what the thread holds. -/
inductive LockStep {ρ : Type*} [DecidableEq ρ] (locked : ρ → Bool) (h : Multiset ρ) :
    (ρ → Bool) → Multiset ρ → Prop
  | keep : LockStep locked h locked h
  | take {r : ρ} : locked r = false → LockStep locked h (Function.update locked r true) (r ::ₘ h)
  | give {r : ρ} {h' : Multiset ρ} : h = r ::ₘ h' →
      LockStep locked h (Function.update locked r false) h'

namespace LockTable

variable {ρ τ : Type*} [DecidableEq ρ] [DecidableEq τ] {locked locked' : ρ → Bool}
  {held : τ → Multiset ρ} {t : τ} {h' : Multiset ρ}

omit [DecidableEq ρ] [DecidableEq τ] in
lemma init (locked : ρ → Bool) : LockTable locked fun _ : τ => (0 : Multiset ρ) :=
  ⟨fun _ => Multiset.nodup_zero, fun h => absurd h (Multiset.notMem_zero _),
    fun h => absurd h (Multiset.notMem_zero _)⟩

lemma take (h : LockTable locked held) {r : ρ} (hr : locked r = false) (t : τ) :
    LockTable (Function.update locked r true) (Function.update held t (r ::ₘ held t)) := by
  have hfree : ∀ u, r ∉ held u := fun u hu =>
    Bool.false_ne_true (hr.symm.trans (h.locked_of_mem hu))
  have hcase : ∀ {u q}, q ∈ Function.update held t (r ::ₘ held t) u →
      (u = t ∧ q = r) ∨ q ∈ held u := by
    intro u q hq
    by_cases hu : u = t
    · subst hu
      rw [Function.update_self, Multiset.mem_cons] at hq
      exact hq.imp_left fun h => ⟨rfl, h⟩
    · rw [Function.update_of_ne hu] at hq
      exact Or.inr hq
  constructor
  · intro u
    by_cases hu : u = t
    · subst hu
      rw [Function.update_self]
      exact Multiset.nodup_cons.mpr ⟨hfree u, h.nodup u⟩
    · rw [Function.update_of_ne hu]
      exact h.nodup u
  · intro u q hq
    rcases hcase hq with ⟨-, rfl⟩ | hold
    · exact Function.update_self _ _ _
    · have hne : q ≠ r := by
        rintro rfl
        exact hfree u hold
      rw [Function.update_of_ne hne]
      exact h.locked_of_mem hold
  · intro u u' q hq hq'
    rcases hcase hq with ⟨rfl, rfl⟩ | hold <;> rcases hcase hq' with ⟨rfl, hqr⟩ | hold'
    · rfl
    · exact absurd hold' (hfree u')
    · subst hqr
      exact absurd hold (hfree u)
    · exact h.exclusive hold hold'

lemma give (h : LockTable locked held) {r : ρ} (hr : held t = r ::ₘ h') :
    LockTable (Function.update locked r false) (Function.update held t h') := by
  have hnodup := h.nodup t
  rw [hr, Multiset.nodup_cons] at hnodup
  have hmem : r ∈ held t := hr ▸ Multiset.mem_cons_self r h'
  -- nobody holds `r` afterwards
  have hcase : ∀ {u q}, q ∈ Function.update held t h' u → q ∈ held u ∧ q ≠ r := by
    intro u q hq
    by_cases hu : u = t
    · subst hu
      rw [Function.update_self] at hq
      refine ⟨hr ▸ Multiset.mem_cons_of_mem hq, ?_⟩
      rintro rfl
      exact hnodup.1 hq
    · rw [Function.update_of_ne hu] at hq
      refine ⟨hq, ?_⟩
      rintro rfl
      exact hu (h.exclusive hq hmem)
  constructor
  · intro u
    by_cases hu : u = t
    · subst hu
      rw [Function.update_self]
      exact hnodup.2
    · rw [Function.update_of_ne hu]
      exact h.nodup u
  · intro u q hq
    obtain ⟨hq, hne⟩ := hcase hq
    rw [Function.update_of_ne hne]
    exact h.locked_of_mem hq
  · intro u u' q hq hq'
    exact h.exclusive (hcase hq).1 (hcase hq').1

/-- The table survives every step of a thread. -/
lemma step (h : LockTable locked held) (hs : LockStep locked (held t) locked' h') :
    LockTable locked' (Function.update held t h') := by
  cases hs with
  | keep =>
    rw [Function.update_eq_self]
    exact h
  | take hr => exact h.take hr t
  | give hr => exact h.give hr

end LockTable
