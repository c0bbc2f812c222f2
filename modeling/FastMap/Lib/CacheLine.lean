import Mathlib.Data.Option.Basic

/-!
# A line of a write-back cache

One key of a cache over a slower store: the value that is cached, with its dirty mark, and the
value behind it. What a reader sees is the cached value if there is one. A cache may fill, drop,
clean and mark its lines at any time without a reader noticing, as long as a line that is not
dirty agrees with the store.
-/

structure CacheLine (α : Type*) where
  cached : Option (α × Bool)
  back : α

namespace CacheLine

variable {α : Type*}

/-- The value that a reader sees. -/
def read (l : CacheLine α) : α :=
  match l.cached with
  | some (c, _) => c
  | none => l.back

/-- A line that is not dirty agrees with the store. -/
def Coherent (l : CacheLine α) : Prop := ∀ c, l.cached = some (c, false) → l.back = c

/-- What a cache may do with a line on its own. -/
inductive Silent : CacheLine α → CacheLine α → Prop
  | refl (l : CacheLine α) : Silent l l
  | fill (b : α) : Silent ⟨none, b⟩ ⟨some (b, false), b⟩
  | drop (c b : α) : Silent ⟨some (c, false), b⟩ ⟨none, b⟩
  | clean (c b : α) : Silent ⟨some (c, true), b⟩ ⟨some (c, false), c⟩
  | mark (c : α) (d : Bool) (b : α) : Silent ⟨some (c, d), b⟩ ⟨some (c, true), b⟩

variable {l l' : CacheLine α}

lemma Silent.coherent (h : Silent l l') (hl : l.Coherent) : l'.Coherent := by
  cases h with
  | refl => exact hl
  | fill b =>
    intro c hc
    simpa using hc
  | drop c b =>
    intro c hc
    exact absurd hc (by simp)
  | clean c b =>
    intro c hc
    simpa using hc
  | mark c d b =>
    intro c hc
    simp at hc

lemma Silent.read_eq (h : Silent l l') (hl : l.Coherent) : l'.read = l.read := by
  cases h with
  | refl => rfl
  | fill b => rfl
  | drop c b => exact hl c rfl
  | clean c b => rfl
  | mark c d b => rfl

/-- The store has what a reader sees of a line that is not dirty. -/
lemma Coherent.back_eq (hl : l.Coherent) (h : ∀ c, l.cached ≠ some (c, true)) :
    l.back = l.read := by
  cases hc : l.cached with
  | none => simp only [read, hc]
  | some x =>
    obtain ⟨c, d⟩ := x
    cases d with
    | true => exact absurd hc (h c)
    | false =>
      rw [hl c hc]
      simp only [read, hc]

/-- A value written into a dirty line. -/
def write (l : CacheLine α) (f : α → α) : CacheLine α :=
  { l with cached := l.cached.map fun x => (f x.1, x.2) }

lemma coherent_write {c : α} (h : l.cached = some (c, true)) (f : α → α) :
    (l.write f).Coherent := by
  intro c' hc
  simp [write, h] at hc

lemma read_write {x : α × Bool} (h : l.cached = some x) (f : α → α) :
    (l.write f).read = f l.read := by
  simp [write, read, h]

end CacheLine
