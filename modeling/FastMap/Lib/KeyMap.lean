import Mathlib

/-!
# Finite maps ordered by key

A finite map is kept as its list of entries in strictly increasing order of keys, the order in
which a search tree or a radix tree hands them out. The order is part of the type, so the head
of the list is the entry of least key. An insertion never overwrites: a key that is present
keeps its value.
-/

/-- A finite map from `κ` to `α`, as its entries in increasing key order. -/
structure KeyMap (κ α : Type*) [LinearOrder κ] where
  entries : List (κ × α)
  sorted : entries.Pairwise fun a b => a.1 < b.1

namespace KeyMap

variable {κ α : Type*} [LinearOrder κ]

def empty : KeyMap κ α := ⟨[], .nil⟩

/-- The value stored under a key. -/
def lookup (m : KeyMap κ α) (k : κ) : Option α :=
  (m.entries.find? fun e => e.1 = k).map Prod.snd

/-- The entry of least key. -/
def first? (m : KeyMap κ α) : Option (κ × α) := m.entries.head?

def size (m : KeyMap κ α) : ℕ := m.entries.length

/-- Insertion of an entry at its place; nothing happens when the key is taken. -/
def insertEntry (k : κ) (a : α) : List (κ × α) → List (κ × α)
  | [] => [(k, a)]
  | e :: l =>
    if k < e.1 then (k, a) :: e :: l
    else if e.1 < k then e :: insertEntry k a l
    else e :: l

lemma insertEntry_key {k : κ} {a : α} {l : List (κ × α)} {e : κ × α}
    (h : e ∈ insertEntry k a l) : e = (k, a) ∨ e ∈ l := by
  induction l with
  | nil => simpa [insertEntry] using h
  | cons x l ih =>
    simp only [insertEntry] at h
    split_ifs at h
    · simpa using h
    · rcases List.mem_cons.mp h with rfl | h
      · exact Or.inr (by simp)
      · exact (ih h).imp_right (List.mem_cons_of_mem x)
    · exact Or.inr h

lemma insertEntry_sorted (k : κ) (a : α) {l : List (κ × α)}
    (hl : l.Pairwise fun a b => a.1 < b.1) :
    (insertEntry k a l).Pairwise fun a b => a.1 < b.1 := by
  induction l with
  | nil => simp [insertEntry]
  | cons x l ih =>
    obtain ⟨hx, hl'⟩ := List.pairwise_cons.mp hl
    simp only [insertEntry]
    split_ifs with h₁ h₂
    · refine List.pairwise_cons.mpr ⟨fun e he => ?_, hl⟩
      rcases List.mem_cons.mp he with rfl | he
      · exact h₁
      · exact h₁.trans (hx e he)
    · refine List.pairwise_cons.mpr ⟨fun e he => ?_, ih hl'⟩
      rcases insertEntry_key he with rfl | he
      · exact h₂
      · exact hx e he
    · exact hl

def insertNew (m : KeyMap κ α) (k : κ) (a : α) : KeyMap κ α :=
  ⟨insertEntry k a m.entries, insertEntry_sorted k a m.sorted⟩

def erase (m : KeyMap κ α) (k : κ) : KeyMap κ α :=
  ⟨m.entries.filter fun e => e.1 ≠ k, m.sorted.filter _⟩

/-! ### Lookup -/

@[simp] lemma lookup_empty (k : κ) : (empty : KeyMap κ α).lookup k = none := rfl

@[simp] lemma size_empty : (empty : KeyMap κ α).size = 0 := rfl

/-- Keys are unique, so a lookup finds exactly the entries of the list. -/
lemma lookup_eq_some {m : KeyMap κ α} {k : κ} {a : α} :
    m.lookup k = some a ↔ (k, a) ∈ m.entries := by
  obtain ⟨l, hl⟩ := m
  simp only [lookup]
  induction l with
  | nil => simp
  | cons x l ih =>
    obtain ⟨hx, hl'⟩ := List.pairwise_cons.mp hl
    obtain ⟨k', a'⟩ := x
    by_cases h : k' = k
    · subst h
      have hno : (k', a) ∉ l := fun hm => lt_irrefl _ (hx (k', a) hm)
      simp [hno, eq_comm]
    · simp [h, ih hl', Ne.symm h]

lemma lookup_eq_none {m : KeyMap κ α} {k : κ} :
    m.lookup k = none ↔ ∀ a, (k, a) ∉ m.entries := by
  simp [Option.eq_none_iff_forall_ne_some, lookup_eq_some]

lemma mem_insertEntry {k : κ} {a : α} {l : List (κ × α)}
    (hl : l.Pairwise fun a b => a.1 < b.1) (e : κ × α) :
    e ∈ insertEntry k a l ↔ e ∈ l ∨ (e = (k, a) ∧ ∀ b, (k, b) ∉ l) := by
  induction l with
  | nil => simp [insertEntry]
  | cons x l ih =>
    obtain ⟨hx, hl'⟩ := List.pairwise_cons.mp hl
    simp only [insertEntry]
    split_ifs with h₁ h₂
    · have hno : ∀ b, (k, b) ∉ x :: l := by
        intro b hb
        rcases List.mem_cons.mp hb with rfl | hb
        · exact lt_irrefl _ h₁
        · exact lt_asymm h₁ (hx _ hb)
      simp only [List.mem_cons] at hno ⊢
      tauto
    · have hne : ∀ b, (k, b) ≠ x := fun b hb => by subst hb; exact lt_irrefl _ h₂
      simp only [List.mem_cons, ih hl', hne, false_or]
      tauto
    · have hk : x.1 = k := le_antisymm (not_lt.mp h₁) (not_lt.mp h₂)
      have : ¬ ∀ b, (k, b) ∉ x :: l := fun hb => hb x.2 (by simp [← hk])
      tauto

lemma lookup_insertNew (m : KeyMap κ α) (k : κ) (a : α) (k' : κ) :
    (m.insertNew k a).lookup k' =
      if k' = k then some ((m.lookup k).getD a) else m.lookup k' := by
  split_ifs with h
  · subst h
    cases hm : m.lookup k' with
    | none =>
      exact lookup_eq_some.mpr ((mem_insertEntry m.sorted _).mpr
        (Or.inr ⟨rfl, lookup_eq_none.mp hm⟩))
    | some b =>
      exact lookup_eq_some.mpr ((mem_insertEntry m.sorted _).mpr
        (Or.inl (lookup_eq_some.mp hm)))
  · ext b
    simp only [lookup_eq_some, insertNew, mem_insertEntry m.sorted, Prod.mk.injEq, h, false_and,
      or_false]

@[simp] lemma lookup_erase (m : KeyMap κ α) (k k' : κ) :
    (m.erase k).lookup k' = if k' = k then none else m.lookup k' := by
  split_ifs with h
  · subst h
    simp [lookup_eq_none, erase]
  · ext b
    simp [lookup_eq_some, erase, h]

/-! ### The least entry -/

lemma lookup_of_first? {m : KeyMap κ α} {k : κ} {a : α} (h : m.first? = some (k, a)) :
    m.lookup k = some a :=
  lookup_eq_some.mpr (List.mem_of_mem_head? h)

lemma lookup_of_first?_none {m : KeyMap κ α} (h : m.first? = none) (k : κ) :
    m.lookup k = none := by
  rw [first?, List.head?_eq_none_iff] at h
  simp [lookup_eq_none, h]

lemma first?_le {m : KeyMap κ α} {k k' : κ} {a b : α} (h : m.first? = some (k, a))
    (hb : m.lookup k' = some b) : k ≤ k' := by
  obtain ⟨l, hl⟩ := m
  cases l with
  | nil => simp [first?] at h
  | cons x l =>
    obtain rfl : x = (k, a) := by simpa [first?] using h
    rcases List.mem_cons.mp (lookup_eq_some.mp hb) with he | hm
    · exact le_of_eq (by simpa using (congrArg Prod.fst he).symm)
    · exact le_of_lt ((List.pairwise_cons.mp hl).1 _ hm)

/-! ### Size -/

lemma size_eq_zero {m : KeyMap κ α} : m.size = 0 ↔ m.first? = none := by
  simp [size, first?]

/-- Erasing a key that is present removes exactly one entry. -/
lemma size_erase {m : KeyMap κ α} {k : κ} {a : α} (h : m.lookup k = some a) :
    (m.erase k).size + 1 = m.size := by
  obtain ⟨l, hl⟩ := m
  have hm := lookup_eq_some.mp h
  clear h
  simp only [size, erase] at hm ⊢
  induction l with
  | nil => simp at hm
  | cons x l ih =>
    obtain ⟨hx, hl'⟩ := List.pairwise_cons.mp hl
    rcases List.mem_cons.mp hm with rfl | hm
    · have hall : ∀ e ∈ l, e.1 ≠ k := fun e he => (hx e he).ne'
      simp only [List.filter_cons, ne_eq, not_true_eq_false, decide_false, Bool.false_eq_true,
        if_false, List.length_cons]
      rw [List.filter_eq_self.mpr fun e he => by simpa using hall e he]
    · have hne : x.1 ≠ k := (hx _ hm).ne
      simpa [hne] using ih hl' hm

end KeyMap
