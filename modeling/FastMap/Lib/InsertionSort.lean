import FastMap.Lib.BinHeap

/-!
# Insertion sort in an array

An array is a function of the position. The elements are put in place one after the other, each by
exchanges with its neighbour. The comparison `lt` need not be the order `r` in which the elements
end up: it only has to agree with `r` when a later element is compared with an earlier one, which is
how a stable sort orders ties.
-/

namespace InsertionSort

variable {α : Type*} (lt : α → α → Prop) [DecidableRel lt]

/-- The element at a position moves down as long as it is less than the one before it. -/
def sink : ℕ → (ℕ → α) → ℕ → α
  | 0, arr => arr
  | l + 1, arr => if lt (arr (l + 1)) (arr l) then sink l (BinHeap.swap arr l (l + 1)) else arr

/-- The array when the positions up to `k` are in order. -/
def sortUpTo : ℕ → (ℕ → α) → ℕ → α
  | 0, arr => arr
  | k + 1, arr => sink lt (k + 1) (sortUpTo k arr)

variable {lt} {arr : ℕ → α} {i j k l n : ℕ}

/-! ### The elements -/

lemma map_range_sink (arr : ℕ → α) (hl : l < n) :
    (Multiset.range n).map (sink lt l arr) = (Multiset.range n).map arr := by
  induction l generalizing arr with
  | zero => rfl
  | succ l ih =>
    rw [sink]
    split_ifs
    · rw [ih _ (by omega), BinHeap.map_range_swap _ (by omega) hl]
    · rfl

lemma map_range_sortUpTo (arr : ℕ → α) (hk : k < n) :
    (Multiset.range n).map (sortUpTo lt k arr) = (Multiset.range n).map arr := by
  induction k with
  | zero => rfl
  | succ k ih => rw [sortUpTo, map_range_sink _ hk, ih (by omega)]

/-- Sorting the numbers below `n` permutes them. -/
lemma perm_sortUpTo (lt : ℕ → ℕ → Prop) [DecidableRel lt] (n : ℕ) :
    ((List.range n).map (sortUpTo lt (n - 1) id)).Perm (List.range n) := by
  cases n with
  | zero => rfl
  | succ n =>
    have hperm : (Multiset.range (n + 1)).map (sortUpTo lt n id) = Multiset.range (n + 1) := by
      rw [map_range_sortUpTo id (Nat.lt_succ_self n), Multiset.map_id]
    exact Multiset.coe_eq_coe.mp hperm

/-- The positions above the one that sinks are left alone. -/
lemma sink_of_lt (hi : l < i) : sink lt l arr i = arr i := by
  induction l generalizing arr with
  | zero => rfl
  | succ l ih =>
    rw [sink]
    split_ifs
    · rw [ih (by omega), BinHeap.swap_of_ne (by omega) (by omega)]
    · rfl

lemma sortUpTo_of_lt (hi : k < i) : sortUpTo lt k arr i = arr i := by
  induction k with
  | zero => rfl
  | succ k ih => rw [sortUpTo, sink_of_lt hi, ih (by omega)]

/-- What stands at the positions up to `k` came from there. -/
lemma exists_of_sortUpTo (lt : α → α → Prop) [DecidableRel lt] (arr : ℕ → α) (hi : i ≤ k) :
    ∃ i' ≤ k, sortUpTo lt k arr i = arr i' := by
  have hperm : (Multiset.range (k + 1)).map (sortUpTo lt k arr) =
      (Multiset.range (k + 1)).map arr := map_range_sortUpTo arr (Nat.lt_succ_self k)
  have hmem : sortUpTo lt k arr i ∈ (Multiset.range (k + 1)).map arr := by
    rw [← hperm]
    exact Multiset.mem_map_of_mem _ (Multiset.mem_range.mpr (Nat.lt_succ_of_le hi))
  obtain ⟨i', hi', heq⟩ := Multiset.mem_map.mp hmem
  exact ⟨i', Nat.lt_succ_iff.mp (Multiset.mem_range.mp hi'), heq.symm⟩

/-! ### The order -/

variable {r : α → α → Prop}

/-- The comparison of `b` with `a` says in which order they belong. -/
structure Decides (lt r : α → α → Prop) (a b : α) : Prop where
  of_lt : lt b a → r b a
  of_not_lt : ¬ lt b a → r a b

/-- The positions up to `k` are in order, except that the element at `l` may have to move down. -/
structure Sinking (lt r : α → α → Prop) (arr : ℕ → α) (k l : ℕ) : Prop where
  le : l ≤ k
  pairs {i j : ℕ} : i < j → j ≤ k → j ≠ l → r (arr i) (arr j)
  decides {i : ℕ} : i < l → Decides lt r (arr i) (arr l)

omit [DecidableRel lt] in
/-- An exchange moves the element that sinks one position down. -/
lemma Sinking.swap (h : Sinking lt r arr k (l + 1)) (hlt : lt (arr (l + 1)) (arr l)) :
    Sinking lt r (BinHeap.swap arr l (l + 1)) k l := by
  have hself : BinHeap.swap arr l (l + 1) l = arr (l + 1) := by simp [BinHeap.swap]
  have hnext : BinHeap.swap arr l (l + 1) (l + 1) = arr l := by simp [BinHeap.swap]
  have hother : ∀ i, i ≠ l → i ≠ l + 1 → BinHeap.swap arr l (l + 1) i = arr i :=
    fun i h₁ h₂ => BinHeap.swap_of_ne h₁ h₂
  refine ⟨by have := h.le; omega, ?_, ?_⟩
  · intro i j hij hj hjl
    by_cases hj' : j = l + 1
    · -- the element that was passed
      subst hj'
      rw [hnext]
      by_cases hi : i = l
      · subst hi
        rw [hself]
        exact (h.decides (Nat.lt_succ_self _)).of_lt hlt
      · rw [hother i hi (by omega)]
        exact h.pairs (by omega) (by omega) (by omega)
    · rw [hother j hjl hj']
      by_cases hi : i = l
      · subst hi
        rw [hself]
        exact h.pairs (by omega) hj hj'
      · by_cases hi' : i = l + 1
        · subst hi'
          rw [hnext]
          exact h.pairs (by omega) hj hj'
        · rw [hother i hi hi']
          exact h.pairs hij hj hj'
  · intro i hi
    rw [hself, hother i (by omega) (by omega)]
    exact h.decides (by omega)

omit [DecidableRel lt] in
/-- An element that does not sink further is in its place. -/
lemma Sinking.stop [IsTrans α r] (h : Sinking lt r arr k l)
    (hstop : ∀ i, l = i + 1 → ¬ lt (arr l) (arr i)) (hij : i < j) (hj : j ≤ k) :
    r (arr i) (arr j) := by
  by_cases hjl : j = l
  · obtain ⟨m, rfl⟩ : ∃ m, l = m + 1 := ⟨l - 1, by omega⟩
    subst hjl
    -- the element right before it is not greater, and the others are less than that one
    have hm : r (arr m) (arr (m + 1)) := (h.decides (Nat.lt_succ_self m)).of_not_lt (hstop m rfl)
    by_cases him : i = m
    · rwa [him]
    · exact IsTrans.trans _ _ _ (h.pairs (by omega) (by omega) (by omega)) hm
  · exact h.pairs hij hj hjl

lemma Sinking.sink [IsTrans α r] (h : Sinking lt r arr k l) (hij : i < j) (hj : j ≤ k) :
    r (sink lt l arr i) (sink lt l arr j) := by
  induction l generalizing arr with
  | zero => exact h.stop (fun i hi => absurd hi (by omega)) hij hj
  | succ l ih =>
    rw [InsertionSort.sink]
    split_ifs with hlt
    · exact ih (h.swap hlt)
    · refine h.stop ?_ hij hj
      rintro i hi
      obtain rfl : l = i := by omega
      exact hlt

/-- If every comparison of a later element with an earlier one says in which order they belong, the
array ends up in that order. -/
lemma sortUpTo_ordered [IsTrans α r] (hd : ∀ i j, i < j → Decides lt r (arr i) (arr j))
    (hij : i < j) (hj : j ≤ k) : r (sortUpTo lt k arr i) (sortUpTo lt k arr j) := by
  induction k generalizing i j with
  | zero => omega
  | succ k ih =>
    have hsink : Sinking lt r (sortUpTo lt k arr) (k + 1) (k + 1) := by
      refine ⟨le_refl _, ?_, ?_⟩
      · intro i j hij hj hjk
        exact ih hij (by omega)
      · intro i hi
        obtain ⟨i', hi', heq⟩ := exists_of_sortUpTo lt arr (Nat.lt_succ_iff.mp hi)
        rw [heq, sortUpTo_of_lt (Nat.lt_succ_self k)]
        exact hd i' (k + 1) (by omega)
    exact hsink.sink hij hj

end InsertionSort
