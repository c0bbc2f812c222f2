import Mathlib

/-!
# Binary heaps in an array

A heap is an array with a size; the element of least key is at the root. Positions at and beyond
the size hold leftovers and do not count. Insertion moves a hole from the end towards the root,
deletion puts the last element at the root and lets it sink. Both loops are bounded by the size,
which the fuel argument makes explicit.
-/

/-- An array-based heap; the elements are `arr 0, …, arr (size - 1)`. -/
structure BinHeap (α : Type*) where
  arr : ℕ → α
  size : ℕ

namespace BinHeap

variable {α κ : Type*} [LinearOrder κ] (key : α → κ)

def lchild (i : ℕ) : ℕ := 2 * i + 1
def rchild (i : ℕ) : ℕ := 2 * i + 2
def parent (i : ℕ) : ℕ := (i - 1) / 2

/-- The elements of a heap, with multiplicity. -/
def elems (h : BinHeap α) : Multiset α := (Multiset.range h.size).map h.arr

/-- Move the hole at `i` towards the root until `a` fits in it. -/
def siftUp (a : α) : ℕ → ℕ → (ℕ → α) → ℕ → α
  | 0, i, arr => Function.update arr i a
  | fuel + 1, i, arr =>
    if i ≠ 0 ∧ key a < key (arr (parent i)) then
      siftUp a fuel (parent i) (Function.update arr i (arr (parent i)))
    else Function.update arr i a

def insert (h : BinHeap α) (a : α) : BinHeap α :=
  ⟨siftUp key a h.size h.size h.arr, h.size + 1⟩

/-- The positions that the loop writes, in order. -/
def written (a : α) : ℕ → ℕ → (ℕ → α) → List ℕ
  | 0, i, _ => [i]
  | fuel + 1, i, arr =>
    if i ≠ 0 ∧ key a < key (arr (parent i)) then
      i :: written a fuel (parent i) (Function.update arr i (arr (parent i)))
    else [i]

def swap (arr : ℕ → α) (i j : ℕ) : ℕ → α :=
  Function.update (Function.update arr i (arr j)) j (arr i)

/-- The position among `i` and its children that holds the least key. -/
def smallest (n i : ℕ) (arr : ℕ → α) : ℕ :=
  let m := if lchild i < n ∧ key (arr (lchild i)) < key (arr i) then lchild i else i
  if rchild i < n ∧ key (arr (rchild i)) < key (arr m) then rchild i else m

/-- Let the element at `i` sink to its place. -/
def heapify (n : ℕ) : ℕ → ℕ → (ℕ → α) → ℕ → α
  | 0, _, arr => arr
  | fuel + 1, i, arr =>
    if smallest key n i arr ≠ i then
      heapify n fuel (smallest key n i arr) (swap arr i (smallest key n i arr))
    else arr

/-- The root, and the heap without it. -/
def deleteMin (h : BinHeap α) : α × BinHeap α :=
  let n := h.size - 1
  (h.arr 0, ⟨heapify key n n 0 (Function.update h.arr 0 (h.arr n)), n⟩)

/-! ### The elements -/

lemma map_range_swap (arr : ℕ → α) {i j n : ℕ} (hi : i < n) (hj : j < n) :
    (Multiset.range n).map (swap arr i j) = (Multiset.range n).map arr := by
  have hs : swap arr i j = arr ∘ Equiv.swap i j := by
    funext x
    simp only [swap, Function.update_apply, Function.comp_apply, Equiv.swap_apply_def]
    split_ifs <;> simp_all
  have hr : (Multiset.range n).map (Equiv.swap i j) = Multiset.range n := by
    rw [Multiset.Nodup.ext
      ((Multiset.nodup_range n).map (Equiv.swap i j).injective) (Multiset.nodup_range n)]
    intro x
    simp only [Multiset.mem_map, Multiset.mem_range]
    constructor
    · rintro ⟨y, hy, rfl⟩
      simp only [Equiv.swap_apply_def]
      split_ifs <;> assumption
    · intro hx
      refine ⟨Equiv.swap i j x, ?_, Equiv.swap_apply_self i j x⟩
      simp only [Equiv.swap_apply_def]
      split_ifs <;> assumption
  rw [hs, ← Multiset.map_map, hr]

lemma parent_lt {i : ℕ} (hi : i ≠ 0) : parent i < i := by
  unfold parent
  omega

/-- The first position that is written is the hole. -/
lemma self_mem_written (a : α) (fuel i : ℕ) (arr : ℕ → α) : i ∈ written key a fuel i arr := by
  cases fuel with
  | zero => simp [written]
  | succ fuel =>
    simp only [written]
    split_ifs <;> simp

/-- The loop only goes towards the root. -/
lemma le_of_mem_written {a : α} {fuel i j : ℕ} {arr : ℕ → α} (hj : j ∈ written key a fuel i arr) :
    j ≤ i := by
  induction fuel generalizing i arr with
  | zero => exact (List.mem_singleton.mp hj).le
  | succ fuel ih =>
    simp only [written] at hj
    split_ifs at hj with hi
    · rcases List.mem_cons.mp hj with rfl | hj
      · exact le_refl j
      · exact (ih hj).trans (parent_lt hi.1).le
    · exact (List.mem_singleton.mp hj).le

/-- Nothing else is written. -/
lemma siftUp_of_not_mem_written {a : α} {fuel i j : ℕ} {arr : ℕ → α}
    (hj : j ∉ written key a fuel i arr) : siftUp key a fuel i arr j = arr j := by
  induction fuel generalizing i arr with
  | zero => exact Function.update_of_ne (by simpa [written] using hj) _ _
  | succ fuel ih =>
    simp only [written] at hj
    simp only [siftUp]
    split_ifs at hj ⊢ with hi
    · rw [List.mem_cons, not_or] at hj
      rw [ih hj.2, Function.update_of_ne hj.1]
    · exact Function.update_of_ne (by simpa using hj) _ _

/-- An insertion stays inside an array if and only if there is room for one more element. -/
lemma written_lt_iff (h : BinHeap α) (a : α) {n : ℕ} :
    (∀ j ∈ written key a h.size h.size h.arr, j < n) ↔ h.size < n := by
  constructor
  · intro hall
    exact hall _ (self_mem_written key a _ _ _)
  · intro hlt j hj
    exact (le_of_mem_written key hj).trans_lt hlt

/-- The children that count are in the heap. -/
lemma smallest_congr {i n m : ℕ} {arr arr' : ℕ → α} (h : ∀ j < m, arr j = arr' j) (hn : n ≤ m) :
    smallest key n i arr = smallest key n i arr' := by
  have hchild : ∀ {c x}, (c < n → x < n) →
      ((c < n ∧ key (arr c) < key (arr x)) ↔ (c < n ∧ key (arr' c) < key (arr' x))) := by
    intro c x hx
    refine and_congr_right fun hc => ?_
    rw [h c (hc.trans_le hn), h x ((hx hc).trans_le hn)]
  have hl := hchild (c := lchild i) (x := i) fun hc => by unfold lchild at hc; omega
  simp only [smallest]
  rw [if_congr hl rfl rfl]
  refine if_congr (hchild fun hc => ?_) rfl rfl
  unfold rchild at hc
  split_ifs with hif
  · exact hif.1
  · omega

/-- With the hole filled, an iteration of the insertion loop is a swap. -/
lemma map_range_siftUp (a : α) {n : ℕ} :
    ∀ (fuel i : ℕ) (arr : ℕ → α), i < n →
      (Multiset.range n).map (siftUp key a fuel i arr)
        = (Multiset.range n).map (Function.update arr i a)
  | 0, _, _, _ => rfl
  | fuel + 1, i, arr, hi => by
    simp only [siftUp]
    split_ifs with h
    · have hp := parent_lt h.1
      rw [map_range_siftUp a fuel (parent i) _ (hp.trans hi)]
      have hswap : Function.update (Function.update arr i (arr (parent i))) (parent i) a
          = swap (Function.update arr i a) i (parent i) := by
        simp [swap, hp.ne]
      rw [hswap, map_range_swap _ hi (hp.trans hi)]
    · rfl

lemma elems_insert (h : BinHeap α) (a : α) : (h.insert key a).elems = a ::ₘ h.elems := by
  simp only [elems, insert]
  rw [map_range_siftUp key a h.size h.size h.arr (Nat.lt_succ_self _), Multiset.range_succ,
    Multiset.map_cons, Function.update_self]
  congr 1
  refine Multiset.map_congr rfl fun x hx => ?_
  exact Function.update_of_ne (Multiset.mem_range.mp hx).ne _ _

lemma smallest_lt {n i : ℕ} (arr : ℕ → α) (hi : i < n) : smallest key n i arr < n := by
  simp only [smallest]
  split_ifs <;> omega

lemma map_range_heapify {n : ℕ} :
    ∀ (fuel i : ℕ) (arr : ℕ → α), i < n →
      (Multiset.range n).map (heapify key n fuel i arr) = (Multiset.range n).map arr
  | 0, _, _, _ => rfl
  | fuel + 1, i, arr, hi => by
    have hj := smallest_lt key arr hi
    simp only [heapify]
    split_ifs
    · rw [map_range_heapify fuel _ _ hj, map_range_swap arr hi hj]
    · rfl

/-- Deletion takes out exactly the element it returns. -/
lemma elems_deleteMin (h : BinHeap α) (hs : h.size ≠ 0) :
    (h.deleteMin key).1 ::ₘ (h.deleteMin key).2.elems = h.elems := by
  obtain ⟨arr, n⟩ := h
  obtain ⟨m, rfl⟩ : ∃ m, n = m + 1 := ⟨n - 1, by simp at hs; omega⟩
  simp only [deleteMin, elems, Nat.add_sub_cancel]
  rcases Nat.eq_zero_or_pos m with rfl | hm
  · simp
  · rw [map_range_heapify key m 0 _ hm]
    -- the root and the last element change places
    have hlast : (Multiset.range (m + 1)).map (swap arr 0 m) = (Multiset.range (m + 1)).map arr :=
      map_range_swap arr (by omega) (by omega)
    rw [← hlast, Multiset.range_succ, Multiset.map_cons]
    congr 1
    · simp [swap]
    · refine Multiset.map_congr rfl fun x hx => ?_
      simp [swap, Function.update_of_ne (Multiset.mem_range.mp hx).ne]

@[simp] lemma size_insert (h : BinHeap α) (a : α) : (h.insert key a).size = h.size + 1 := rfl

@[simp] lemma size_deleteMin (h : BinHeap α) : (h.deleteMin key).2.size = h.size - 1 := rfl

/-! ### The order -/

/-- No element has a smaller key than its parent. -/
def Ordered (h : BinHeap α) : Prop :=
  ∀ i, i ≠ 0 → i < h.size → key (h.arr (parent i)) ≤ key (h.arr i)

variable {key} {arr : ℕ → α} {a : α} {i n : ℕ}

/-- The root has the least key. -/
lemma Ordered.root_le {h : BinHeap α} (ho : Ordered key h) {i : ℕ} (hi : i < h.size) :
    key (h.arr 0) ≤ key (h.arr i) := by
  induction i using Nat.strongRecOn with
  | ind i ih =>
    by_cases h0 : i = 0
    · rw [h0]
    · have hp := parent_lt h0
      exact (ih (parent i) hp (hp.trans hi)).trans (ho i h0 hi)

/-- The order with a hole at `i`: pairs that do not touch the hole are in order, the children of
the hole come after its parent and after `a`. -/
structure Rising (key : α → κ) (n i : ℕ) (arr : ℕ → α) (a : α) : Prop where
  off {j : ℕ} : j ≠ 0 → j < n → j ≠ i → parent j ≠ i → key (arr (parent j)) ≤ key (arr j)
  across {j : ℕ} : i ≠ 0 → j ≠ 0 → j < n → parent j = i → key (arr (parent i)) ≤ key (arr j)
  below {j : ℕ} : j ≠ 0 → j < n → parent j = i → key a ≤ key (arr j)

/-- The parent of the hole moves into it. -/
lemma Rising.move (h : Rising key n i arr a) (hi : i ≠ 0) (hn : i < n)
    (ha : key a < key (arr (parent i))) :
    Rising key n (parent i) (Function.update arr i (arr (parent i))) a := by
  have hp := parent_lt hi
  have hpp : parent (parent i) ≠ i := by
    unfold parent at hp ⊢
    omega
  constructor
  · intro j hj hjn hjp hpj
    have hji : j ≠ i := by
      rintro rfl
      exact hpj rfl
    rw [Function.update_of_ne hji]
    by_cases hpi : parent j = i
    · rw [hpi, Function.update_self]
      exact h.across hi hj hjn hpi
    · rw [Function.update_of_ne hpi]
      exact h.off hj hjn hji hpi
  · intro j hp0 hj hjn hpj
    have hup : key (arr (parent (parent i))) ≤ key (arr (parent i)) :=
      h.off hp0 (hp.trans hn) hp.ne hpp
    rw [Function.update_of_ne hpp]
    by_cases hji : j = i
    · rwa [hji, Function.update_self]
    · rw [Function.update_of_ne hji]
      apply hup.trans
      rw [← hpj]
      exact h.off hj hjn hji (hpj ▸ hp.ne)
  · intro j hj hjn hpj
    by_cases hji : j = i
    · rw [hji, Function.update_self]
      exact ha.le
    · rw [Function.update_of_ne hji]
      apply ha.le.trans
      rw [← hpj]
      exact h.off hj hjn hji (hpj ▸ hp.ne)

/-- The hole is filled. -/
lemma Rising.fill (h : Rising key n i arr a) (hstop : i ≠ 0 → key (arr (parent i)) ≤ key a) :
    Ordered key ⟨Function.update arr i a, n⟩ := by
  intro j hj hjn
  change key (Function.update arr i a (parent j)) ≤ key (Function.update arr i a j)
  by_cases hji : j = i
  · subst hji
    rw [Function.update_self, Function.update_of_ne (parent_lt hj).ne]
    exact hstop hj
  · rw [Function.update_of_ne hji]
    by_cases hpi : parent j = i
    · rw [hpi, Function.update_self]
      exact h.below hj hjn hpi
    · rw [Function.update_of_ne hpi]
      exact h.off hj hjn hji hpi

lemma Rising.siftUp {fuel : ℕ} (h : Rising key n i arr a) (hn : i < n) (hfuel : i ≤ fuel) :
    Ordered key ⟨siftUp key a fuel i arr, n⟩ := by
  induction fuel generalizing i arr with
  | zero =>
    apply h.fill
    intro hi
    omega
  | succ fuel ih =>
    simp only [BinHeap.siftUp]
    split_ifs with hif
    · have hp := parent_lt hif.1
      apply ih (h.move hif.1 hn hif.2) (hp.trans hn)
      omega
    · apply h.fill
      intro hi
      exact not_lt.mp fun hlt => hif ⟨hi, hlt⟩

lemma Ordered.insert {h : BinHeap α} (ho : Ordered key h) (a : α) :
    Ordered key (h.insert key a) := by
  apply Rising.siftUp _ (Nat.lt_succ_self _) (le_refl _)
  have hleaf : ∀ j, j < h.size + 1 → parent j ≠ h.size ∨ j = 0 := by
    intro j hj
    unfold parent
    omega
  constructor
  · intro j hj hjn hji _
    exact ho j hj (by omega)
  · intro j _ hj hjn hpj
    rcases hleaf j hjn with h' | h'
    · exact absurd hpj h'
    · exact absurd h' hj
  · intro j hj hjn hpj
    rcases hleaf j hjn with h' | h'
    · exact absurd hpj h'
    · exact absurd h' hj

/-- The order of a heap whose element at `i` may have to sink: the other pairs are in order, and
the children of `i` come after its parent. -/
structure Sinking (key : α → κ) (n i : ℕ) (arr : ℕ → α) : Prop where
  off {j : ℕ} : j ≠ 0 → j < n → parent j ≠ i → key (arr (parent j)) ≤ key (arr j)
  across {j : ℕ} : i ≠ 0 → j ≠ 0 → j < n → parent j = i → key (arr (parent i)) ≤ key (arr j)

lemma parent_eq_iff {j : ℕ} (hj : j ≠ 0) : parent j = i ↔ j = lchild i ∨ j = rchild i := by
  unfold parent lchild rchild
  omega

/-- `smallest` is the element itself or one of its children. -/
lemma smallest_cases (arr : ℕ → α) (hne : smallest key n i arr ≠ i) :
    smallest key n i arr ≠ 0 ∧ smallest key n i arr < n ∧ parent (smallest key n i arr) = i := by
  have hl : parent (lchild i) = i := (parent_eq_iff (by simp [lchild])).mpr (Or.inl rfl)
  have hr : parent (rchild i) = i := (parent_eq_iff (by simp [rchild])).mpr (Or.inr rfl)
  simp only [smallest] at hne ⊢
  split_ifs at hne ⊢ with h₁ h₂ h₂
  · exact ⟨by simp [rchild], h₂.1, hr⟩
  · exact ⟨by simp [lchild], h₁.1, hl⟩
  · exact ⟨by simp [rchild], h₂.1, hr⟩
  · exact absurd rfl hne

/-- A child that is smaller is further from the root, and in the heap. -/
lemma smallest_bounds (arr : ℕ → α) (hne : smallest key n i arr ≠ i) :
    i < smallest key n i arr ∧ smallest key n i arr < n := by
  obtain ⟨hj0, hjn, hpj⟩ := smallest_cases arr hne
  have hlt := parent_lt hj0
  rw [hpj] at hlt
  exact ⟨hlt, hjn⟩

lemma smallest_le_self (key : α → κ) (n i : ℕ) (arr : ℕ → α) :
    key (arr (smallest key n i arr)) ≤ key (arr i) := by
  simp only [smallest]
  split_ifs with h₁ h₂ h₂
  · exact h₂.2.le.trans h₁.2.le
  · exact h₁.2.le
  · exact h₂.2.le
  · exact le_refl _

/-- `smallest` comes before both children. -/
lemma smallest_le_child (key : α → κ) (arr : ℕ → α) {j : ℕ} (hj : j ≠ 0) (hjn : j < n)
    (hpj : parent j = i) :
    key (arr (smallest key n i arr)) ≤ key (arr j) := by
  rcases (parent_eq_iff hj).mp hpj with rfl | rfl
  · simp only [smallest]
    split_ifs with h₁ h₂ h₂
    · exact h₂.2.le
    · exact le_refl _
    · exact h₂.2.le.trans (not_lt.mp fun hlt => h₁ ⟨hjn, hlt⟩)
    · exact not_lt.mp fun hlt => h₁ ⟨hjn, hlt⟩
  · simp only [smallest]
    split_ifs with h₁ h₂ h₂
    · exact le_refl _
    · exact not_lt.mp fun hlt => h₂ ⟨hjn, hlt⟩
    · exact le_refl _
    · exact not_lt.mp fun hlt => h₂ ⟨hjn, hlt⟩

lemma swap_of_ne {k m : ℕ} (hki : k ≠ i) (hkm : k ≠ m) : swap arr i m k = arr k := by
  simp [swap, hki, hkm]

/-- The element changes places with a smaller child. -/
lemma Sinking.sink (h : Sinking key n i arr) (hne : smallest key n i arr ≠ i) :
    Sinking key n (smallest key n i arr) (swap arr i (smallest key n i arr)) := by
  obtain ⟨hm0, hmn, hpm⟩ := smallest_cases arr hne
  have hself := smallest_le_self key n i arr
  have hchild : ∀ {j}, j ≠ 0 → j < n → parent j = i →
      key (arr (smallest key n i arr)) ≤ key (arr j) :=
    smallest_le_child key arr
  generalize smallest key n i arr = m at *
  have him : i < m := hpm ▸ parent_lt hm0
  have hatm : swap arr i m m = arr i := by simp [swap]
  have hati : swap arr i m i = arr m := by simp [swap, him.ne]
  constructor
  · intro j hj hjn hpj
    by_cases hji : j = i
    · subst hji
      -- the smaller child comes after the parent of `i`
      have hp := parent_lt hj
      rw [hati, swap_of_ne hp.ne (hp.trans him).ne]
      exact h.across hj hm0 hmn hpm
    · by_cases hjm : j = m
      · rw [hjm, hpm, hati, hatm]
        exact hself
      · rw [swap_of_ne hji hjm]
        by_cases hpi : parent j = i
        · rw [hpi, hati]
          exact hchild hj hjn hpi
        · rw [swap_of_ne hpi hpj]
          exact h.off hj hjn hpi
  · intro j _ hj hjn hpj
    have hmj : m < j := hpj ▸ parent_lt hj
    rw [hpm, hati, swap_of_ne (him.trans hmj).ne' hmj.ne']
    have := h.off hj hjn (hpj ▸ him.ne')
    rwa [hpj] at this

lemma Sinking.heapify {fuel : ℕ} (h : Sinking key n i arr) (hfuel : n ≤ i + fuel) :
    Ordered key ⟨heapify key n fuel i arr, n⟩ := by
  induction fuel generalizing i arr with
  | zero =>
    -- the element is past the end, so no pair has it as parent
    intro j hj hjn
    have := parent_lt hj
    exact h.off hj hjn (by change j < n at hjn; omega)
  | succ fuel ih =>
    simp only [BinHeap.heapify]
    split_ifs with hne
    · have hm := smallest_cases arr hne
      have hlt := parent_lt hm.1
      rw [hm.2.2] at hlt
      apply ih (h.sink hne)
      omega
    · intro j hj hjn
      by_cases hpi : parent j = i
      · have := smallest_le_child key arr hj hjn hpi
        rw [not_not.mp hne] at this
        rwa [← hpi] at this
      · exact h.off hj hjn hpi

lemma Ordered.deleteMin {h : BinHeap α} (ho : Ordered key h) :
    Ordered key (h.deleteMin key).2 := by
  apply Sinking.heapify _ (Nat.zero_add _).ge
  constructor
  · intro j hj hjn hpj
    rw [Function.update_of_ne hj, Function.update_of_ne hpj]
    exact ho j hj (by omega)
  · intro j h0
    exact absurd rfl h0

/-- Deletion returns an element of least key. -/
lemma Ordered.deleteMin_le {h : BinHeap α} (ho : Ordered key h) {b : α} (hb : b ∈ h.elems) :
    key (h.deleteMin key).1 ≤ key b := by
  obtain ⟨i, hi, rfl⟩ := Multiset.mem_map.mp hb
  exact ho.root_le (Multiset.mem_range.mp hi)

end BinHeap
