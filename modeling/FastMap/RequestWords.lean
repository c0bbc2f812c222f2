import FastMap.Requests

/-!
# Merged requests on machine words

The merge loop compares page indices as words, so `ULONG_MAX` is followed by `0`. Whatever the
indices are, the requests that it forms stay inside the array of pages, have at most `BIO_MAX_PAGES`
pages, and place every page at the offset that its own index gives.
-/

namespace FastMap

/-- One iteration of the merge loop; `follows` is the comparison of page `i` with its
predecessor. -/
def Merge.stepIf (follows : Prop) [Decidable follows] (m : Merge) (i : ℕ) : Merge :=
  if follows then
    let arr := Function.update m.arr m.base (m.arr m.base + 1)
    let arr := Function.update arr i (arr i - 1)
    ⟨if arr m.base = bioMaxPages then i else m.base, arr⟩
  else ⟨i, m.arr⟩

/-- The merge loop after position `i`; `index` gives `p[i]->page->index`. -/
def mergeWordsUpTo (index : ℕ → BitVec 64) (i : ℕ) : Merge :=
  (List.range' 1 i).foldl (fun m i => m.stepIf (index (i - 1) + 1 = index i) i) ⟨0, fun _ => 1⟩

/-- `merge_arr` after the loop over `len` pages. -/
def mergeArrWords (index : ℕ → BitVec 64) (len : ℕ) : ℕ → ℤ := (mergeWordsUpTo index (len - 1)).arr

variable {index : ℕ → BitVec 64}

lemma mergeWordsUpTo_succ (index : ℕ → BitVec 64) (i : ℕ) :
    mergeWordsUpTo index (i + 1) =
      (mergeWordsUpTo index i).stepIf (index i + 1 = index (i + 1)) (i + 1) := by
  simp only [mergeWordsUpTo, List.range'_concat, List.foldl_append, List.foldl_cons, List.foldl_nil]
  simp only [Nat.one_mul, Nat.add_comm 1 i, Nat.add_sub_cancel]

/-- Indices below `ULONG_MAX` are merged as numbers. -/
lemma mergeArrWords_eq (h : ∀ i, index i ≠ BitVec.allOnes 64) (len : ℕ) :
    mergeArrWords index len = mergeArr (fun i => (index i).toNat) len := by
  have hstep : (fun (m : Merge) i => m.stepIf (index (i - 1) + 1 = index i) i) =
      Merge.step fun i => (index i).toNat := by
    funext m i
    have hlt : (index (i - 1)).toNat + 1 < 2 ^ 64 := by
      have hne : (index (i - 1)).toNat ≠ 2 ^ 64 - 1 := by
        intro heq
        apply h (i - 1)
        apply BitVec.eq_of_toNat_eq
        rw [heq, BitVec.toNat_allOnes]
      have := (index (i - 1)).isLt
      omega
    have hiff : index (i - 1) + 1 = index i ↔ (index (i - 1)).toNat + 1 = (index i).toNat := by
      rw [← BitVec.toNat_inj, BitVec.toNat_add]
      change ((index (i - 1)).toNat + 1) % 2 ^ 64 = _ ↔ _
      rw [Nat.mod_eq_of_lt hlt]
    simp only [Merge.stepIf, Merge.step, hiff]
  rw [mergeArrWords, mergeWordsUpTo, hstep, mergeArr]

/-- What holds after position `i`: requests are runs of consecutive indices that end at `i` at the
latest, and the current one is not full. -/
structure MergedWords (index : ℕ → BitVec 64) (i : ℕ) (m : Merge) : Prop where
  base_le : m.base ≤ i
  base_lt : m.arr m.base < bioMaxPages
  ahead {j : ℕ} : i < j → m.arr j = 1
  nonneg (j : ℕ) : 0 ≤ m.arr j
  le_max (j : ℕ) : m.arr j ≤ bioMaxPages
  within {j : ℕ} : j ≤ i → j + m.arr j ≤ i + 1
  consecutive {j k : ℕ} : (k : ℤ) + 1 < m.arr j → index (j + k) + 1 = index (j + k + 1)
  current {k : ℕ} : m.base ≤ k → k < i → index k + 1 = index (k + 1)

lemma mergedWords_zero (index : ℕ → BitVec 64) : MergedWords index 0 (mergeWordsUpTo index 0) := by
  constructor <;> simp [mergeWordsUpTo, bioMaxPages]

/-- A page that does not follow its predecessor starts a request. -/
lemma MergedWords.step_new {i : ℕ} {m : Merge} (h : MergedWords index i m) :
    MergedWords index (i + 1) ⟨i + 1, m.arr⟩ := by
  have hone : m.arr (i + 1) = 1 := h.ahead (Nat.lt_succ_self i)
  constructor
  · exact le_rfl
  · rw [hone]
    decide
  · intro j hj
    exact h.ahead (Nat.lt_of_succ_lt hj)
  · exact h.nonneg
  · exact h.le_max
  · intro j hj
    rcases Nat.lt_or_eq_of_le hj with hj | rfl
    · have := h.within (Nat.le_of_lt_succ hj)
      push_cast
      omega
    · rw [hone, Nat.cast_succ]
  · exact h.consecutive
  · intro k hk hk'
    exact absurd hk (Nat.not_le_of_lt hk')

/-- A page that follows its predecessor joins the current request. -/
lemma MergedWords.step_join {i : ℕ} {m : Merge} (h : MergedWords index i m)
    (hi : index i + 1 = index (i + 1)) :
    MergedWords index (i + 1) (m.stepIf (index i + 1 = index (i + 1)) (i + 1)) := by
  have hle := h.base_le
  have hone : m.arr (i + 1) = 1 := h.ahead (Nat.lt_succ_self i)
  have hne : m.base ≠ i + 1 := by omega
  have hcurrent : ∀ k, m.base ≤ k → k < i + 1 → index k + 1 = index (k + 1) := by
    intro k hk hk'
    rcases Nat.lt_or_eq_of_le (Nat.le_of_lt_succ hk') with hlt | rfl
    · exact h.current hk hlt
    · exact hi
  set m' := m.stepIf (index i + 1 = index (i + 1)) (i + 1)
  have hm' : m' = ⟨if m.join (i + 1) m.base = bioMaxPages then i + 1 else m.base,
      m.join (i + 1)⟩ := by
    have hlast : Function.update m.arr m.base (m.arr m.base + 1) (i + 1) - 1 = 0 := by
      rw [Function.update_of_ne hne.symm, hone]
      rfl
    refine (if_pos hi).trans ?_
    simp only [hlast]
    rfl
  have hzero : m'.arr (i + 1) = 0 := by
    simp [hm', Merge.join]
  have hbase : m'.arr m.base = m.arr m.base + 1 := by
    simp [hm', Merge.join, hne]
  -- an entry is that of the current request, that of the new page, or one that does not change
  have hentry : ∀ j, (j = m.base ∧ m'.arr j = m.arr m.base + 1) ∨ (j = i + 1 ∧ m'.arr j = 0) ∨
      (j ≠ m.base ∧ j ≠ i + 1 ∧ m'.arr j = m.arr j) := by
    intro j
    by_cases hjb : j = m.base
    · exact Or.inl ⟨hjb, hjb ▸ hbase⟩
    · by_cases hji : j = i + 1
      · exact Or.inr (Or.inl ⟨hji, hji ▸ hzero⟩)
      · exact Or.inr (Or.inr ⟨hjb, hji, by simp [hm', Merge.join, hjb, hji]⟩)
  have hmove : m'.base = if m.arr m.base + 1 = bioMaxPages then i + 1 else m.base := by
    simp [hm', Merge.join, hne]
  have hbound := h.base_lt
  have hwithin := h.within hle
  constructor
  · rw [hmove]
    split_ifs <;> omega
  · rw [hmove]
    split_ifs with hfull
    · rw [hzero]
      decide
    · rw [hbase]
      omega
  · intro j hj
    rcases hentry j with ⟨rfl, -⟩ | ⟨rfl, -⟩ | ⟨-, -, heq⟩
    · omega
    · omega
    · rw [heq]
      exact h.ahead (by omega)
  · intro j
    rcases hentry j with ⟨-, heq⟩ | ⟨-, heq⟩ | ⟨-, -, heq⟩
    · have := h.nonneg m.base
      rw [heq]
      omega
    · rw [heq]
    · rw [heq]
      exact h.nonneg j
  · intro j
    rcases hentry j with ⟨-, heq⟩ | ⟨-, heq⟩ | ⟨-, -, heq⟩
    · rw [heq]
      omega
    · rw [heq]
      decide
    · rw [heq]
      exact h.le_max j
  · intro j hj
    rcases hentry j with ⟨rfl, heq⟩ | ⟨rfl, heq⟩ | ⟨-, hji, heq⟩
    · rw [heq]
      push_cast
      omega
    · rw [heq]
      push_cast
      omega
    · have := h.within (j := j) (by omega)
      rw [heq]
      push_cast
      omega
  · intro j k hk
    rcases hentry j with ⟨rfl, heq⟩ | ⟨-, heq⟩ | ⟨-, -, heq⟩
    · rw [heq] at hk
      apply hcurrent
      · exact Nat.le_add_right _ _
      · omega
    · rw [heq] at hk
      omega
    · rw [heq] at hk
      exact h.consecutive hk
  · intro k hk hk'
    apply hcurrent k _ hk'
    rw [hmove] at hk
    split_ifs at hk <;> omega

lemma mergedWords_mergeWordsUpTo (index : ℕ → BitVec 64) (i : ℕ) :
    MergedWords index i (mergeWordsUpTo index i) := by
  induction i with
  | zero => exact mergedWords_zero index
  | succ i ih =>
    rw [mergeWordsUpTo_succ]
    by_cases hi : index i + 1 = index (i + 1)
    · exact ih.step_join hi
    · simp only [Merge.stepIf, if_neg hi]
      exact ih.step_new

/-- The pages of a request have consecutive indices. -/
lemma MergedWords.index_add {i : ℕ} {m : Merge} (h : MergedWords index i m) {j k : ℕ}
    (hk : (k : ℤ) < m.arr j) : index (j + k) = index j + BitVec.ofNat 64 k := by
  induction k with
  | zero => simp
  | succ k ih =>
    have hstep := h.consecutive (j := j) (k := k) (by push_cast at hk; omega)
    rw [← Nat.add_assoc, ← hstep, ih (by push_cast at hk; omega), BitVec.add_assoc,
      show (1 : BitVec 64) = BitVec.ofNat 64 1 from rfl, ← BitVec.ofNat_add]

/-! ### The requests -/

/-- The request at position `i` of an array of `len` pages: `n` pages are taken from there on. -/
structure WellPlaced (index : ℕ → BitVec 64) (len i : ℕ) (n : ℤ) : Prop where
  within : i + n ≤ len
  index_eq (k : ℕ) : (k : ℤ) < n → index (i + k) = index i + BitVec.ofNat 64 k
  /-- In `write_file_async` page `k` of the request lands `k` pages behind `ki_pos`. -/
  pos_eq (k : ℕ) : (k : ℤ) < n →
    index i <<< 12 + BitVec.ofNat 64 k * 4096#64 = index (i + k) <<< 12
  /-- In `write_bio_async` it lands `k` times eight sectors behind `bi_sector`. -/
  sector_eq (k : ℕ) : (k : ℤ) < n → index i <<< 3 + BitVec.ofNat 64 k * 8#64 = index (i + k) <<< 3

lemma shiftLeft_add (x y : BitVec 64) (n : ℕ) : x <<< n + y <<< n = (x + y) <<< n := by
  simp only [BitVec.shiftLeft_eq_mul_twoPow, BitVec.add_mul]

/-- Every entry of `merge_arr` is the length of a request, which lies inside the array and places
each of its pages at the offset of that page. -/
theorem mergeArrWords_placed (index : ℕ → BitVec 64) (len i : ℕ) (hi : i < len) :
    0 ≤ mergeArrWords index len i ∧ mergeArrWords index len i ≤ bioMaxPages ∧
      (0 < mergeArrWords index len i → WellPlaced index len i (mergeArrWords index len i)) := by
  have h := mergedWords_mergeWordsUpTo index (len - 1)
  refine ⟨h.nonneg i, h.le_max i, ?_⟩
  intro _
  have hindex : ∀ k : ℕ, (k : ℤ) < mergeArrWords index len i →
      index (i + k) = index i + BitVec.ofNat 64 k := fun k hk => h.index_add hk
  constructor
  · have hwithin := h.within (j := i) (by omega)
    unfold mergeArrWords
    omega
  · exact hindex
  · intro k hk
    rw [hindex k hk, ← shiftLeft_add]
    congr 1
    rw [BitVec.shiftLeft_eq_mul_twoPow]
    rfl
  · intro k hk
    rw [hindex k hk, ← shiftLeft_add]
    congr 1
    rw [BitVec.shiftLeft_eq_mul_twoPow]
    rfl

/-- Two pages around the largest index form a request of two. -/
theorem mergeArrWords_placed_wrap :
    mergeArrWords (fun i => BitVec.ofNat 64 i - 1) 2 0 = 2 ∧
      (0 ≤ mergeArrWords (fun i => BitVec.ofNat 64 i - 1) 2 0 ∧
        mergeArrWords (fun i => BitVec.ofNat 64 i - 1) 2 0 ≤ bioMaxPages ∧
        (0 < mergeArrWords (fun i => BitVec.ofNat 64 i - 1) 2 0 →
          WellPlaced (fun i => BitVec.ofNat 64 i - 1) 2 0
            (mergeArrWords (fun i => BitVec.ofNat 64 i - 1) 2 0))) :=
  ⟨by decide, mergeArrWords_placed (fun i => BitVec.ofNat 64 i - 1) 2 0 (by decide)⟩

end FastMap
