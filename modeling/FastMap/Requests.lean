import FastMap.Batches

/-!
# Merged requests

The merge loop of `write_bio_async` and `write_file_async` joins pages of consecutive indices into
requests of at most `BIO_MAX_PAGES` pages. When a request becomes full, the loop makes its last page
the base of the next request. That page is then written twice, and the last page of the run is not
written at all. So the requests cover an array of pages exactly when no more than `BIO_MAX_PAGES`
of them in a row have consecutive indices.
-/

namespace FastMap

variable {index : ℕ → Pgoff}

/-- The number of pages up to position `i` with consecutive indices. -/
def runLen (index : ℕ → Pgoff) : ℕ → ℕ
  | 0 => 1
  | i + 1 => if index i + 1 = index (i + 1) then runLen index i + 1 else 1

/-- The state of the merge loop after position `i`. -/
def mergeUpTo (index : ℕ → Pgoff) (i : ℕ) : Merge :=
  (List.range' 1 i).foldl (Merge.step index) ⟨0, fun _ => 1⟩

lemma mergeUpTo_succ (index : ℕ → Pgoff) (i : ℕ) :
    mergeUpTo index (i + 1) = Merge.step index (mergeUpTo index i) (i + 1) := by
  simp only [mergeUpTo, List.range'_concat, List.foldl_append, List.foldl_cons, List.foldl_nil]
  rw [Nat.one_mul, Nat.add_comm]

/-- Some request contains the page at position `j`. -/
def Merge.Covers (m : Merge) (j : ℕ) : Prop := ∃ r : ℕ, r ≤ j ∧ (j : ℤ) < r + m.arr r

/-- Position `j` ends a run of too many pages, among the positions up to `i`. -/
def Lost (index : ℕ → Pgoff) (i j : ℕ) : Prop :=
  256 < runLen index j ∧ (j = i ∨ index j + 1 ≠ index (j + 1))

/-- What holds after position `i`: requests are runs of consecutive indices, and they cover all
positions but the ends of the long runs. The request at `base` reaches up to `i`, until the first
one of the run is full; from then on it stops before `i`. -/
structure Merged (index : ℕ → Pgoff) (i : ℕ) (m : Merge) : Prop where
  base_le : m.base ≤ i
  ahead {j : ℕ} : i < j → m.arr j = 1
  nonneg (j : ℕ) : 0 ≤ m.arr j
  within {j : ℕ} : j ≤ i → j + m.arr j ≤ i + 1
  consecutive {j k : ℕ} : (k : ℤ) + 1 < m.arr j → index (j + k) + 1 = index (j + k + 1)
  current {k : ℕ} : m.base ≤ k → k < i → index k + 1 = index (k + 1)
  short : runLen index i < 256 → m.base + m.arr m.base = i + 1 ∧ m.arr m.base = runLen index i
  full : runLen index i = 256 → m.base = i ∧ m.arr i = 0
  long : 256 < runLen index i → m.base + m.arr m.base = i ∧ m.arr m.base < 256
  covers {j : ℕ} : j ≤ i → (m.Covers j ↔ ¬ Lost index i j)

lemma merged_zero (index : ℕ → Pgoff) : Merged index 0 (mergeUpTo index 0) where
  base_le := le_rfl
  ahead _ := rfl
  nonneg _ := by simp [mergeUpTo]
  within {j} hj := by simp_all [mergeUpTo]
  consecutive {j k} hk := by simp [mergeUpTo] at hk; omega
  current hk hk' := absurd hk' (Nat.not_lt_zero _)
  short _ := by simp [mergeUpTo, runLen]
  full h := absurd h (by simp [runLen])
  long h := absurd h (by simp [runLen])
  covers {j} hj := by
    obtain rfl : j = 0 := Nat.le_zero.mp hj
    refine iff_of_true ⟨0, le_rfl, by simp [mergeUpTo]⟩ ?_
    simp [Lost, runLen]

/-- A page that does not follow its predecessor starts a request. -/
lemma Merged.step_new {i : ℕ} {m : Merge} (h : Merged index i m)
    (hi : index i + 1 ≠ index (i + 1)) : Merged index (i + 1) ⟨i + 1, m.arr⟩ := by
  have hlen : runLen index (i + 1) = 1 := by simp [runLen, hi]
  have hone : m.arr (i + 1) = 1 := h.ahead (Nat.lt_succ_self i)
  refine ⟨le_rfl, fun {j} hj => h.ahead (Nat.lt_of_succ_lt hj), h.nonneg, fun {j} hj => ?_,
    h.consecutive, fun {k} hk hk' => ?_, fun _ => ?_, fun hf => ?_, fun hl => ?_, fun {j} hj => ?_⟩
  · rcases Nat.lt_or_eq_of_le hj with hj | rfl
    · have := h.within (Nat.le_of_lt_succ hj)
      push_cast
      omega
    · simp only [hone]
      push_cast
      omega
  · have hk : i + 1 ≤ k := hk
    omega
  · rw [hlen]
    exact ⟨by simp only [hone], hone⟩
  · omega
  · omega
  · rcases Nat.lt_or_eq_of_le hj with hj | rfl
    · refine (h.covers (Nat.le_of_lt_succ hj)).trans (not_congr (and_congr_right fun _ => ?_))
      by_cases hji : j = i
      · subst hji
        exact iff_of_true (Or.inl rfl) (Or.inr hi)
      · have hne : j ≠ i + 1 := by omega
        simp only [hji, hne]
    · refine iff_of_true ⟨i + 1, le_rfl, ?_⟩ fun hlost => ?_
      · simp only [hone]
        omega
      · have := hlost.1
        omega

/-- The state after a page that follows its predecessor, before the request is checked for
fullness. -/
def Merge.join (m : Merge) (i : ℕ) : ℕ → ℤ :=
  Function.update (Function.update m.arr m.base (m.arr m.base + 1)) i 0

/-- The entries after a page that follows its predecessor. -/
lemma Merged.join_eq {i : ℕ} {m : Merge} (h : Merged index i m) :
    m.join (i + 1) (i + 1) = 0 ∧ m.join (i + 1) m.base = m.arr m.base + 1 ∧
      ∀ j, j ≠ m.base → j ≠ i + 1 → m.join (i + 1) j = m.arr j := by
  have hne : m.base ≠ i + 1 := by
    have := h.base_le
    omega
  refine ⟨Function.update_self _ _ _, ?_, fun j hj hj' => ?_⟩
  · rw [Merge.join, Function.update_of_ne hne, Function.update_self]
  · rw [Merge.join, Function.update_of_ne hj', Function.update_of_ne hj]

/-- The current request is longer by one: it ends at `i + 1`, or before it when the first request
of the run has been full. -/
lemma Merged.reach {i : ℕ} {m : Merge} (h : Merged index i m) :
    if runLen index i < 256 then m.base + (m.arr m.base + 1) = i + 2
    else m.base + (m.arr m.base + 1) = i + 1 := by
  rcases lt_trichotomy (runLen index i) 256 with hlt | heq | hgt
  · rw [if_pos hlt]
    have := (h.short hlt).1
    omega
  · rw [if_neg (by omega)]
    obtain ⟨hb, ha⟩ := h.full heq
    rw [hb, ha]
    omega
  · rw [if_neg (by omega)]
    have := (h.long hgt).1
    omega

/-- The positions covered after a page that follows its predecessor. -/
lemma Merged.covers_join {i j : ℕ} {m : Merge} (h : Merged index i m)
    (hi : index i + 1 = index (i + 1)) (b : ℕ) (hj : j ≤ i + 1) :
    Merge.Covers ⟨b, m.join (i + 1)⟩ j ↔ ¬ Lost index (i + 1) j := by
  obtain ⟨hzero, hbase, hother⟩ := h.join_eq
  have hreach := h.reach
  have hlen : runLen index (i + 1) = runLen index i + 1 := by simp [runLen, hi]
  -- a request covers what it covered before, and the current one covers one position more
  have hcov : Merge.Covers ⟨b, m.join (i + 1)⟩ j ↔
      m.Covers j ∧ j ≤ i ∨ (j : ℤ) = m.base + m.arr m.base := by
    constructor
    · rintro ⟨r, hr, hlt⟩
      by_cases hrb : r = m.base
      · subst hrb
        simp only [hbase] at hlt
        by_cases hold : (j : ℤ) < m.base + m.arr m.base
        · have := h.within h.base_le
          exact Or.inl ⟨⟨m.base, hr, hold⟩, by omega⟩
        · exact Or.inr (by omega)
      · by_cases hri : r = i + 1
        · subst hri
          simp only [hzero] at hlt
          omega
        · simp only [hother r hrb hri] at hlt
          have := h.within (j := r) (by omega)
          exact Or.inl ⟨⟨r, hr, hlt⟩, by omega⟩
    · rintro (⟨⟨r, hr, hlt⟩, hji⟩ | heq)
      · refine ⟨r, hr, ?_⟩
        by_cases hrb : r = m.base
        · subst hrb
          simp only [hbase]
          omega
        · simp only [hother r hrb (by omega)]
          exact hlt
      · have := h.nonneg m.base
        refine ⟨m.base, by omega, ?_⟩
        simp only [hbase]
        omega
  rw [hcov]
  have hsame : j < i → (Lost index (i + 1) j ↔ Lost index i j) := by
    intro hlt
    have h₁ : j ≠ i := by omega
    have h₂ : j ≠ i + 1 := by omega
    simp only [Lost, h₁, h₂]
  have hkept : ¬ Lost index (i + 1) i := by
    rintro ⟨-, hend | hne⟩
    · omega
    · exact hne hi
  rcases Nat.lt_or_eq_of_le hj with hlt | rfl
  · rcases Nat.lt_or_eq_of_le (Nat.le_of_lt_succ hlt) with hlt | rfl
    · rw [hsame hlt, ← h.covers hlt.le]
      constructor
      · rintro (⟨hc, -⟩ | heq)
        · exact hc
        · split_ifs at hreach <;> omega
      · exact fun hc => Or.inl ⟨hc, hlt.le⟩
    · -- the page before is covered at last
      refine iff_of_true ?_ hkept
      by_cases hl : 256 < runLen index j
      · have := (h.long hl).1
        exact Or.inr (by omega)
      · exact Or.inl ⟨(h.covers le_rfl).mpr fun hlost => hl hlost.1, le_rfl⟩
  · by_cases hl : runLen index i < 256
    · rw [if_pos hl] at hreach
      refine iff_of_true (Or.inr (by push_cast; omega)) fun hlost => ?_
      have := hlost.1
      omega
    · rw [if_neg hl] at hreach
      refine iff_of_false ?_ ?_
      · rintro (⟨-, hle⟩ | heq)
        · omega
        · push_cast at heq
          omega
      · rw [not_not]
        exact ⟨by omega, Or.inl rfl⟩

/-- The next position, when it follows its predecessor. -/
lemma Merged.step_join {i : ℕ} {m m' : Merge} (h : Merged index i m)
    (hi : index i + 1 = index (i + 1))
    (hb : m'.base = if m.arr m.base + 1 = bioMaxPages then i + 1 else m.base)
    (ha : m'.arr = m.join (i + 1)) : Merged index (i + 1) m' := by
  obtain ⟨hzero, hbase, hother⟩ := h.join_eq
  rw [← ha] at hzero hbase hother
  have hreach := h.reach
  have hle := h.base_le
  have hlen : runLen index (i + 1) = runLen index i + 1 := by simp [runLen, hi]
  rw [show bioMaxPages = 256 from rfl] at hb
  have hnonneg := h.nonneg m.base
  -- the positions of the current run up to the new one
  have hcurrent : ∀ k, m.base ≤ k → k < i + 1 → index k + 1 = index (k + 1) := by
    intro k hk hk'
    rcases Nat.lt_or_eq_of_le (Nat.le_of_lt_succ hk') with hlt | rfl
    · exact h.current hk hlt
    · exact hi
  refine ⟨?_, fun {j} hj => ?_, fun j => ?_, fun {j} hj => ?_, fun {j k} hk => ?_,
    fun {k} hk hk' => ?_, fun hs => ?_, fun hf => ?_, fun hl => ?_, fun {j} hj => ?_⟩
  · split_ifs at hb <;> omega
  · rw [hother j (by omega) (by omega)]
    exact h.ahead (by omega)
  · by_cases hjb : j = m.base
    · rw [hjb, hbase]
      omega
    · by_cases hji : j = i + 1
      · rw [hji, hzero]
      · rw [hother j hjb hji]
        exact h.nonneg j
  · by_cases hjb : j = m.base
    · rw [hjb, hbase]
      push_cast
      split_ifs at hreach <;> omega
    · by_cases hji : j = i + 1
      · rw [hji, hzero]
        push_cast
        omega
      · rw [hother j hjb hji]
        have := h.within (j := j) (by omega)
        push_cast
        omega
  · by_cases hjb : j = m.base
    · subst hjb
      rw [hbase] at hk
      refine hcurrent _ (by omega) ?_
      split_ifs at hreach <;> omega
    · by_cases hji : j = i + 1
      · rw [hji, hzero] at hk
        omega
      · rw [hother j hjb hji] at hk
        exact h.consecutive hk
  · refine hcurrent k ?_ hk'
    split_ifs at hb <;> omega
  · -- the first request of the run is not full yet
    obtain ⟨h₁, h₂⟩ := h.short (by omega)
    rw [if_neg (by omega)] at hb
    rw [hb, hbase]
    push_cast
    omega
  · obtain ⟨h₁, h₂⟩ := h.short (by omega)
    rw [if_pos (by omega)] at hb
    exact ⟨hb, hzero⟩
  · rw [if_neg (by omega)] at hreach
    split_ifs at hb with hfull
    · rw [hb, hzero]
      exact ⟨by push_cast; omega, by norm_num⟩
    · have hlt : m.arr m.base < 256 := by
        by_cases hgt : 256 < runLen index i
        · exact (h.long hgt).2
        · obtain ⟨hbi, hai⟩ := h.full (by omega)
          rw [hbi, hai]
          omega
      rw [hb, hbase]
      push_cast
      omega
  · have hcov := h.covers_join hi m'.base hj
    rw [← ha] at hcov
    exact hcov

lemma Merge.step_new (m : Merge) {i : ℕ} (hi : index i + 1 ≠ index (i + 1)) :
    m.step index (i + 1) = ⟨i + 1, m.arr⟩ := by
  simp [Merge.step, hi]

lemma Merged.step_eq {i : ℕ} {m : Merge} (h : Merged index i m)
    (hi : index i + 1 = index (i + 1)) :
    m.step index (i + 1) =
      ⟨if m.arr m.base + 1 = bioMaxPages then i + 1 else m.base, m.join (i + 1)⟩ := by
  have hone : m.arr (i + 1) = 1 := h.ahead (Nat.lt_succ_self i)
  have hne : m.base ≠ i + 1 := by
    have := h.base_le
    omega
  have hold : Function.update m.arr m.base (m.arr m.base + 1) (i + 1) = 1 := by
    rw [Function.update_of_ne hne.symm, hone]
  simp [Merge.step, hi, hne, hold, Merge.join]

lemma merged_mergeUpTo (index : ℕ → Pgoff) (i : ℕ) : Merged index i (mergeUpTo index i) := by
  induction i with
  | zero => exact merged_zero index
  | succ i ih =>
    rw [mergeUpTo_succ]
    by_cases hi : index i + 1 = index (i + 1)
    · rw [ih.step_eq hi]
      exact ih.step_join hi rfl rfl
    · rw [Merge.step_new _ hi]
      exact ih.step_new hi

/-! ### The order of the positions -/

/-- The positions below `n`, request by request. -/
def Merge.positions (m : Merge) (n : ℕ) : List ℕ :=
  (List.range n).flatMap fun r => (List.range (m.arr r).toNat).map (r + ·)

lemma Merge.positions_succ (m : Merge) (n : ℕ) :
    m.positions (n + 1) = m.positions n ++ (List.range (m.arr n).toNat).map (n + ·) := by
  simp [Merge.positions, List.range_succ]

lemma Merge.positions_congr {m m' : Merge} {n : ℕ} (h : ∀ r < n, m'.arr r = m.arr r) :
    m'.positions n = m.positions n := by
  simp only [Merge.positions]
  refine List.flatMap_congr fun r hr => ?_
  rw [h r (List.mem_range.mp hr)]

/-- Positions without a request of their own add nothing. -/
lemma Merge.positions_of_zero {m : Merge} {n k : ℕ} (hn : n ≤ k)
    (h : ∀ r, n ≤ r → r < k → m.arr r = 0) : m.positions k = m.positions n := by
  induction k, hn using Nat.le_induction with
  | base => rfl
  | succ k hk ih =>
    rw [Merge.positions_succ, h k hk (Nat.lt_succ_self k), ih fun r hr hrk => h r hr (by omega)]
    simp

/-- Only the request at `base` may still grow. -/
lemma arr_of_base_lt {i j : ℕ} (hb : (mergeUpTo index i).base < j) (hj : j ≤ i) :
    (mergeUpTo index i).arr j = 0 := by
  induction i with
  | zero => omega
  | succ i ih =>
    have h := merged_mergeUpTo index i
    rw [mergeUpTo_succ] at hb ⊢
    by_cases hi : index i + 1 = index (i + 1)
    · obtain ⟨hzero, -, hother⟩ := h.join_eq
      rw [h.step_eq hi] at hb ⊢
      dsimp only at hb ⊢
      rcases Nat.lt_or_eq_of_le hj with hlt | rfl
      · have hbase : (mergeUpTo index i).base < j := by
          split_ifs at hb <;> omega
        rw [hother j (by omega) (by omega)]
        exact ih hbase (by omega)
      · exact hzero
    · rw [Merge.step_new _ hi] at hb
      have hb : i + 1 < j := hb
      omega

/-- As long as no run is too long, the requests take the positions in order. -/
lemma positions_mergeUpTo {i : ℕ} (h : ∀ j ≤ i, runLen index j ≤ 256) :
    (mergeUpTo index i).positions (i + 1) = List.range (i + 1) := by
  induction i with
  | zero => simp [Merge.positions, mergeUpTo]
  | succ i ih =>
    have hm := merged_mergeUpTo index i
    have hle := hm.base_le
    specialize ih fun j hj => h j (by omega)
    rw [mergeUpTo_succ, Merge.positions_succ]
    by_cases hi : index i + 1 = index (i + 1)
    · -- the current request gets one more position
      have hlen : runLen index (i + 1) = runLen index i + 1 := by simp [runLen, hi]
      obtain ⟨hend, -⟩ := hm.short (by have := h (i + 1) le_rfl; omega)
      obtain ⟨hzero, hbase, hother⟩ := hm.join_eq
      rw [hm.step_eq hi]
      set m := mergeUpTo index i with hmdef
      set m' : Merge := ⟨if m.arr m.base + 1 = bioMaxPages then i + 1 else m.base, m.join (i + 1)⟩
      have hm' : m'.arr = m.join (i + 1) := rfl
      have hafter : ∀ r, m.base + 1 ≤ r → r < i + 1 → m.arr r = 0 := fun r hr hr' =>
        arr_of_base_lt hr (Nat.le_of_lt_succ hr')
      have hpos : m.positions (m.base + 1) = List.range (i + 1) := by
        rw [← ih, Merge.positions_of_zero (by omega) hafter]
      have hpos' : m'.positions (i + 1) = m'.positions (m.base + 1) := by
        refine Merge.positions_of_zero (by omega) fun r hr hr' => ?_
        rw [hm', hother r (by omega) (by omega)]
        exact hafter r hr hr'
      have hcongr : m'.positions m.base = m.positions m.base := by
        refine Merge.positions_congr fun r hr => ?_
        rw [hm', hother r (by omega) (by omega)]
      have hnat : (m.arr m.base + 1).toNat = (m.arr m.base).toNat + 1 := by
        have := hm.nonneg m.base
        omega
      have hlast : m.base + (m.arr m.base).toNat = i + 1 := by
        have := hm.nonneg m.base
        omega
      rw [Merge.positions_succ] at hpos
      rw [hm', hzero, hpos', Merge.positions_succ, hcongr, hm', hbase, hnat, List.range_succ,
        List.map_append, ← List.append_assoc, hpos, List.range_succ (n := i + 1)]
      simp [hlast]
    · rw [Merge.step_new _ hi]
      have hone : (mergeUpTo index i).arr (i + 1) = 1 := hm.ahead (Nat.lt_succ_self i)
      have hcongr : Merge.positions ⟨i + 1, (mergeUpTo index i).arr⟩ (i + 1) =
          (mergeUpTo index i).positions (i + 1) := rfl
      rw [hcongr, ih, hone, List.range_succ (n := i + 1)]
      simp

/-! ### Runs that are too long -/

/-- More than `BIO_MAX_PAGES` pages in a row have consecutive indices. -/
def LongRun (index : ℕ → Pgoff) (len : ℕ) : Prop :=
  ∃ i, i + 256 < len ∧ ∀ k < 256, index (i + k) + 1 = index (i + k + 1)

lemma lt_runLen {n j : ℕ} :
    n < runLen index j ↔ n ≤ j ∧ ∀ k, j ≤ n + k → k < j → index k + 1 = index (k + 1) := by
  induction j generalizing n with
  | zero => simp [runLen]
  | succ j ih =>
    simp only [runLen]
    split_ifs with hj
    · cases n with
      | zero => simp; omega
      | succ n =>
        rw [Nat.add_lt_add_iff_right, ih]
        refine and_congr (by omega) ⟨fun h k hk hk' => ?_, fun h k hk hk' => ?_⟩
        · rcases Nat.lt_or_eq_of_le (Nat.le_of_lt_succ hk') with hlt | rfl
          · exact h k (by omega) hlt
          · exact hj
        · exact h k (by omega) (by omega)
    · constructor
      · intro hn
        exact ⟨by omega, fun k hk hk' => by omega⟩
      · rintro ⟨hn, h⟩
        by_contra hne
        exact hj (h j (by omega) (by omega))

/-- A run that is too long has an end, and its last page is lost. -/
lemma exists_lost {len j : ℕ} (hj : j < len) (h : 256 < runLen index j) :
    ∃ j < len, Lost index (len - 1) j := by
  induction hn : len - j generalizing j with
  | zero => omega
  | succ n ih =>
    by_cases hend : j = len - 1 ∨ index j + 1 ≠ index (j + 1)
    · exact ⟨j, hj, h, hend⟩
    · obtain ⟨hne, hnext⟩ := not_or.mp hend
      rw [not_not] at hnext
      have hlen : runLen index (j + 1) = runLen index j + 1 := by simp [runLen, hnext]
      exact ih (j := j + 1) (by omega) (by omega) (by omega)

lemma exists_lost_iff {len : ℕ} : (∃ j < len, Lost index (len - 1) j) ↔ LongRun index len := by
  constructor
  · rintro ⟨j, hj, h, -⟩
    obtain ⟨hle, hrun⟩ := lt_runLen.mp h
    refine ⟨j - 256, by omega, fun k hk => hrun _ (by omega) (by omega)⟩
  · rintro ⟨i, hi, hrun⟩
    refine exists_lost hi (lt_runLen.mpr ⟨by omega, fun k hk hk' => ?_⟩)
    have := hrun (k - i) (by omega)
    rwa [show i + (k - i) = k by omega] at this

/-! ### The requests of an array -/

/-- The request that starts at position `r` contains position `j`. -/
def InRequest (index : ℕ → Pgoff) (len r j : ℕ) : Prop :=
  r ≤ j ∧ (j : ℤ) < r + mergeArr index len r

lemma mergeArr_eq (index : ℕ → Pgoff) (len : ℕ) :
    mergeArr index len = (mergeUpTo index (len - 1)).arr := rfl

/-- A request stays inside the array. -/
lemma InRequest.lt {len r j : ℕ} (hr : r < len) (h : InRequest index len r j) : j < len := by
  have hle := (merged_mergeUpTo index (len - 1)).within (j := r) (by omega)
  have hlt := h.2
  rw [mergeArr_eq] at hlt
  omega

/-- A page of a request lands at its own offset. -/
lemma InRequest.index_eq {len r j : ℕ} (h : InRequest index len r j) :
    index j = index r + (j - r) := by
  obtain ⟨hrj, hlt⟩ := h
  induction j, hrj using Nat.le_induction with
  | base => rw [Nat.sub_self, Nat.add_zero]
  | succ j hj ih =>
    have hcons := (merged_mergeUpTo index (len - 1)).consecutive (j := r) (k := j - r) (by
      rw [mergeArr_eq] at hlt
      push_cast at hlt
      omega)
    rw [show r + (j - r) = j by omega] at hcons
    rw [← hcons, ih (by push_cast at hlt; omega), Nat.add_assoc, ← Nat.sub_add_comm hj]

/-- The positions that no request contains are the ends of the runs that are too long. -/
lemma exists_inRequest_iff {len j : ℕ} (hj : j < len) :
    (∃ r < len, InRequest index len r j) ↔ ¬ Lost index (len - 1) j := by
  rw [← (merged_mergeUpTo index (len - 1)).covers (by omega)]
  constructor
  · rintro ⟨r, -, hr⟩
    exact ⟨r, hr⟩
  · rintro ⟨r, hr⟩
    exact ⟨r, by have := hr.1; omega, hr⟩

lemma LongRun.congr {index' : ℕ → Pgoff} {len : ℕ} (h : ∀ j < len, index' j = index j)
    (hl : LongRun index len) : LongRun index' len := by
  obtain ⟨i, hi, hrun⟩ := hl
  refine ⟨i, hi, fun k hk => ?_⟩
  rw [h _ (by omega), h _ (by omega)]
  exact hrun k hk

namespace State

variable {C : Type*} {s : State C} {pgs : List PageId} {p : PageId}

/-- The indices of an array of pages. -/
def indices (s : State C) (pgs : List PageId) (j : ℕ) : Pgoff := (s.pages (pgs.getD j 0)).index

/-- The pages of the request that starts at position `i`. -/
def requestPages (s : State C) (pgs : List PageId) (i : ℕ) : List PageId :=
  (List.range (mergeArr (s.indices pgs) pgs.length i).toNat).map fun k => pgs.getD (i + k) 0

/-- The requests that are issued for an array of pages. -/
def requests (s : State C) (pgs : List PageId) : List (List PageId) :=
  ((List.range pgs.length).map (s.requestPages pgs)).filter (· ≠ [])

lemma mem_requestPages {i : ℕ} : p ∈ s.requestPages pgs i ↔
    ∃ j, InRequest (s.indices pgs) pgs.length i j ∧ pgs.getD j 0 = p := by
  simp only [requestPages, List.mem_map, List.mem_range, InRequest]
  constructor
  · rintro ⟨k, hk, rfl⟩
    exact ⟨i + k, ⟨by omega, by push_cast; omega⟩, rfl⟩
  · rintro ⟨j, ⟨hij, hj⟩, rfl⟩
    exact ⟨j - i, by omega, by rw [Nat.add_sub_cancel' hij]⟩

lemma mem_requests {r : List PageId} :
    r ∈ s.requests pgs ↔ (∃ i < pgs.length, s.requestPages pgs i = r) ∧ r ≠ [] := by
  simp [requests]

lemma mem_requests_iff : (∃ r ∈ s.requests pgs, p ∈ r) ↔
    ∃ i < pgs.length, ∃ j, InRequest (s.indices pgs) pgs.length i j ∧ pgs.getD j 0 = p := by
  constructor
  · rintro ⟨r, hr, hp⟩
    obtain ⟨⟨i, hi, rfl⟩, -⟩ := mem_requests.mp hr
    exact ⟨i, hi, mem_requestPages.mp hp⟩
  · rintro ⟨i, hi, hj⟩
    have hp := mem_requestPages.mpr hj
    exact ⟨_, mem_requests.mpr ⟨⟨i, hi, rfl⟩, List.ne_nil_of_mem hp⟩, hp⟩

lemma getD_mem {j : ℕ} (hj : j < pgs.length) : pgs.getD j 0 ∈ pgs := by
  rw [List.getD_eq_getElem _ _ hj]
  exact List.getElem_mem hj

/-- Only pages of the array are written. -/
lemma mem_of_mem_request {r : List PageId} (hr : r ∈ s.requests pgs) (hp : p ∈ r) : p ∈ pgs := by
  obtain ⟨i, hi, j, hj, rfl⟩ := mem_requests_iff.mp ⟨r, hr, hp⟩
  exact getD_mem (hj.lt hi)

/-- Every page of an array is in a request, unless a run is too long. -/
lemma exists_request (hl : ¬ LongRun (s.indices pgs) pgs.length) (hp : p ∈ pgs) :
    ∃ r ∈ s.requests pgs, p ∈ r := by
  obtain ⟨j, hj, rfl⟩ := List.getElem_of_mem hp
  have hnot : ¬ Lost (s.indices pgs) (pgs.length - 1) j :=
    fun hlost => hl (exists_lost_iff.mp ⟨j, hj, hlost⟩)
  obtain ⟨i, hi, hreq⟩ := (exists_inRequest_iff hj).mpr hnot
  exact mem_requests_iff.mpr ⟨i, hi, j, hreq, List.getD_eq_getElem _ _ hj⟩

/-- In a run that is too long some page is in no request. -/
lemma exists_unrequested (hn : pgs.Nodup) (hl : LongRun (s.indices pgs) pgs.length) :
    ∃ p ∈ pgs, ∀ r ∈ s.requests pgs, p ∉ r := by
  obtain ⟨j, hj, hlost⟩ := exists_lost_iff.mpr hl
  refine ⟨_, getD_mem hj, fun r hr hp => ?_⟩
  obtain ⟨i, hi, k, hreq, hk⟩ := mem_requests_iff.mp ⟨r, hr, hp⟩
  have hkl := hreq.lt hi
  rw [List.getD_eq_getElem _ _ hkl, List.getD_eq_getElem _ _ hj] at hk
  obtain rfl : k = j := (hn.getElem_inj_iff).mp hk
  exact (exists_inRequest_iff hj).mp ⟨i, hi, hreq⟩ hlost

/-- The blocks of a request are those of its pages. -/
lemma request_eq {v : PvdId} {i : ℕ} (hi : i < pgs.length)
    (hv : ∀ p ∈ pgs, (s.pages p).pvd = some v) :
    s.request pgs i = (s.requestPages pgs i).map fun p =>
      ⟨(s.pvds v).bk, (s.pages p).index, (s.pages p).content⟩ := by
  simp only [request, hv _ (getD_mem hi), requestPages, List.map_map]
  refine List.map_congr_left fun k hk => ?_
  have hin : InRequest (s.indices pgs) pgs.length i (i + k) := by
    have hk := List.mem_range.mp hk
    exact ⟨by omega, by push_cast; unfold indices; omega⟩
  have hidx := hin.index_eq
  rw [Nat.add_sub_cancel_left] at hidx
  simp only [Function.comp_apply, BlockWrite.mk.injEq, true_and, and_true]
  exact hidx.symm

lemma mem_writeMerged {v : PvdId} (hv : ∀ p ∈ pgs, (s.pages p).pvd = some v) {b : BlockWrite C} :
    b ∈ s.writeMerged pgs ↔ ∃ r ∈ s.requests pgs, ∃ p ∈ r,
      b = ⟨(s.pvds v).bk, (s.pages p).index, (s.pages p).content⟩ := by
  simp only [writeMerged, List.mem_flatMap, List.mem_range]
  constructor
  · rintro ⟨i, hi, hb⟩
    rw [request_eq hi hv] at hb
    obtain ⟨p, hp, rfl⟩ := List.mem_map.mp hb
    exact ⟨_, mem_requests.mpr ⟨⟨i, hi, rfl⟩, List.ne_nil_of_mem hp⟩, p, hp, rfl⟩
  · rintro ⟨r, hr, p, hp, rfl⟩
    obtain ⟨⟨i, hi, rfl⟩, -⟩ := mem_requests.mp hr
    refine ⟨i, hi, ?_⟩
    rw [request_eq hi hv]
    exact List.mem_map_of_mem hp

/-- `write_bio_async` returns exactly when every request it forms starts with a page that has a
pvd. -/
lemma writeBioAsync_returns_iff : (∃ bs, s.writeBioAsync pgs = .ok bs) ↔
    ∀ i < pgs.length, mergeArr (s.indices pgs) pgs.length i ≠ 0 →
      (s.pages (pgs.getD i 0)).pvd ≠ none := by
  have hno : ¬ (List.range pgs.length).any (s.orphanRequest pgs) ↔
      ∀ i < pgs.length, mergeArr (s.indices pgs) pgs.length i ≠ 0 →
        (s.pages (pgs.getD i 0)).pvd ≠ none := by
    have hidx : s.indices pgs = fun j => (s.pages (pgs.getD j 0)).index := rfl
    simp [orphanRequest, hidx]
  rw [← hno]
  constructor
  · rintro ⟨bs, h⟩ hany
    simp [writeBioAsync, hany] at h
  · intro hany
    exact ⟨s.writeMerged pgs, if_neg hany⟩

/-- On a batch of one pvd it writes what `write_file_async` would write; only on other batches does
it matter that `write_file_async` alone checks the pvd. -/
lemma writeBioAsync_eq {v : PvdId} (hv : ∀ p ∈ pgs, (s.pages p).pvd = some v) :
    s.writeBioAsync pgs = .ok (s.writeFileAsync pgs) := by
  have hall : ∀ i < pgs.length, mergeArr (s.indices pgs) pgs.length i ≠ 0 →
      (s.pages (pgs.getD i 0)).pvd ≠ none := by
    intro i hi _
    rw [hv _ (getD_mem hi)]
    exact Option.some_ne_none v
  obtain ⟨bs, h⟩ := writeBioAsync_returns_iff.mpr hall
  rw [writeBioAsync] at h ⊢
  split at h
  · cases h
  · rw [if_neg ‹_›, writeFileAsync]

/-- So files and devices have writers of the same kind. -/
lemma driverWriter_eq {v : PvdId} (t : PvdType) (hv : ∀ p ∈ pgs, (s.pages p).pvd = some v) :
    driverWriter t s pgs = s.writeMerged pgs := by
  cases t with
  | blkd => simp only [driverWriter, writeBioAsync_eq hv, writeFileAsync]
  | file => rfl

/-- Every block that the driver writes is a page of the batch. -/
lemma writesOnly_of_driver {e : Env C} (he : e.writeAsync = driverWriter) : e.WritesOnly := by
  intro s v pgs hv b hb
  rw [he, driverWriter_eq _ hv, mem_writeMerged hv] at hb
  obtain ⟨r, hr, p, hp, rfl⟩ := hb
  exact ⟨p, mem_of_mem_request hr hp, rfl⟩

/-- No batch has more than `BIO_MAX_PAGES` pages in a row with consecutive indices. -/
def ShortRuns (s : State C) (bs : List (List PageId)) : Prop :=
  ∀ b ∈ bs, ¬ LongRun (s.indices b) b.length

/-- The writer of the driver writes every page of a batch, unless a run is too long. -/
lemma writesBatch_of_not_longRun {e : Env C} (he : e.writeAsync = driverWriter) (v : PvdId)
    (hl : ¬ LongRun (s.indices pgs) pgs.length) : e.WritesBatch v (s.view e) pgs := by
  intro t ht b
  have hv : ∀ p ∈ pgs, (t.pages p).pvd = some v := fun p hp => (ht p hp).1
  have hl' : ¬ LongRun (t.indices pgs) pgs.length := by
    intro hlong
    apply hl
    apply hlong.congr
    intro j hj
    exact (ht _ (getD_mem hj)).2.symm
  rw [he, driverWriter_eq _ hv, mem_writeMerged hv]
  constructor
  · rintro ⟨r, hr, p, hp, rfl⟩
    exact ⟨p, mem_of_mem_request hr hp, rfl⟩
  · rintro ⟨p, hp, rfl⟩
    obtain ⟨r, hr, hpr⟩ := exists_request hl' hp
    exact ⟨r, hr, p, hpr, rfl⟩

end State

end FastMap
