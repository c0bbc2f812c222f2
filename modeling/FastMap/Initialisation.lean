import FastMap.System

/-!
# The pages are dealt out

`init_hash_table_free_pages` initialises the tagged pages and puts them on the free lists, the same
number of pages on each list. That number is a quotient, and the pages that the division leaves over
are neither initialised nor put on a list.
-/

namespace FastMap

variable {C : Type*}

/-- `buffer_map_t` while it is filled; a tagged page of which nothing has been written is `none`. -/
structure BufferMap (C : Type*) where
  pages : PageId → Option (TaggedPage C)
  fl : ℕ → List PageId
  totalNumPages : ℕ

namespace BufferMap

/-! ### The loops -/

/-- One page: `init_tagged_page_meta_data`, `alloc_tagged_page_data` and `list_add_tail`. -/
def initPage (frame : PageId → C) (cpu : ℕ) (m : BufferMap C) (i : PageId) : BufferMap C :=
  { m with
    pages := Function.update m.pages i (some (.init (frame i)))
    fl := Function.update m.fl cpu (m.fl cpu ++ [i]) }

/-- The loop over the pages of a processor. -/
def initCpu (frame : PageId → C) (numPagesPercpu : ℕ) (m : BufferMap C) (cpu : ℕ) : BufferMap C :=
  (List.Ico (cpu * numPagesPercpu) ((cpu + 1) * numPagesPercpu)).foldl (initPage frame cpu) m

/-- `init_hash_table_free_pages` -/
def initHashTableFreePages (ncpus : ℕ) (frame : PageId → C) (numFreePages : ℕ) : BufferMap C :=
  (List.range ncpus).foldl (initCpu frame (numFreePages / ncpus))
    ⟨fun _ => none, fun _ => [], numFreePages⟩

/-! ### What the loops leave -/

lemma foldl_initPage (frame : PageId → C) (cpu : ℕ) (l : List PageId) (m : BufferMap C) :
    l.foldl (initPage frame cpu) m =
      { m with
        pages := fun p => if p ∈ l then some (.init (frame p)) else m.pages p
        fl := Function.update m.fl cpu (m.fl cpu ++ l) } := by
  induction l generalizing m with
  | nil => simp
  | cons i l ih =>
    rw [List.foldl_cons, ih]
    simp only [initPage, Function.update_self, Function.update_idem, List.append_assoc,
      List.singleton_append, mk.injEq, and_true]
    funext p
    by_cases hp : p = i
    · subst hp
      simp
    · simp [hp]

/-- The pages of a processor. -/
def percpu (n cpu : ℕ) : List PageId := List.Ico (cpu * n) ((cpu + 1) * n)

lemma mem_percpu {n cpu p : ℕ} : p ∈ percpu n cpu ↔ cpu * n ≤ p ∧ p < (cpu + 1) * n :=
  List.Ico.mem

lemma foldl_initCpu (frame : PageId → C) (n k : ℕ) (m : BufferMap C) (hfl : ∀ c, m.fl c = []) :
    (List.range k).foldl (initCpu frame n) m =
      { m with
        pages := fun p => if p < k * n then some (.init (frame p)) else m.pages p
        fl := fun c => if c < k then percpu n c else [] } := by
  induction k with
  | zero =>
    have hnil : m.fl = fun _ => [] := funext hfl
    simp [← hnil]
  | succ k ih =>
    rw [List.range_succ, List.foldl_append, List.foldl_cons, List.foldl_nil, ih, initCpu,
      foldl_initPage]
    simp only [mk.injEq, and_true]
    constructor
    · funext p
      have hmem : p ∈ List.Ico (k * n) ((k + 1) * n) ↔ k * n ≤ p ∧ p < (k + 1) * n := mem_percpu
      have hmono : k * n ≤ (k + 1) * n := Nat.mul_le_mul_right n (Nat.le_succ k)
      by_cases hk : p < k * n
      · simp [hk, hk.trans_le hmono]
      · by_cases hk' : p < (k + 1) * n
        · rw [if_pos (hmem.mpr ⟨not_lt.mp hk, hk'⟩), if_pos hk']
        · rw [if_neg fun h => hk' (hmem.mp h).2, if_neg hk, if_neg hk']
    · funext c
      by_cases hc : c = k
      · subst hc
        simp [percpu]
      · rw [Function.update_of_ne hc]
        have hlt : c < k + 1 ↔ c < k := by omega
        simp only [hlt]

lemma pages_initHashTableFreePages (ncpus : ℕ) (frame : PageId → C) (n : ℕ) (p : PageId) :
    (initHashTableFreePages ncpus frame n).pages p =
      if p < ncpus * (n / ncpus) then some (.init (frame p)) else none := by
  rw [initHashTableFreePages, foldl_initCpu _ _ _ _ fun _ => rfl]

lemma fl_initHashTableFreePages (ncpus : ℕ) (frame : PageId → C) (n c : ℕ) :
    (initHashTableFreePages ncpus frame n).fl c =
      if c < ncpus then percpu (n / ncpus) c else [] := by
  rw [initHashTableFreePages, foldl_initCpu _ _ _ _ fun _ => rfl]

lemma totalNumPages_initHashTableFreePages (ncpus : ℕ) (frame : PageId → C) (n : ℕ) :
    (initHashTableFreePages ncpus frame n).totalNumPages = n := by
  rw [initHashTableFreePages, foldl_initCpu _ _ _ _ fun _ => rfl]

/-- The free lists of the buffer, and the pages on them, are those of the loops. -/
lemma initHashTableFreePages_initParams (e : Env C) (w : State.World C) :
    (initHashTableFreePages e.ncpus w.frame e.bufSize).fl = (State.initParams e w).fl ∧
      ∀ c, ∀ p ∈ (State.initParams e w).fl c,
        (initHashTableFreePages e.ncpus w.frame e.bufSize).pages p =
          some ((State.initParams e w).pages p) := by
  constructor
  · funext c
    rw [fl_initHashTableFreePages]
    simp only [State.initParams, percpu, List.Ico, Env.pagesPerCpu, Nat.succ_mul,
      Nat.add_sub_cancel_left]
  · intro c p hp
    have hlt : p < e.ncpus * (e.bufSize / e.ncpus) := (State.mem_initParams_fl.mp hp).1
    rw [pages_initHashTableFreePages, if_pos hlt]
    rfl

/-! ### Usable pages -/

/-- Every page is initialised and on one free list, and all pages are on the lists. -/
structure Usable (ncpus : ℕ) (frame : PageId → C) (numFreePages : ℕ) (m : BufferMap C) : Prop where
  initialised (p : PageId) : p < numFreePages → m.pages p = some (.init (frame p))
  /-- The page is on one list, and is there once. -/
  one_list (p : PageId) : p < numFreePages → ∃ cpu < ncpus, ∀ c < ncpus,
    (m.fl c).count p = if c = cpu then 1 else 0
  total : ((List.range ncpus).map fun c => (m.fl c).length).sum = m.totalNumPages

/-- The lists are equally long. -/
lemma sum_length_fl (ncpus : ℕ) (frame : PageId → C) (n : ℕ) :
    ((List.range ncpus).map fun c =>
      ((initHashTableFreePages ncpus frame n).fl c).length).sum = ncpus * (n / ncpus) := by
  have hlen : ∀ c ∈ List.range ncpus,
      ((initHashTableFreePages ncpus frame n).fl c).length = n / ncpus := by
    intro c hc
    rw [fl_initHashTableFreePages, if_pos (List.mem_range.mp hc), percpu, List.Ico.length,
      Nat.succ_mul, Nat.add_sub_cancel_left]
  rw [List.map_congr_left hlen]
  simp

/-- The page is on the list of the processor whose share it is in. -/
lemma count_fl {ncpus : ℕ} (frame : PageId → C) {n : ℕ} {p : PageId}
    (hp : p < ncpus * (n / ncpus)) : p / (n / ncpus) < ncpus ∧ ∀ c < ncpus,
      ((initHashTableFreePages ncpus frame n).fl c).count p =
        if c = p / (n / ncpus) then 1 else 0 := by
  have hpos : 0 < n / ncpus := Nat.pos_of_ne_zero fun h => by simp [h] at hp
  refine ⟨Nat.div_lt_of_lt_mul (by rwa [Nat.mul_comm] at hp), ?_⟩
  intro c hc
  rw [fl_initHashTableFreePages, if_pos hc]
  split_ifs with hown
  · apply List.count_eq_one_of_mem (List.Ico.nodup _ _)
    apply mem_percpu.mpr
    subst hown
    exact ⟨Nat.div_mul_le_self _ _, by rw [Nat.succ_mul]; exact Nat.lt_div_mul_add hpos⟩
  · apply List.count_eq_zero.mpr
    intro hmem
    obtain ⟨hle, hlt⟩ := mem_percpu.mp hmem
    exact hown (Nat.div_eq_of_lt_le hle hlt).symm

/-- The pages are all usable exactly when the processors divide them without remainder. -/
theorem usable_iff (e : Env C) (w : State.World C) :
    Usable e.ncpus w.frame e.bufSize (initHashTableFreePages e.ncpus w.frame e.bufSize) ↔
      e.bufSize % e.ncpus = 0 := by
  constructor
  · intro h
    have htotal := h.total
    rw [sum_length_fl, totalNumPages_initHashTableFreePages] at htotal
    have hdiv := Nat.div_add_mod e.bufSize e.ncpus
    omega
  · intro hmod
    have hall : e.ncpus * (e.bufSize / e.ncpus) = e.bufSize :=
      Nat.mul_div_cancel' (Nat.dvd_of_mod_eq_zero hmod)
    constructor
    · intro p hp
      rw [pages_initHashTableFreePages, hall, if_pos hp]
    · intro p hp
      obtain ⟨hlt, hcount⟩ := count_fl w.frame (by rwa [hall] : p < e.ncpus * (e.bufSize / e.ncpus))
      exact ⟨_, hlt, hcount⟩
    · rw [sum_length_fl, totalNumPages_initHashTableFreePages, hall]

/-- Two processors share three pages. -/
def oddEnv : Env ℕ :=
  { State.smallEnv with
    ncpus := 2, ncpus_pos := Nat.two_pos, bufSize := 3, bufSize_lt := by decide }

/-- The third of three pages gets no frame and is on no list. -/
theorem page_left_over :
    ¬ Usable oddEnv.ncpus State.smallWorld.frame oddEnv.bufSize
      (initHashTableFreePages oddEnv.ncpus State.smallWorld.frame oddEnv.bufSize) := by
  intro h
  have hpage := h.initialised 2 (by decide)
  rw [pages_initHashTableFreePages] at hpage
  exact absurd hpage (by simp [oddEnv])

end BufferMap

end FastMap
