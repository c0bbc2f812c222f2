import FastMap.Placement

/-!
# The effect of the page operations

For each operation that works on one page, what it does to the view of that page. The proofs
about whole system calls use these lemmas and do not look at lists and trees again.
-/

namespace FastMap

variable {C : Type*}

/-- Whether a valid slot of the page records an entry. -/
def TaggedPage.covers (t : TaggedPage C) (a : VmaId × ℕ) : Prop :=
  ∃ i, (t.rmap i).valid = true ∧ ((t.rmap i).vma, (t.rmap i).vaddr) = a

instance (t : TaggedPage C) (a : VmaId × ℕ) : Decidable (t.covers a) :=
  inferInstanceAs (Decidable (∃ _, _ ∧ _))

lemma PrVmaRmap.invalidate_eq {r : PrVmaRmap} (h : r.valid = false) :
    { r with valid := false } = r := by
  cases r
  simp_all

namespace PageView

/-- What `dequeue_if` and `remove_if` do to the view of the page they take. -/
def dequeued (x : PageView C) : PageView C :=
  { x with
    page := { x.page with locked := true, bufferId := .biNone }
    clean := false, dirty := false }

/-- What `free_page_lock` does to the view of a page that is linked nowhere. -/
def freed (x : PageView C) : PageView C :=
  { x with
    page :=
      { x.page with
        inUse := false
        index := 0
        pvd := none
        pageValid := false
        bufferId := .biNone
        isDirty := false
        cpuid := 0
        rmap := fun _ => .reset
        locked := false }
    free := true }

/-- A page that no queue and no tree holds. -/
structure Unlinked (x : PageView C) : Prop where
  clean : x.clean = false
  dirty : x.dirty = false
  tree (k : TreeKind) : x.tree k = false

/-- What the inner loop of `alloc_page_lock` does to the view of the page it finds. -/
def taken (x : PageView C) (cpu : ℕ) : PageView C :=
  { x with page := { x.page with cpuid := cpu }, free := false }

/-- The record of a page that `alloc_page_lock` returns. -/
def allocated (x : PageView C) (cpu : ℕ) (offset : Pgoff) (v : PvdId) :
    PageView C :=
  { x with
    page :=
      { x.page with
        cpuid := cpu
        pageValid := false
        bufferId := .biNone
        index := offset
        pvd := some v
        isDirty := false
        rmap := fun _ => .reset
        inUse := true }
    free := false }

/-- One iteration of `clear_mappings`. -/
def protectSlot (x : PageView C) (i : Fin maxRmapsPerPage) : PageView C :=
  let r := x.page.rmap i
  if r.valid then
    let w := (x.pte (r.vma, r.vaddr)).map fun _ => false
    { x with pte := Function.update x.pte (r.vma, r.vaddr) w }
  else x

/-- One iteration of `remove_mappings`. -/
def unmapSlot (x : PageView C) (i : Fin maxRmapsPerPage) : PageView C :=
  let r := x.page.rmap i
  if r.valid then
    { x with
      page := { x.page with rmap := Function.update x.page.rmap i { r with valid := false } }
      pte := Function.update x.pte (r.vma, r.vaddr) none }
  else x

/-- What `clear_mappings` does to the view of its page. -/
def wrprotected (x : PageView C) : PageView C :=
  (List.finRange maxRmapsPerPage).foldl protectSlot x

/-- What `remove_mappings` does to the view of its page. -/
def unmapped (x : PageView C) : PageView C :=
  (List.finRange maxRmapsPerPage).foldl unmapSlot x

lemma foldl_protectSlot (l : List (Fin maxRmapsPerPage)) (x : PageView C) :
    l.foldl protectSlot x = { x with pte := (l.foldl protectSlot x).pte } := by
  induction l generalizing x with
  | nil => rfl
  | cons i l ih =>
    rw [List.foldl_cons, ih]
    simp only [protectSlot]
    split_ifs <;> rfl

/-- The entries that a page covers are write protected, the others stay. -/
lemma pte_foldl_protectSlot (l : List (Fin maxRmapsPerPage)) (x : PageView C) (a : VmaId × ℕ) :
    (l.foldl protectSlot x).pte a =
      if ∃ i ∈ l, (x.page.rmap i).valid = true ∧ ((x.page.rmap i).vma, (x.page.rmap i).vaddr) = a
      then (x.pte a).map fun _ => false else x.pte a := by
  induction l generalizing x with
  | nil => simp
  | cons i l ih =>
    rw [List.foldl_cons, ih]
    by_cases hv : (x.page.rmap i).valid = true
    · by_cases ha : ((x.page.rmap i).vma, (x.page.rmap i).vaddr) = a
      · subst ha
        simp [protectSlot, hv]
      · simp [protectSlot, hv, ha, Function.update_of_ne (Ne.symm ha)]
    · simp [protectSlot, hv]

lemma wrprotected_eq (x : PageView C) : x.wrprotected = { x with pte := x.wrprotected.pte } :=
  foldl_protectSlot _ x

lemma wrprotected_pte (x : PageView C) (a : VmaId × ℕ) : x.wrprotected.pte a =
    if x.page.covers a then (x.pte a).map fun _ => false else x.pte a := by
  rw [wrprotected, pte_foldl_protectSlot]
  exact if_congr (by simp [TaggedPage.covers]) rfl rfl

/-- Invalid slots stay invalid and the loop clears the valid ones. -/
lemma foldl_unmapSlot (l : List (Fin maxRmapsPerPage)) (x : PageView C) :
    l.foldl unmapSlot x =
      { x with
        page := { x.page with
          rmap := fun i => if i ∈ l then { x.page.rmap i with valid := false } else x.page.rmap i }
        pte := (l.foldl unmapSlot x).pte } := by
  induction l generalizing x with
  | nil => simp
  | cons i l ih =>
    rw [List.foldl_cons, ih]
    simp only [unmapSlot]
    split_ifs with hv
    · congr 2
      funext j
      by_cases hj : j = i
      · subst hj
        simp
      · simp [hj]
    · congr 2
      funext j
      by_cases hj : j = i
      · subst hj
        have hinv := PrVmaRmap.invalidate_eq (by simpa using hv)
        simp only [List.mem_cons, true_or, hinv, ite_self]
      · simp [hj]

lemma pte_foldl_unmapSlot (l : List (Fin maxRmapsPerPage)) (x : PageView C) (a : VmaId × ℕ) :
    (l.foldl unmapSlot x).pte a =
      if ∃ i ∈ l, (x.page.rmap i).valid = true ∧ ((x.page.rmap i).vma, (x.page.rmap i).vaddr) = a
      then none else x.pte a := by
  induction l generalizing x with
  | nil => simp
  | cons i l ih =>
    rw [List.foldl_cons, ih]
    by_cases hv : (x.page.rmap i).valid = true
    · by_cases ha : ((x.page.rmap i).vma, (x.page.rmap i).vaddr) = a
      · subst ha
        simp [unmapSlot, hv]
      · have hj : ∀ j, (((x.unmapSlot i).page.rmap j).valid = true ∧
            (((x.unmapSlot i).page.rmap j).vma, ((x.unmapSlot i).page.rmap j).vaddr) = a) ↔
            ((x.page.rmap j).valid = true ∧
              ((x.page.rmap j).vma, (x.page.rmap j).vaddr) = a) := by
          intro j
          by_cases hji : j = i
          · subst hji
            simp [unmapSlot, hv, ha]
          · simp [unmapSlot, hv, hji]
        simp only [hj, List.mem_cons, exists_eq_or_imp, ha, and_false, false_or]
        simp [unmapSlot, hv, Function.update_of_ne (Ne.symm ha)]
    · simp [unmapSlot, hv]

/-- No slot of the page is valid any more. -/
lemma unmapped_eq (x : PageView C) : x.unmapped =
    { x with
      page := { x.page with rmap := fun i => { x.page.rmap i with valid := false } }
      pte := x.unmapped.pte } := by
  simpa [unmapped] using foldl_unmapSlot (List.finRange maxRmapsPerPage) x

lemma unmapped_pte (x : PageView C) (a : VmaId × ℕ) :
    x.unmapped.pte a = if x.page.covers a then none else x.pte a := by
  rw [unmapped, pte_foldl_unmapSlot]
  exact if_congr (by simp [TaggedPage.covers]) rfl rfl

end PageView

/-- The entry of a page, from its write permission. -/
def Pte.ofPerm (p : PageId) (w : Option Bool) : Pte :=
  w.elim .none (.map p)

namespace State

/-! ### What the page operations leave alone -/

/-- Everything outside the buffer and the page tables. -/
structure Outside (C : Type*) where
  pvds : PvdId → PrVmaData
  vmas : VmaId → VmArea
  infos : InfoId → FastmapInfo
  disk : DevId × Pgoff → C
  bitmap : DevId × Pgoff → Bool
  devPages : DevId → ℕ

def outside (s : State C) : Outside C :=
  ⟨s.pvds, s.vmas, s.infos, s.disk, s.bitmap, s.devPages⟩

section outside

variable (e : Env C) (s : State C) (p : PageId)

@[simp] lemma outside_modifyPage (f : TaggedPage C → TaggedPage C) :
    (s.modifyPage p f).outside = s.outside := rfl

@[simp] lemma outside_unlockTp : (s.unlockTp p).outside = s.outside := rfl

@[simp] lemma outside_trylockTp (i : Pgoff) : (s.trylockTp p i).2.outside = s.outside := by
  simp only [trylockTp]
  split_ifs <;> rfl

@[simp] lemma outside_remove (q : Queue) : (s.remove q p).outside = s.outside := rfl

@[simp] lemma outside_enqueue (q : Queue) : (s.enqueue q p).2.outside = s.outside := by
  simp only [enqueue]
  split_ifs <;> rfl

@[simp] lemma outside_rotate (q : Queue) : (s.rotate q p).outside = s.outside := rfl

@[simp] lemma outside_treeErase (t : TreeId) (i : Pgoff) :
    (s.treeErase t i).outside = s.outside := rfl

@[simp] lemma outside_treeInsert (k : TreeKind) (v : PvdId) (i : Pgoff) :
    (s.treeInsert e k v i p).outside = s.outside := rfl

@[simp] lemma outside_removeFromDirtyTree : (s.removeFromDirtyTree e p).outside = s.outside := by
  simp only [removeFromDirtyTree]
  split <;> simp

@[simp] lemma outside_insertPage (b : Bool) : (s.insertPage p b).outside = s.outside := by
  simp only [insertPage]
  split_ifs <;> simp [setDirty]

@[simp] lemma outside_movePageC2d : (s.movePageC2d p).outside = s.outside := by
  simp [movePageC2d]

@[simp] lemma outside_movePageD2c : (s.movePageD2c p).outside = s.outside := by
  simp [movePageD2c, setDirty]

@[simp] lemma outside_freePageLock : (s.freePageLock p).outside = s.outside := rfl

@[simp] lemma outside_deq : (s.deq p).2.outside = s.outside := by
  simp only [deq]
  split
  · rfl
  · split_ifs <;> simp

@[simp] lemma outside_evDeq : (s.evDeq p).2.outside = s.outside := by
  simp [evDeq]

lemma outside_dequeueIf (q : Queue) (cond : State C → PageId → Bool × State C)
    (hc : ∀ s p, (cond s p).2.outside = s.outside) :
    (s.dequeueIf q cond).2.outside = s.outside := by
  simp only [dequeueIf]
  split_ifs
  · rfl
  · split
    · rfl
    · rename_i r _ _
      have h := hc s r
      split <;> simp_all

lemma outside_removeIf (q : Queue) (cond : State C → PageId → Bool × State C)
    (hc : ∀ s p, (cond s p).2.outside = s.outside) :
    (s.removeIf q p cond).2.outside = s.outside := by
  simp only [removeIf]
  have h := hc s p
  split <;> simp_all

/-- A loop whose body changes nothing outside. -/
lemma foldl_outside {ι : Type*} {f : State C → ι → State C}
    (hf : ∀ s i, (f s i).outside = s.outside) (l : List ι) (s : State C) :
    (l.foldl f s).outside = s.outside := by
  induction l generalizing s with
  | nil => rfl
  | cons i l ih => rw [List.foldl_cons, ih, hf]

@[simp] lemma outside_clearMappings : (s.clearMappings p).outside = s.outside := by
  have hstep : ∀ (s : State C) r, (s.wrprotect p r).outside = s.outside := by
    intro s r
    simp only [wrprotect]
    split
    · split_ifs <;> rfl
    · rfl
  apply foldl_outside
  intro s i
  dsimp only
  split_ifs
  · exact hstep s _
  · rfl

@[simp] lemma outside_removeMappings : (s.removeMappings p).outside = s.outside := by
  have hstep : ∀ (s : State C) r, (s.zapPage p r).outside = s.outside := by
    intro s r
    simp only [zapPage]
    split
    · split_ifs <;> rfl
    · rfl
  apply foldl_outside
  intro s i
  dsimp only
  split_ifs
  · exact hstep s _
  · rfl

end outside

variable {e : Env C} {s : State C} {p : PageId}

/-! ### The page lock -/

/-- The two ways `trylock_tp` ends. -/
lemma trylockTp_cases (s : State C) (p : PageId) (i : Pgoff) :
    (∃ r, r ≠ 0 ∧ s.trylockTp p i = (r, s)) ∨
    ((s.pages p).inUse = true ∧ (s.pages p).locked = false ∧
      (i = ulongMax ∨ (s.pages p).index = i) ∧
      s.trylockTp p i = (0, s.modifyPage p fun t => { t with locked := true })) := by
  simp only [trylockTp]
  split_ifs with h₁ h₂ h₃
  · exact Or.inl ⟨-3, by decide, rfl⟩
  · exact Or.inl ⟨-2, by decide, rfl⟩
  · exact Or.inl ⟨-1, by decide, rfl⟩
  · refine Or.inr ⟨by simpa using h₁, by simpa using h₃, ?_, rfl⟩
    by_cases hi : i = ulongMax
    · exact Or.inl hi
    · exact Or.inr (not_not.mp fun hne => h₂ ⟨hi, hne⟩)

/-- An unlocked page in use is locked when no index is asked for. -/
lemma trylockTp_eq (h : (s.pages p).inUse = true) (hl : (s.pages p).locked = false) :
    s.trylockTp p ulongMax = (0, s.modifyPage p fun t => { t with locked := true }) := by
  simp [trylockTp, h, hl]

/-! ### Queues -/

lemma queues_ne {i j : Pgoff} : cleanQueue i ≠ dirtyQueue j := by
  simp [cleanQueue, dirtyQueue]

/-- `insert_page_fifo_buffer_t` -/
lemma Placed.moves_insertPage (h : s.Placed e) (b : Bool) (hp : p < e.numPages)
    (hc : (s.view e p).clean = false) (hd : (s.view e p).dirty = false) :
    Moves e s (s.insertPage p b) p
      { s.view e p with
        page :=
          { s.pages p with bufferId := .biClean, isDirty := (s.pages p).isDirty && !b }
        clean := true } := by
  have hm := h.moves_enqueue (Or.inl rfl) hp hc hd
  have hq : (cleanQueue (s.pages p).index == dirtyQueue (s.pages p).index) = false :=
    beq_eq_false_iff_ne.mpr queues_ne
  simp only [beq_self_eq_true, hq, ← hd] at hm
  cases b with
  | false => simpa [insertPage, cleanQueue, Queue.bufferId] using hm
  | true =>
    have := hm.placed.moves_modifyPage p (f := fun t => { t with isDirty := false }) rfl rfl
    rw [hm.view_self] at this
    have hpage : (s.enqueue (cleanQueue (s.pages p).index) p).2.pages p =
        { s.pages p with bufferId := .biClean } := by
      rw [← view_page e, hm.view_self]
      rfl
    rw [hpage] at this
    simpa [insertPage, setDirty] using hm.trans this

/-- `move_page_c2d_fifo_buffer_t` -/
lemma Placed.moves_movePageC2d (h : s.Placed e) (hc : (s.view e p).clean = true) :
    Moves e s (s.movePageC2d p) p
      { s.view e p with
        page := { s.pages p with bufferId := .biDirty }, clean := false, dirty := true } := by
  have hmem := (view_clean e s p).mp hc
  have hr := h.moves_remove hmem
  have hpage : (s.remove (cleanQueue (s.pages p).index) p).pages p =
      { s.pages p with bufferId := .biNone } := by
    rw [← view_page e, hr.view_self]
  have he := hr.placed.moves_enqueue (p := p) (q := dirtyQueue (s.pages p).index)
    (Or.inr (by rw [hpage])) (h.queue_lt hmem) (by rw [hr.view_self]) (by rw [hr.view_self])
  have hq : (dirtyQueue (s.pages p).index == cleanQueue (s.pages p).index) = false :=
    beq_eq_false_iff_ne.mpr queues_ne.symm
  rw [hr.view_self, hpage] at he
  simp only [beq_self_eq_true, hq] at he
  exact hr.trans he

/-- `move_page_d2c_fifo_buffer_t` -/
lemma Placed.moves_movePageD2c (h : s.Placed e) (hd : (s.view e p).dirty = true) :
    Moves e s (s.movePageD2c p) p
      { s.view e p with
        page := { s.pages p with bufferId := .biClean, isDirty := false }
        clean := true, dirty := false } := by
  have hmem := (view_dirty e s p).mp hd
  have hr := h.moves_remove hmem
  have hpage : (s.remove (dirtyQueue (s.pages p).index) p).pages p =
      { s.pages p with bufferId := .biNone } := by
    rw [← view_page e, hr.view_self]
  have he := hr.placed.moves_insertPage true (h.queue_lt hmem)
    (by rw [hr.view_self]) (by rw [hr.view_self])
  rw [hr.view_self, hpage] at he
  have heq : s.movePageD2c p = (s.remove (dirtyQueue (s.pages p).index) p).insertPage p true := by
    simp [movePageD2c, insertPage, hpage]
  rw [heq]
  simpa using hr.trans he

/-- A transition that the view does not show. -/
structure Keeps (e : Env C) (s s' : State C) : Prop where
  placed : s'.Placed e
  view_eq : s'.view e = s.view e

lemma Moves.keeps {s' : State C} (h : Moves e s s' p (s.view e p)) : Keeps e s s' :=
  ⟨h.placed, by rw [h.view_eq, Function.update_eq_self]⟩

/-- A condition that locks the page it accepts, and accepts only pages with property `K`. -/
def Locks (cond : State C → PageId → Bool × State C) (K : State C → PageId → Prop) : Prop :=
  ∀ s p, cond s p = (false, s) ∨
    (cond s p = (true, s.modifyPage p fun t => { t with locked := true }) ∧
      (s.pages p).inUse = true ∧ (s.pages p).locked = false ∧ K s p)

lemma locks_evDeq : Locks (C := C) evDeq fun _ _ => True := by
  intro s p
  rcases s.trylockTp_cases p ulongMax with ⟨r, hr, h⟩ | ⟨hu, hl, -, h⟩
  · exact Or.inl (by simp [evDeq, h, hr])
  · exact Or.inr ⟨by simp [evDeq, h], hu, hl, trivial⟩

lemma locks_deq : Locks (C := C) deq fun s p =>
    ∃ v, (s.pages p).pvd = some v ∧ (s.pvds v).duringUnlink = false := by
  intro s p
  simp only [deq]
  split
  · exact Or.inl rfl
  · rename_i v hv
    split_ifs with hdu
    · exact Or.inl rfl
    · rcases s.trylockTp_cases p ulongMax with ⟨r, hr, h⟩ | ⟨hu, hl, -, h⟩
      · exact Or.inl (by simp [h, hr])
      · exact Or.inr ⟨by simp [h], hu, hl, v, hv, by simpa using hdu⟩

section dequeue

variable {cond : State C → PageId → Bool × State C} {K : State C → PageId → Prop} {q : Queue}

lemma Placed.moves_lock_remove (h : s.Placed e) (hq : p ∈ (s.queues q).buffer) :
    Moves e s ((s.modifyPage p fun t => { t with locked := true }).remove q p) p
      (s.view e p).dequeued := by
  have hm := h.moves_modifyPage p (f := fun t => { t with locked := true }) rfl rfl
  have hr := hm.placed.moves_remove (p := p) (q := q) hq
  rw [hm.view_self] at hr
  have := hm.trans hr
  simpa [PageView.dequeued, modifyPage] using this

/-- `dequeue_if`: nothing visible happens, or one page of the queue is locked and taken out. -/
lemma Placed.dequeueIf_cases (h : s.Placed e) (hc : Locks cond K) :
    (∃ s', s.dequeueIf q cond = (none, s') ∧ Keeps e s s') ∨
    ∃ p s', s.dequeueIf q cond = (some p, s') ∧ p ∈ (s.queues q).buffer ∧
      (s.pages p).inUse = true ∧ (s.pages p).locked = false ∧ K s p ∧
      Moves e s s' p (s.view e p).dequeued := by
  simp only [dequeueIf]
  split_ifs with hz
  · exact Or.inl ⟨s, rfl, h, rfl⟩
  · cases hb : (s.queues q).buffer with
    | nil => exact Or.inl ⟨s, rfl, h, rfl⟩
    | cons p rest =>
      have hp : p ∈ (s.queues q).buffer := by simp [hb]
      rcases hc s p with hf | ⟨ht, hu, hl, hk⟩
      · exact Or.inl ⟨s.rotate q p, by simp [hf], (h.moves_rotate hp).keeps⟩
      · exact Or.inr ⟨p, _, by simp only [ht], by simp, hu, hl, hk, h.moves_lock_remove hp⟩

/-- `remove_if` on a page of the queue. -/
lemma Placed.removeIf_cases (h : s.Placed e) (hc : Locks cond K) (hp : p ∈ (s.queues q).buffer) :
    s.removeIf q p cond = (false, s) ∨
    ∃ s', s.removeIf q p cond = (true, s') ∧ (s.pages p).inUse = true ∧
      (s.pages p).locked = false ∧ K s p ∧ Moves e s s' p (s.view e p).dequeued := by
  simp only [removeIf]
  rcases hc s p with hf | ⟨ht, hu, hl, hk⟩
  · exact Or.inl (by simp [hf])
  · exact Or.inr ⟨_, by simp only [ht], hu, hl, hk, h.moves_lock_remove hp⟩

end dequeue

/-! ### Free pages -/

lemma Placed.moves_freePageLock (h : s.Placed e) (hp : p < e.numPages)
    (hu : (s.view e p).Unlinked) (hf : (s.view e p).free = false)
    (hcpu : (s.pages p).cpuid = e.home p) :
    Moves e s (s.freePageLock p) p (s.view e p).freed := by
  have h₁ : Moves e s (s.freeClear p) p _ :=
    h.moves_modifyPage_out _ hu.clean hu.dirty hu.tree
  have h₂ : Moves e (s.freeClear p) ((s.freeClear p).unlockTp p) p _ :=
    h₁.placed.moves_modifyPage p rfl rfl
  have h₃ := h₂.placed.moves_freeLink hp (by rw [h₂.view_self, h₁.view_self]; exact hf)
  rw [h₂.view_self, h₁.view_self] at h₃
  have := (h₁.trans h₂).trans h₃
  rw [freePageLock, hcpu]
  simpa [PageView.freed, freeClear, modifyPage] using this

lemma Placed.takeFree_cases (h : s.Placed e) (cpus : List ℕ) :
    s.takeFree cpus = (none, s) ∨
    ∃ p s', s.takeFree cpus = (some p, s') ∧ (s.view e p).free = true ∧
      Moves e s s' p ((s.view e p).taken (e.home p)) := by
  induction cpus with
  | nil => exact Or.inl rfl
  | cons cpu cpus ih =>
    cases hl : s.fl cpu with
    | nil => simpa only [takeFree, hl] using ih
    | cons p rest =>
      have hp : p ∈ s.fl cpu := by simp [hl]
      refine Or.inr ⟨p, _, by simp only [takeFree, hl], ?_, h.moves_takeFree hl⟩
      rw [view_free, h.fl_home hp]
      exact hp

/-- What links a state to the one in which a page is off its free list, links it to the one after
all nodes have been searched. -/
lemma scanNodes_rule {R : State C → State C → Prop} (hrefl : ∀ s, R s s)
    (htrans : ∀ {s t u}, R s t → R t u → R s u)
    (htake : ∀ (s : State C) cpu p rest,
      R s ({ s with fl := Function.update s.fl cpu rest }.modifyPage p
        fun t => { t with cpuid := cpu }))
    (e : Env C) (s : State C) (nodes : List ℕ) (found : Option PageId) :
    R s (s.scanNodes e nodes found).2 := by
  have hcpus : ∀ (s : State C) (cpus : List ℕ), R s (s.takeFree cpus).2 := by
    intro s cpus
    induction cpus with
    | nil => exact hrefl s
    | cons cpu cpus ih =>
      simp only [takeFree]
      split
      · exact ih
      · exact htake s cpu _ _
  induction nodes generalizing s found with
  | nil => exact hrefl s
  | cons node nodes ih =>
    simp only [scanNodes]
    split
    · exact ih s found
    · exact htrans (hcpus s _) (ih _ _)

/-- The pages that changed are free pages that were taken off their lists. -/
structure Takes (e : Env C) (s s' : State C) : Prop where
  placed : s'.Placed e
  view_cases (q : PageId) : s'.view e q = s.view e q ∨
    ((s.view e q).free = true ∧ s'.view e q = (s.view e q).taken (e.home q))

/-- `alloc_page_lock` takes pages off the free lists; the one it returns is among them. With
several nodes there can be others, which it forgets. -/
lemma Takes.scanNodes {s₀ : State C} (h : Takes e s₀ s) (found : Option PageId)
    (hf : ∀ p, found = some p →
      (s₀.view e p).free = true ∧ s.view e p = (s₀.view e p).taken (e.home p)) (nodes : List ℕ) :
    Takes e s₀ (s.scanNodes e nodes found).2 ∧
    ∀ p, (s.scanNodes e nodes found).1 = some p → (s₀.view e p).free = true ∧
      (s.scanNodes e nodes found).2.view e p = (s₀.view e p).taken (e.home p) := by
  induction nodes generalizing s found with
  | nil => exact ⟨h, hf⟩
  | cons node nodes ih =>
    cases hc : e.cpumaskOfNode node with
    | nil => simpa only [State.scanNodes, hc] using ih h found hf
    | cons cpu cpus =>
      simp only [State.scanNodes, hc]
      rcases h.placed.takeFree_cases (cpu :: cpus) with ht | ⟨p, s', ht, hfree, hm⟩
      · rw [ht]
        exact ih h none (by simp)
      · rw [ht]
        have hold : s.view e p = s₀.view e p := by
          rcases h.view_cases p with hq | ⟨-, hq⟩
          · exact hq
          · rw [hq] at hfree
            exact absurd hfree Bool.false_ne_true
        have hself : s'.view e p = (s₀.view e p).taken (e.home p) := by
          rw [hm.view_self, hold]
        refine ih ⟨hm.placed, fun q => ?_⟩ (some p) ?_
        · by_cases hq : q = p
          · subst hq
            exact Or.inr ⟨hold ▸ hfree, hself⟩
          · rw [hm.view_of_ne hq]
            exact h.view_cases q
        · intro q hq
          obtain rfl : p = q := by simpa using hq
          exact ⟨hold ▸ hfree, hself⟩

/-- `alloc_page_lock`, when the free pages are linked nowhere else. -/
lemma Placed.allocPageLock_cases (h : s.Placed e)
    (hfree : ∀ p, (s.view e p).free = true → (s.view e p).Unlinked) (node : ℕ) (offset : Pgoff)
    (v : PvdId) :
    (∃ s', s.allocPageLock e node offset v = (none, s') ∧
      s.scanNodes e (e.numaDv node) none = (none, s') ∧ Takes e s s') ∨
    ∃ p s₁ s', s.allocPageLock e node offset v = (some p, s') ∧
      s.scanNodes e (e.numaDv node) none = (some p, s₁) ∧ Takes e s s₁ ∧
      (s.view e p).free = true ∧
      Moves e s₁ s' p ((s.view e p).allocated (e.home p) offset v) := by
  obtain ⟨ht, hsome⟩ :=
    (show Takes e s s from ⟨h, fun _ => Or.inl rfl⟩).scanNodes none (by simp) (e.numaDv node)
  simp only [allocPageLock]
  rcases hr : s.scanNodes e (e.numaDv node) none with ⟨_ | p, s₁⟩
  · rw [hr] at ht
    exact Or.inl ⟨s₁, rfl, rfl, ht⟩
  · rw [hr] at ht hsome
    obtain ⟨hf, hv⟩ := hsome p rfl
    have hu := hfree p hf
    refine Or.inr ⟨p, s₁, _, rfl, rfl, ht, hf, ?_⟩
    have hm := ht.placed.moves_modifyPage_out (p := p) (fun t =>
      { t with
        pageValid := false, bufferId := .biNone, index := offset, pvd := some v
        isDirty := false, rmap := fun _ => .reset, inUse := true })
      (by rw [hv]; exact hu.clean) (by rw [hv]; exact hu.dirty)
      (fun k => by rw [hv]; exact hu.tree k)
    have hpage : s₁.pages p = { s.pages p with cpuid := e.home p } := by
      rw [← view_page e, hv]
      rfl
    rw [hv, hpage] at hm
    exact hm

/-! ### Page tables -/

lemma mapping_eq_some {a : VmaId × ℕ} {w : Bool} : s.mapping p a = some w ↔ s.pte a = .map p w := by
  simp only [mapping]
  cases s.pte a with
  | none => simp
  | map q b =>
    by_cases hq : q = p <;> simp [hq]

lemma mapping_setPte_self (vma : VmaId) (a : ℕ) (w : Option Bool) :
    (s.setPte vma a (Pte.ofPerm p w)).mapping p = Function.update (s.mapping p) (vma, a) w := by
  funext b
  by_cases hb : b = (vma, a)
  · subst hb
    cases w <;> simp [mapping, setPte, Pte.ofPerm]
  · simp [mapping, setPte, hb]

/-- Only the page that an entry maps sees that the entry changes. -/
lemma Placed.moves_setPte (h : s.Placed e) (vma : VmaId) (a : ℕ)
    (hold : ∀ q w, s.pte (vma, a) = .map q w → q = p) (w : Option Bool) :
    Moves e s (s.setPte vma a (Pte.ofPerm p w)) p
      { s.view e p with pte := Function.update (s.view e p).pte (vma, a) w } := by
  apply Moves.of_views
  · exact { h with }
  · exact view_eq_of rfl (view_free e s p).symm (view_clean e s p).symm (view_dirty e s p).symm rfl
      (mapping_setPte_self vma a w)
  · intro q hq
    refine view_eq_of rfl (view_free e s q).symm (view_clean e s q).symm
      (view_dirty e s q).symm rfl (funext fun b => ?_)
    by_cases hb : b = (vma, a)
    · subst hb
      have hnone : s.mapping q (vma, a) = none := by
        refine Option.eq_none_iff_forall_ne_some.mpr fun b hb => ?_
        exact hq (hold q b (mapping_eq_some.mp hb))
      rw [show (s.view e q).pte (vma, a) = none from hnone]
      cases w <;> simp [mapping, setPte, Pte.ofPerm, Ne.symm hq]
    · simp [view, mapping, setPte, hb]

/-- Applied to an entry that maps some other page, nothing happens. -/
lemma Placed.moves_wrprotect (h : s.Placed e) (r : PrVmaRmap) :
    Moves e s (s.wrprotect p r) p
      { s.view e p with
        pte := Function.update (s.view e p).pte (r.vma, r.vaddr)
          (((s.view e p).pte (r.vma, r.vaddr)).map fun _ => false) } := by
  have hv : (s.view e p).pte (r.vma, r.vaddr) = s.mapping p (r.vma, r.vaddr) := rfl
  by_cases hm : ∃ w, s.pte (r.vma, r.vaddr) = .map p w
  · obtain ⟨w, hw⟩ := hm
    have := h.moves_setPte (p := p) r.vma r.vaddr
      (fun q b hq => (Pte.map.inj (hw.symm.trans hq)).1.symm) (some false)
    rw [hv, mapping_eq_some.mpr hw]
    simpa [wrprotect, hw, Pte.ofPerm] using this
  · have hnone : s.mapping p (r.vma, r.vaddr) = none :=
      Option.eq_none_iff_forall_ne_some.mpr fun w hw => hm ⟨w, mapping_eq_some.mp hw⟩
    have hsame : s.wrprotect p r = s := by
      simp only [wrprotect]
      split
      · rename_i q b hq
        rw [if_neg]
        rintro rfl
        exact hm ⟨b, hq⟩
      · rfl
    rw [hsame, hv, hnone, Option.map_none, ← hnone, ← hv, Function.update_eq_self]
    exact h.moves_refl p

lemma Placed.moves_zapPage (h : s.Placed e) (r : PrVmaRmap) :
    Moves e s (s.zapPage p r) p
      { s.view e p with pte := Function.update (s.view e p).pte (r.vma, r.vaddr) none } := by
  by_cases hm : ∃ w, s.pte (r.vma, r.vaddr) = .map p w
  · obtain ⟨w, hw⟩ := hm
    have := h.moves_setPte (p := p) r.vma r.vaddr
      (fun q b hq => (Pte.map.inj (hw.symm.trans hq)).1.symm) none
    simpa [zapPage, hw, Pte.ofPerm] using this
  · have hnone : (s.view e p).pte (r.vma, r.vaddr) = none :=
      Option.eq_none_iff_forall_ne_some.mpr fun w hw => hm ⟨w, mapping_eq_some.mp hw⟩
    have hsame : s.zapPage p r = s := by
      simp only [zapPage]
      split
      · rename_i q b hq
        rw [if_neg]
        rintro rfl
        exact hm ⟨b, hq⟩
      · rfl
    rw [hsame, ← hnone, Function.update_eq_self]
    exact h.moves_refl p

/-- Bookkeeping of the areas is not part of the view. -/
lemma Placed.keeps_unlinkRmap (h : s.Placed e) (i : Fin maxRmapsPerPage) :
    Keeps e s (s.unlinkRmap p i) := ⟨{ h with }, rfl⟩

lemma Placed.keeps_linkRmap (h : s.Placed e) (x : PveId) (cpu : ℕ) (i : Fin maxRmapsPerPage) :
    Keeps e s (s.linkRmap x cpu p i) := ⟨{ h with }, rfl⟩

/-- A loop over the slots of one page. -/
lemma Placed.moves_foldl_slots (h : s.Placed e) {f : State C → Fin maxRmapsPerPage → State C}
    {g : PageView C → Fin maxRmapsPerPage → PageView C}
    (hf : ∀ s i, s.Placed e → Moves e s (f s i) p (g (s.view e p) i))
    (l : List (Fin maxRmapsPerPage)) :
    Moves e s (l.foldl f s) p (l.foldl g (s.view e p)) := by
  induction l generalizing s with
  | nil => exact h.moves_refl p
  | cons i l ih =>
    have hm := hf s i h
    have := ih hm.placed
    rw [hm.view_self] at this
    exact hm.trans this

lemma Placed.moves_clearMappings (h : s.Placed e) :
    Moves e s (s.clearMappings p) p (s.view e p).wrprotected := by
  refine h.moves_foldl_slots (fun s i h => ?_) _
  by_cases hv : ((s.pages p).rmap i).valid = true
  · simp only [PageView.protectSlot, view_page, hv, if_true]
    exact h.moves_wrprotect _
  · simp only [PageView.protectSlot, view_page, hv]
    exact h.moves_refl p

lemma Placed.moves_removeMappings (h : s.Placed e) :
    Moves e s (s.removeMappings p) p (s.view e p).unmapped := by
  refine h.moves_foldl_slots (fun s i h => ?_) _
  by_cases hv : ((s.pages p).rmap i).valid = true
  · simp only [PageView.unmapSlot, view_page, hv, if_true]
    have hz := h.moves_zapPage (p := p) ((s.pages p).rmap i)
    have hpage : (s.zapPage p ((s.pages p).rmap i)).pages p = s.pages p := by
      rw [← view_page e, hz.view_self]
      rfl
    have hr := hz.placed.moves_modifyPage p (f := fun t =>
      { t with rmap := Function.update t.rmap i { (s.pages p).rmap i with valid := false } })
      rfl rfl
    rw [hz.view_self, hpage] at hr
    have hk := hr.placed.keeps_unlinkRmap (p := p) i
    exact ⟨hk.placed, hk.view_eq.trans (hz.trans hr).view_eq⟩
  · simp only [PageView.unmapSlot, view_page, hv]
    exact h.moves_refl p

/-- `dmap_add_or_update_rmap`: the area has a slot already, or is given an unused one. -/
lemma Placed.dmapAddOrUpdateRmap_cases (h : s.Placed e) {vmf : VmFault} {cpu : ℕ} {s' : State C}
    (hs : s.dmapAddOrUpdateRmap vmf p cpu = .ok s') :
    s'.outside = s.outside ∧
    ((∃ i, ((s.pages p).rmap i).valid = true ∧ ((s.pages p).rmap i).vma = vmf.vma ∧ s' = s) ∨
    ∃ i, ((s.pages p).rmap i).valid = false ∧
      (∀ j, ((s.pages p).rmap j).valid = true → ((s.pages p).rmap j).vma ≠ vmf.vma) ∧
      Moves e s s' p
        { s.view e p with
          page := { s.pages p with
            rmap := Function.update (s.pages p).rmap i ⟨true, vmf.vma, vmf.address, cpu⟩ } }) := by
  simp only [dmapAddOrUpdateRmap] at hs
  split at hs
  · rename_i i hi
    obtain rfl : s = s' := by simpa using hs
    have hfound := List.find?_some hi
    simp only [Bool.and_eq_true, beq_iff_eq] at hfound
    exact ⟨rfl, Or.inl ⟨i, hfound.1, hfound.2, rfl⟩⟩
  · rename_i hno
    have hnone : ∀ j, ((s.pages p).rmap j).valid = true → ((s.pages p).rmap j).vma ≠ vmf.vma := by
      intro j hj hvma
      have := List.find?_eq_none.mp hno j (List.mem_finRange j)
      simp [hj, hvma] at this
    split at hs
    · exact absurd hs (by simp)
    · rename_i i hi
      have hfree : ((s.pages p).rmap i).valid = false := by
        have := List.mem_of_getLast? hi
        simpa using (List.mem_filter.mp this).2
      split at hs
      · exact absurd hs (by simp)
      · rename_i x hx
        obtain rfl : _ = s' := by simpa using hs
        have hr := h.moves_modifyPage p (f := fun t =>
          { t with rmap := Function.update t.rmap i ⟨true, vmf.vma, vmf.address, cpu⟩ }) rfl rfl
        have hk := hr.placed.keeps_linkRmap (p := p) x cpu i
        exact ⟨rfl, Or.inr ⟨i, hfree, hnone, ⟨hk.placed, hk.view_eq.trans hr.view_eq⟩⟩⟩

end State

end FastMap
