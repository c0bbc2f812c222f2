import FastMap.System

/-!
# Where the pages are, and which of them are dirty

Consequences for every sequence of completed calls. On a machine with one NUMA node each page is in
exactly one list of the buffer, so the queues never overflow. On any machine the flag, the queue and
the tree agree on which pages are dirty.
-/

namespace FastMap

variable {C : Type*}

/-- The lists of the buffer that can hold a page. -/
inductive Slot where
  | free (cpu : ℕ)
  | queue (q : Queue)
  deriving DecidableEq

/-- The list a page belongs to, by its own fields. -/
def TaggedPage.Belongs (t : TaggedPage C) (cpu : ℕ) : Slot → Prop
  | .free c => c = cpu ∧ t.bufferId = .biNone
  | .queue q => (q = cleanQueue t.index ∧ t.bufferId = .biClean) ∨
      (q = dirtyQueue t.index ∧ t.bufferId = .biDirty)

namespace State

def slot (s : State C) : Slot → List PageId
  | .free cpu => s.fl cpu
  | .queue q => (s.queues q).buffer

variable {e : Env C} {s s' : State C} {p : PageId}

lemma Placed.slot_nodup (h : s.Placed e) (l : Slot) : (s.slot l).Nodup := by
  cases l with
  | free cpu => exact h.fl_nodup cpu
  | queue q => exact h.queue_nodup q

/-- A page that is in one list only is there once. -/
lemma Placed.count_slot (h : s.Placed e) {l : Slot} (hl : ∀ l', p ∈ s.slot l' ↔ l' = l)
    (l' : Slot) : (s.slot l').count p = if l' = l then 1 else 0 := by
  split_ifs with hll
  · exact List.count_eq_one_of_mem (h.slot_nodup l') ((hl l').mpr hll)
  · exact List.count_eq_zero.mpr fun hm => hll ((hl l').mp hm)

/-- Initialisation uses the lists of the CPUs that there are. -/
lemma home_lt (hp : p < e.numPages) : e.home p < e.ncpus := by
  apply Nat.div_lt_of_lt_mul
  rwa [Nat.mul_comm]

lemma Placed.mem_fl_iff (h : s.Placed e) {cpu : ℕ} :
    p ∈ s.fl cpu ↔ (s.view e p).free = true ∧ cpu = e.home p := by
  rw [view_free]
  constructor
  · intro hp
    have hc := h.fl_home hp
    exact ⟨hc ▸ hp, hc.symm⟩
  · rintro ⟨hp, rfl⟩
    exact hp

lemma Placed.mem_queue_iff (h : s.Placed e) {q : Queue} :
    p ∈ (s.queues q).buffer ↔
      ((s.view e p).clean = true ∧ q = cleanQueue (s.pages p).index) ∨
      ((s.view e p).dirty = true ∧ q = dirtyQueue (s.pages p).index) := by
  rw [view_clean, view_dirty]
  constructor
  · intro hp
    rcases h.queue_own hp with rfl | rfl
    · exact Or.inl ⟨hp, rfl⟩
    · exact Or.inr ⟨hp, rfl⟩
  · rintro (⟨hp, rfl⟩ | ⟨hp, rfl⟩) <;> exact hp

/-- An idle page on its free list is nowhere else. -/
lemma Placed.slot_idle (h : s.Placed e) (hi : Idle (s.view e p)) (hf : (s.view e p).free = true)
    (l : Slot) : p ∈ s.slot l ↔ l = .free (e.home p) := by
  cases l with
  | free cpu => simpa [slot, hf] using h.mem_fl_iff (p := p)
  | queue q => simp [slot, h.mem_queue_iff, hi.unlinked.clean, hi.unlinked.dirty]

/-- A resident page is in the queue that its state of dirtiness names. -/
lemma Placed.slot_resident (h : s.Placed e) (hr : Resident e p (s.view e p)) (l : Slot) :
    p ∈ s.slot l ↔ l = .queue (if (s.pages p).isDirty then dirtyQueue (s.pages p).index
      else cleanQueue (s.pages p).index) := by
  have hc := hr.clean
  have hd := hr.dirty
  simp only [view_page] at hc hd
  cases l with
  | free cpu => simp [slot, h.mem_fl_iff, hr.free]
  | queue q =>
    simp only [slot, h.mem_queue_iff, hc, hd, Slot.queue.injEq]
    cases (s.pages p).isDirty <;> simp

/-! ### `BUG()` -/

lemma findPage_error {v : PvdId} {offset : Pgoff} {as : List Attempt} {x : Halt}
    (h : findPage e v offset as s = .error x) : x = .spin := by
  induction as generalizing s with
  | nil => simpa [findPage, eq_comm] using h
  | cons a as ih =>
    simp only [findPage] at h
    split at h
    · split at h
      · exact ih h
      · split at h
        · exact absurd h (by simp)
        · exact ih h
    · split at h
      · exact absurd h (by simp)
      · exact ih h

lemma dmapAddOrUpdateRmap_error {vmf : VmFault} {cpu : ℕ} {x : Halt}
    (h : s.dmapAddOrUpdateRmap vmf p cpu = .error x) : x = .rmapOverflow ∨ x = .nullDeref := by
  simp only [dmapAddOrUpdateRmap] at h
  repeat' split at h
  all_goals simp at h
  · exact Or.inl h.symm
  · exact Or.inr h.symm

lemma map_rmap_error {vmf : VmFault} {cpu : ℕ} {α : Type*} {g : State C → α} {x : Halt}
    (h : (s.dmapAddOrUpdateRmap vmf p cpu).map g = .error x) :
    s.dmapAddOrUpdateRmap vmf p cpu = .error x := by
  cases hr : s.dmapAddOrUpdateRmap vmf p cpu with
  | error y =>
    rw [hr] at h
    rw [Except.error.inj h]
  | ok t =>
    rw [hr] at h
    simp [Except.map] at h

/-- How a read fault may go wrong. -/
lemma fault_error {vma : VmaId} {i : ℕ} {f : FaultEnv C} {x : Halt}
    (h : s.fault e vma i f = .error x) : x ≠ .bug ∧ x ≠ .heapOverflow := by
  simp only [fault] at h
  split at h
  · rename_i y hx
    obtain rfl : y = x := by simpa using h
    simp only [permaGetpage] at hx
    split at hx
    · obtain rfl : .nullDeref = y := by simpa using hx
      simp
    · split_ifs at hx
      · obtain rfl : .efault = y := by simpa using hx
        simp
      · obtain rfl : .nullDeref = y := by simpa using hx
        simp
      · split at hx
        · rename_i z hz
          obtain rfl : z = y := by simpa using hx
          simp [findPage_error hz]
        · split_ifs at hx
          · rcases dmapAddOrUpdateRmap_error (map_rmap_error hx) with rfl | rfl <;> simp
          · obtain rfl : .spin = y := by simpa using hx
            simp
        · rcases dmapAddOrUpdateRmap_error (map_rmap_error hx) with rfl | rfl <;> simp
  · exact absurd h (by simp)

lemma pullTree_error {v : PvdId} {cpu : ℕ} {h : MinHeap} {x : Halt}
    (hs : s.pullTree v cpu h = .error x) : x ≠ .bug := by
  simp only [pullTree] at hs
  rintro rfl
  split at hs
  · exact absurd hs (by simp)
  · split at hs
    · simp only [minHeapInsert] at hs
      split_ifs at hs
      simp at hs
    · exact absurd hs (by simp)

lemma drain_error {cb : Cleanup} {v : PvdId} {fuel : ℕ} {h : MinHeap} {pgs : List PageId} {x : Halt}
    (hs : drain e cb v fuel h pgs s = .error x) : x ≠ .bug := by
  induction fuel generalizing h pgs s with
  | zero =>
    rintro rfl
    simp [drain] at hs
  | succ fuel ih =>
    simp only [drain] at hs
    by_cases hz : h.size = 0
    · simp [hz] at hs
    · rw [if_neg hz] at hs
      split at hs
      · rename_i y hy
        obtain rfl : y = x := by simpa using hs
        exact pullTree_error hy
      · split_ifs at hs <;> exact ih hs

lemma fillHeap_error {v : PvdId} {cpus : List ℕ} {h : MinHeap} {x : Halt}
    (hs : fillHeap v cpus s h = .error x) : x ≠ .bug := by
  induction cpus generalizing h s with
  | nil => simp [fillHeap] at hs
  | cons cpu cpus ih =>
    simp only [fillHeap] at hs
    split at hs
    · rename_i y hy
      obtain rfl : y = x := by simpa using hs
      exact pullTree_error hy
    · exact ih hs

lemma writeDirtyPages_error {cb : Cleanup} {v : PvdId} {x : Halt}
    (hs : s.writeDirtyPages e cb v = .error x) : x ≠ .bug := by
  simp only [writeDirtyPages] at hs
  split at hs
  · rename_i y hy
    obtain rfl : y = x := by simpa using hs
    exact fillHeap_error hy
  · exact drain_error hs

lemma clearRadix_error {v : PvdId} {dispose : State C → PageId → State C} {fuel : ℕ} {x : Halt}
    (hs : clearRadix e v dispose fuel s = .error x) : x = .spin := by
  induction fuel generalizing s with
  | zero =>
    rw [clearRadix] at hs
    split at hs
    · exact absurd hs (by simp)
    · simpa [eq_comm] using hs
  | succ fuel ih =>
    rw [clearRadix] at hs
    split at hs
    · exact absurd hs (by simp)
    · dsimp only at hs
      split at hs
      · exact ih hs
      · simpa [eq_comm] using hs

/-- No call that is made between calls reaches the `BUG()`. -/
lemma Quiet.exec_ne_bug (h : s.Quiet e) {op : Op C} (hi : s.issued e op = true) :
    s.exec e op ≠ .error .bug := by
  cases op with
  | fault vma i f => exact fun hs => (fault_error hs).1 rfl
  | mkwrite vma i => exact h.inv.mkwrite_ne_bug hi
  | store vma i f =>
    simp only [exec, State.store]
    split <;> simp
  | evictor id held => simp [exec]
  | writeDirty cb v => exact fun hs => writeDirtyPages_error hs rfl
  | purge qid => simp [exec]
  | rawRelease v =>
    intro hs
    simp only [exec, State.rawRelease] at hs
    split at hs
    · rename_i y hy
      obtain rfl : y = .bug := by simpa using hs
      exact writeDirtyPages_error hy rfl
    · exact absurd (clearRadix_error hs) (by simp)

/-! ### The main results -/

/-- Faults, a write fault, an evictor round, a sync and a release on a machine with four pages. -/
def smallCalls : List (Op ℕ) :=
  [.fault 0 0 smallFault, .mkwrite 0 0, .evictor 0 [], .fault 0 1 smallFault, .mkwrite 0 1,
    .writeDirty .fsync 0, .fault 0 2 smallFault, .rawRelease 0]

/-- A page in use is dirty by its flag exactly when it is in its dirty queue, and exactly when the
dirty tree of its file holds it; and no dirty tree holds a free page. -/
def DirtyRecordsAgree (e : Env C) (s : State C) : Prop :=
  (∀ p v i, (s.pages p).inUse = true → (s.pages p).pvd = some v → (s.pages p).index = i →
    ((s.pages p).isDirty = true ↔
      p ∈ (s.queues (.dirty ((i >>> 9) % evictorThreads))).buffer) ∧
    ((s.pages p).isDirty = true ↔ (s.trees ⟨.dirty, v, i % e.ncpus⟩).lookup i = some p)) ∧
  ∀ v cpu i p, (s.trees ⟨.dirty, v, cpu⟩).lookup i = some p → ∀ c, p ∉ s.fl c

lemma Quiet.dirtyRecordsAgree (hq : s.Quiet e) : s.DirtyRecordsAgree e := by
  constructor
  · rintro p v i hu hv rfl
    have hres : Resident e p (s.view e p) :=
      (hq.page p).phase.resolve_left fun hi => Bool.false_ne_true (hi.inUse.symm.trans hu)
    have hd := hres.dirty
    have ht := hres.tree
    simp only [view_page] at hd ht
    constructor
    · rw [← hd]
      exact view_dirty e s p
    · rw [← ht]
      exact ⟨fun h => hq.placed.treeLookup_iff.mpr ⟨h, hv, rfl⟩,
        fun h => (hq.placed.treeLookup_iff.mp h).1⟩
  · intro v cpu i p hl c hp
    have htree := hq.placed.tree_of_lookup hl
    obtain ⟨hf, -⟩ := hq.placed.mem_fl_iff.mp hp
    have hi := Idle.of_free (hq.page p).phase hf
    exact Bool.false_ne_true ((hi.unlinked.tree .dirty).symm.trans htree)

/-! ### The threshold of the evictors -/

/-- `dirty_size` before it is stored in an `unsigned int`. -/
def dirtySize (s : State C) : ℕ :=
  ((List.range evictorThreads).map fun i => (s.queues (.dirty i)).size).sum

/-- No page is on a free list or in a clean queue. Between calls none is in transit. -/
structure Exhausted (s : State C) : Prop where
  free (p : PageId) (cpu : ℕ) : p ∉ s.fl cpu
  clean (p : PageId) (i : ℕ) : p ∉ (s.queues (.clean i)).buffer

/-- The number of pages that are not in use. When no page is on a free list these are the pages that
`alloc_page_lock` has taken off their lists and not returned. -/
def forgotten (e : Env C) (s : State C) : ℕ :=
  (List.range e.numPages).countP fun p => !(s.pages p).inUse

/-- A page in a dirty queue is in one of the evictors' queues. -/
lemma Placed.dirty_lt (h : s.Placed e) {i : ℕ} (hp : p ∈ (s.queues (.dirty i)).buffer) :
    i < evictorThreads := by
  rcases h.queue_own hp with hq | hq
  · simp [cleanQueue] at hq
  · obtain rfl : i = _ := Queue.dirty.inj hq
    exact Nat.mod_lt _ (by decide)

/-- When nothing else is left, the pages in use are those of the dirty queues. -/
lemma Quiet.inUse_iff_of_exhausted (h : s.Quiet e) (hx : s.Exhausted) {p : PageId} :
    (s.pages p).inUse = true ↔ ∃ i, p ∈ (s.queues (.dirty i)).buffer := by
  constructor
  · intro hu
    have hres : Resident e p (s.view e p) :=
      (h.page p).phase.resolve_left fun hi => Bool.false_ne_true (hi.inUse.symm.trans hu)
    have hclean := hres.clean
    have hdirty := hres.dirty
    cases hd : (s.pages p).isDirty with
    | false =>
      rw [view_page, hd] at hclean
      exact absurd ((view_clean e s p).mp hclean) (hx.clean p _)
    | true =>
      rw [view_page, hd] at hdirty
      exact ⟨_, (view_dirty e s p).mp hdirty⟩
  · rintro ⟨i, hp⟩
    rcases (h.page p).phase with hi | hres
    · exact absurd hp (h.placed.not_mem_queue hi.unlinked.clean hi.unlinked.dirty _)
    · exact hres.inUse

/-- They are all pages but the forgotten ones. -/
lemma Quiet.dirtySize_eq (h : s.Quiet e) (hx : s.Exhausted) :
    s.dirtySize = e.numPages - s.forgotten e := by
  have hnodup : ((List.range evictorThreads).flatMap fun i =>
      (s.queues (.dirty i)).buffer).Nodup := by
    rw [List.nodup_flatMap]
    refine ⟨fun i _ => h.placed.queue_nodup _,
      List.nodup_range.pairwise_of_forall_ne fun i _ j _ hij => ?_⟩
    intro p hi hj
    exact hij (Queue.dirty.inj (h.placed.queue_one hi hj))
  have hperm : ((List.range evictorThreads).flatMap fun i => (s.queues (.dirty i)).buffer).Perm
      ((List.range e.numPages).filter fun p => (s.pages p).inUse) := by
    rw [List.perm_ext_iff_of_nodup hnodup (List.nodup_range.filter _)]
    intro p
    simp only [List.mem_flatMap, List.mem_range, List.mem_filter, h.inUse_iff_of_exhausted hx]
    constructor
    · rintro ⟨i, -, hp⟩
      exact ⟨h.placed.queue_lt hp, i, hp⟩
    · rintro ⟨-, i, hp⟩
      exact ⟨i, h.placed.dirty_lt hp, hp⟩
  have hlen := hperm.length_eq
  rw [List.length_flatMap, ← List.countP_eq_length_filter] at hlen
  have hsum : s.dirtySize = (List.range e.numPages).countP fun p => (s.pages p).inUse := by
    rw [← hlen, dirtySize]
    simp only [h.placed.queue_size]
  have hsplit := List.length_eq_countP_add_countP (fun p => (s.pages p).inUse)
    (l := List.range e.numPages)
  rw [List.length_range] at hsplit
  rw [hsum, forgotten]
  simp only [Bool.not_eq_true, Bool.decide_eq_false] at hsplit
  omega

/-- On a single node no page is forgotten. -/
lemma Quiet.forgotten_eq_zero (h : s.Quiet e) (ho : e.OneNode) (hx : s.Exhausted) :
    s.forgotten e = 0 := by
  rw [forgotten, List.countP_eq_zero]
  intro p hp hu
  have hu : (s.pages p).inUse = false := by simpa using hu
  exact hx.free p _ ((view_free e s p).mp ((h.page p).free ho (List.mem_range.mp hp) hu))

/-- A state in which all pages are in dirty queues. -/
lemma Quiet.exhausted (h : s.Quiet e)
    (hd : ∀ p < e.numPages, ∃ i, p ∈ (s.queues (.dirty i)).buffer) : s.Exhausted where
  free p cpu hp := by
    obtain ⟨i, hi⟩ := hd p (h.placed.fl_lt hp)
    have hidle := Idle.of_free (h.page p).phase (h.placed.mem_fl_iff.mp hp).1
    exact h.placed.not_mem_queue hidle.unlinked.clean hidle.unlinked.dirty _ hi
  clean p i hp := by
    obtain ⟨j, hj⟩ := hd p (h.placed.queue_lt hp)
    exact absurd (h.placed.queue_one hp hj) (by simp)

/-- Eight CPUs and a buffer of the given size. -/
def eightCpus (size : ℕ) (h : size < 2 ^ 63) : Env ℕ :=
  { smallEnv with
    ncpus := 8
    ncpus_pos := by decide
    bufSize := size
    bufSize_lt := h
    cpumaskOfNode := fun _ => List.range 8 }

/-- Every page of the file is read and written once. -/
def writeAll : List (Op ℕ) :=
  (List.range 8).flatMap fun i => [.fault 0 i smallFault, .mkwrite 0 i]

/-- The pages that are in the first dirty queue. -/
def allDirty (s : State ℕ) : Bool :=
  decide (∀ p ∈ List.range 8, p ∈ (s.queues (.dirty 0)).buffer)

end State

end FastMap
