import FastMap.RawRelease

/-!
# Clearing the inode cache

`ino_cache_clear` empties the cache of pvds: the pages of each pvd are taken out of its radix trees
and freed one after the other. Every page is removed as from its clean queue.
-/

namespace FastMap

variable {C : Type*}

namespace State

/-- The body of the loop in `__clear_pvd`, on a page that it has locked. -/
def clearPvdPage (s : State C) (p : PageId) : State C :=
  (s.remove (cleanQueue (s.pages p).index) p).freePageLock p

/-- `__clear_pvd` -/
def clearPvd (e : Env C) (s : State C) (v : PvdId) : Except Halt (State C) :=
  clearRadix e v clearPvdPage (s.treeSize e .rdx v) s

/-- `ino_cache_clear` on a cache of some pvds, up to the memory of the pvds. -/
def inoCacheClear (e : Env C) (s : State C) (cache : List PvdId) : Except Halt (State C) :=
  cache.foldlM (fun s v => s.clearPvd e v) s

/-- After the cache has been cleared the queues are consistent, the pages of the cleared pvds are
free and linked nowhere else, and what was dirty of them is on the device. -/
structure ClearedSoundly (e : Env C) (cache : List PvdId) (s s' : State C) : Prop where
  size_eq (q : Queue) : (s'.queues q).size = (s'.queues q).buffer.length
  not_queued {p : PageId} {cpu : ℕ} : p ∈ s'.fl cpu → ∀ q, p ∉ (s'.queues q).buffer
  not_dirty {p : PageId} {cpu : ℕ} : p ∈ s'.fl cpu →
    ∀ t i, t.kind = .dirty → (s'.trees t).lookup i ≠ some p
  home {p : PageId} {v : PvdId} : v ∈ cache → (s.pages p).OwnedBy v → p ∈ s'.fl (e.home p)
  written {p : PageId} {v : PvdId} : v ∈ cache → (s.pages p).OwnedBy v →
    (s.pages p).isDirty = true → s'.disk ((s.pvds v).bk, (s.pages p).index) = (s.pages p).content

/-- No page of these pvds is dirty. -/
def NoneDirty (s : State C) (cache : List PvdId) : Prop :=
  ∀ v ∈ cache, ∀ p, (s.pages p).OwnedBy v → (s.pages p).isDirty = false

variable {e : Env C} {s s' : State C} {v : PvdId} {p : PageId} {cache : List PvdId}

/-! ### Dirty trees -/

lemma trees_clearPvdPage (s : State C) (p : PageId) : (s.clearPvdPage p).trees = s.trees := rfl

lemma dirtyTrees_clearPvd (hs : s.clearPvd e v = .ok s') {t : TreeId} (ht : t.kind = .dirty) :
    s'.trees t = s.trees t := by
  refine (clearRadix_induction (I := fun u => u.trees t = s.trees t) ?_ rfl hs).1
  intro u u₁ p hu hp _
  obtain ⟨cpu, k, -, -, rfl⟩ := popRadix_some hp
  have hne : t ≠ ⟨.rdx, v, cpu⟩ := by
    rintro rfl
    exact absurd ht (by simp)
  rw [trees_clearPvdPage, ← hu]
  simp [modifyPage, treeErase, hne]

/-- The dirty trees are not looked at. -/
lemma dirtyTrees_inoCacheClear (hs : s.inoCacheClear e cache = .ok s') {t : TreeId}
    (ht : t.kind = .dirty) : s'.trees t = s.trees t := by
  induction cache generalizing s with
  | nil =>
    obtain rfl : s = s' := by simpa [inoCacheClear, pure, Except.pure] using hs
    rfl
  | cons v cache ih =>
    simp only [inoCacheClear, List.foldlM_cons] at hs
    cases hv : s.clearPvd e v with
    | error x => simp [hv, bind, Except.bind] at hs
    | ok s₁ =>
      simp only [hv, bind, Except.bind] at hs
      rw [ih hs, dirtyTrees_clearPvd hv ht]

/-! ### Clean pages -/

/-- What clearing the cache does to a quiet buffer, when all pages concerned are clean. -/
structure Emptied (e : Env C) (cache : List PvdId) (s s' : State C) : Prop where
  quiet : s'.Quiet e
  owned {v : PvdId} {p : PageId} : v ∈ cache → (s.pages p).OwnedBy v →
    s'.view e p = (s.view e p).dropped
  other {p : PageId} : (∀ v ∈ cache, ¬ (s.pages p).OwnedBy v) → s'.view e p = s.view e p

lemma disposes_clearPvdPage {x : PageId → PageView C}
    (hx : ∀ p, Owned e v p (x p) → (x p).page.isDirty = false) :
    Disposes e v x PageView.dropped clearPvdPage := by
  refine ⟨fun p _ => ?_, fun s p => rfl, trees_clearPvdPage, fun t p ht ho hv => ?_⟩
  · simp [PageView.dropped, PageView.freed, PageView.uncached]
  · exact ht.moves_removeFree ho (hx p ho) hv

lemma Quiet.clearPvd (h : s.Quiet e) (hd : s.NoneDirty [v]) :
    ∃ s', s.clearPvd e v = .ok s' ∧ Emptied e [v] s s' := by
  have hclean : ∀ p, Owned e v p (s.view e p) → (s.view e p).page.isDirty = false :=
    fun p ho => hd v List.mem_cons_self p ⟨ho.1.inUse, ho.2.1⟩
  have hdisp := disposes_clearPvdPage hclean
  obtain ⟨s', hs⟩ := Batch.clearRadix_ok h.inv.page (fun p => (h.page p).unlocked) hdisp _
    h.placed.batch_nil le_rfl
  obtain ⟨pgs, hc⟩ := Batch.clearRadix h.inv.page hdisp _ h.placed.batch_nil hs
  have hmem : ∀ {p}, p ∈ pgs ↔ (s.pages p).OwnedBy v := by
    intro p
    constructor
    · intro hp
      have ho := hc.batch.all hp
      exact ⟨ho.1.inUse, ho.2.1⟩
    · intro hp
      exact hc.complete (h.inv.resident_of_inUse hp.1).cached hp.2
  refine ⟨s', hs, ?_, ?_, ?_⟩
  · exact h.batch hc.batch fun p _ ho => settled_dropped ho (hclean p ho)
  · intro w p hw hp
    obtain rfl : w = v := by simpa using hw
    exact hc.batch.view_of_mem (hmem.mpr hp)
  · intro p hp
    exact hc.batch.view_of_not_mem fun hm => hp v List.mem_cons_self (hmem.mp hm)

/-- A page that has been dropped belongs to nobody. -/
lemma not_ownedBy_dropped {x : PageView C} (hp : s.view e p = x.dropped) (v : PvdId) :
    ¬ (s.pages p).OwnedBy v := by
  rintro ⟨hu, -⟩
  rw [← view_page e, hp] at hu
  exact Bool.false_ne_true hu

lemma Quiet.inoCacheClear (h : s.Quiet e) (hd : s.NoneDirty cache) :
    ∃ s', s.inoCacheClear e cache = .ok s' ∧ Emptied e cache s s' := by
  induction cache generalizing s with
  | nil => exact ⟨s, rfl, h, fun hv => absurd hv List.not_mem_nil, fun _ => rfl⟩
  | cons v cache ih =>
    obtain ⟨s₁, hs₁, he₁⟩ := h.clearPvd (v := v) fun w hw p =>
      hd w (by rw [List.mem_singleton.mp hw]; exact List.mem_cons_self) p
    -- a page that is still owned has not been touched
    have hsame : ∀ {w p}, (s₁.pages p).OwnedBy w → s₁.view e p = s.view e p := by
      intro w p hp
      by_cases ho : (s.pages p).OwnedBy v
      · exact absurd hp (not_ownedBy_dropped (he₁.owned List.mem_cons_self ho) w)
      · apply he₁.other
        intro w' hw'
        rwa [List.mem_singleton.mp hw']
    have hd₁ : s₁.NoneDirty cache := by
      intro w hw p hp
      rw [← view_page e, hsame hp]
      apply hd w (List.mem_cons_of_mem _ hw)
      rw [← view_page e, ← hsame hp]
      exact hp
    obtain ⟨s', hs', he'⟩ := ih he₁.quiet hd₁
    refine ⟨s', ?_, he'.quiet, ?_, ?_⟩
    · simp only [State.inoCacheClear, List.foldlM_cons, hs₁]
      exact hs'
    · intro w p hw hp
      by_cases ho : (s.pages p).OwnedBy v
      · have hdrop := he₁.owned List.mem_cons_self ho
        rw [he'.other fun w' _ => not_ownedBy_dropped hdrop w', hdrop]
      · have hview : s₁.view e p = s.view e p := by
          apply he₁.other
          intro w' hw'
          rwa [List.mem_singleton.mp hw']
        have hw' : w ∈ cache := by
          apply (List.mem_cons.mp hw).resolve_left
          rintro rfl
          exact ho hp
        rw [he'.owned hw' (by rwa [← view_page e, hview]), hview]
    · intro p hp
      have hview : s₁.view e p = s.view e p := by
        apply he₁.other
        intro w' hw'
        rw [List.mem_singleton.mp hw']
        exact hp v List.mem_cons_self
      rw [he'.other ?_, hview]
      intro w hw
      rw [← view_page e, hview]
      exact hp w (List.mem_cons_of_mem _ hw)

/-! ### Main result -/

/-- A page of a free list is linked nowhere else. -/
lemma Quiet.unlinked_of_fl (h : s.Quiet e) {cpu : ℕ} (hp : p ∈ s.fl cpu) :
    (s.view e p).Unlinked := by
  have hfree : (s.view e p).free = true := by
    rw [view_free, h.placed.fl_home hp]
    exact hp
  exact (Idle.of_free (h.page p).phase hfree).unlinked

lemma Emptied.clearedSoundly (h : Emptied e cache s s') (hd : s.NoneDirty cache) :
    ClearedSoundly e cache s s' where
  size_eq := h.quiet.placed.queue_size
  not_queued hp :=
    h.quiet.placed.not_mem_queue (h.quiet.unlinked_of_fl hp).clean (h.quiet.unlinked_of_fl hp).dirty
  not_dirty hp _ i ht :=
    h.quiet.placed.not_mem_tree ((h.quiet.unlinked_of_fl hp).tree .dirty) ht i
  home hv hp := by
    rw [← view_free, h.owned hv hp]
    rfl
  written hv hp hdirty := by
    rw [hd _ hv _ hp] at hdirty
    exact absurd hdirty Bool.false_ne_true

/-- A dirty page that has been freed would still be in its dirty tree. -/
lemma Quiet.noneDirty_of_clearedSoundly (h : s.Quiet e) (hs : s.inoCacheClear e cache = .ok s')
    (hc : ClearedSoundly e cache s s') : s.NoneDirty cache := by
  intro v hv p hp
  by_contra hd
  have hres := h.inv.resident_of_inUse hp.1
  have htree : (s.view e p).tree .dirty = true := by
    rw [hres.tree]
    simpa using hd
  obtain ⟨w, -, hlook⟩ := view_tree.mp htree
  refine hc.not_dirty (hc.home hv hp) ⟨.dirty, w, (s.pages p).index % e.ncpus⟩ (s.pages p).index
    rfl ?_
  rw [dirtyTrees_inoCacheClear hs rfl]
  exact hlook

/-- A clean page of each of two files. -/
def twoFilesRead : List (Op ℕ) := [.fault 0 0 smallFault, .fault 1 0 smallFault]

/-- One page of a file, which has been written to. -/
def oneFileWritten : List (Op ℕ) := [.fault 0 0 smallFault, .mkwrite 0 0]

end State

end FastMap
