import FastMap.Accounting
import FastMap.Schedules

/-!
# One writer for each page

A writer (an evictor or `write_dirty_pages`) has collected a page when it holds the page lock and
has taken the page out of its dirty tree. From then on the page is its own until it unlocks it:
whatever the other threads are in the middle of, no step of theirs gets at the page.
-/

namespace FastMap

variable {C : Type*}

namespace Pc

/-- The pages that a writer has locked and taken out of their dirty trees. -/
def collected : Pc → Multiset PageId
  | .evict (.untree _ _) => 0
  | .evict x => (Pc.evict x).locks
  | .sync a x => (Pc.sync a x).locks
  | _ => 0

/-- The page that a writer is about to unlock. -/
def unlocks : Pc → Option PageId
  | .evict (.unlock (p :: _)) => some p
  | .sync _ (.unlock _ (p :: _)) => some p
  | _ => none

variable {pc : Pc} {p : PageId}

lemma collected_le_locks (h : p ∈ pc.collected) : p ∈ pc.locks := by
  unfold collected at h
  split at h
  · exact absurd h (Multiset.notMem_zero p)
  · exact h
  · exact h
  · exact absurd h (Multiset.notMem_zero p)

/-- A collected page is dirty and in no dirty tree, or already clean. -/
lemma stage_of_collected (h : p ∈ pc.collected) :
    pc.stage p = .clean ∨ pc.stage p = .grabbed ∨ pc.stage p = .heaped := by
  unfold collected at h
  split at h
  · exact absurd h (Multiset.notMem_zero p)
  · rename_i x _
    cases x with
    | take id => exact absurd h (Multiset.notMem_zero p)
    | untree id q => simp_all
    | insert v done todo =>
      simp only [stage]
      split_ifs <;> simp
    | _ => simp [stage]
  · rename_i a x
    cases x with
    | fill cpus hp => simp [stage]
    | enqueue q hp pgs =>
      simp only [stage]
      split_ifs <;> simp
    | _ =>
      simp only [stage]
      split_ifs <;> simp
  · exact absurd h (Multiset.notMem_zero p)

end Pc

namespace State

variable {e : Env C} {s s' : State C} {c : Choice C} {pc pc' : Pc} {p : PageId}

/-! ### The steps of a writer -/

/-- The heap of `write_dirty_pages` only grows while it looks at a dirty tree. -/
lemma mem_heapPages_pullOnce {v : PvdId} {cpu : ℕ} {h h' : MinHeap} {b : Option Bool}
    (hs : s.pullOnce v cpu h = .ok (b, s', h')) (hp : p ∈ heapPages h) : p ∈ heapPages h' := by
  simp only [pullOnce] at hs
  split at hs
  · obtain ⟨-, -, rfl⟩ : _ ∧ _ ∧ h = h' := by simpa using hs
    exact hp
  · split at hs
    · split at hs
      · exact absurd hs (by simp)
      · rename_i h₁ hi
        obtain ⟨-, -, rfl⟩ : _ ∧ _ ∧ h₁ = h' := by simpa using hs
        rw [Machine.heapPages_cons (heapPages_insert hi)]
        exact Multiset.mem_cons_of_mem hp
    · obtain ⟨-, -, rfl⟩ : _ ∧ _ ∧ h = h' := by simpa using hs
      exact hp

/-- A writer keeps a page that it has collected, and does not make it dirty again, until it unlocks
the page. -/
def KeepsCollected (s : State C) (pc : Pc) (p : PageId) (s' : State C) (pc' : Pc) : Prop :=
  p ∈ pc'.collected ∧ (pc.stage p = .clean → pc'.stage p = .clean) ∨
    pc.unlocks = some p ∧ s' = s.unlockTp p

lemma keepsCollected_stepEvict {x : EvictPc} (hs : s.stepEvict e x = .ok (s', pc'))
    (hp : p ∈ (Pc.evict x).collected) : KeepsCollected s (.evict x) p s' pc' := by
  cases x with
  | take id => exact absurd hp (Multiset.notMem_zero p)
  | untree id q => exact absurd hp (Multiset.notMem_zero p)
  | scan c =>
    simp only [stepEvict] at hs
    split_ifs at hs
    · obtain ⟨rfl, rfl⟩ := Prod.mk.inj (Except.ok.inj hs)
      exact Or.inl ⟨hp, fun h => h⟩
    · split at hs
      all_goals
        obtain ⟨rfl, rfl⟩ := Prod.mk.inj (Except.ok.inj hs)
        exact Or.inl ⟨hp, fun h => h⟩
  | grab c q =>
    simp only [stepEvict] at hs
    split at hs
    all_goals obtain ⟨rfl, rfl⟩ := Prod.mk.inj (Except.ok.inj hs)
    · refine Or.inl ⟨?_, fun h => h⟩
      have hp : p ∈ c.pgs := hp
      simp [Pc.collected, Pc.locks, Scan.next, hp]
    · exact Or.inl ⟨hp, fun h => h⟩
  | back c q =>
    obtain ⟨rfl, rfl⟩ := Prod.mk.inj (Except.ok.inj hs)
    exact Or.inl ⟨hp, fun h => h⟩
  | clear v pgs =>
    obtain ⟨rfl, rfl⟩ := Prod.mk.inj (Except.ok.inj hs)
    exact Or.inl ⟨hp, fun h => h⟩
  | write v pgs =>
    obtain ⟨rfl, rfl⟩ := Prod.mk.inj (Except.ok.inj hs)
    refine Or.inl ⟨?_, by simp [Pc.stage]⟩
    have hp : p ∈ pgs := hp
    simp [Pc.collected, Pc.locks, hp]
  | insert v done todo =>
    have hp : p ∈ done ∨ p ∈ todo := by simpa [Pc.collected, Pc.locks] using hp
    cases todo with
    | nil =>
      obtain ⟨rfl, rfl⟩ := Prod.mk.inj (Except.ok.inj hs)
      refine Or.inl ⟨?_, fun _ => rfl⟩
      simpa [Pc.collected, Pc.locks] using hp
    | cons q todo =>
      obtain ⟨rfl, rfl⟩ := Prod.mk.inj (Except.ok.inj hs)
      refine Or.inl ⟨?_, fun h => ?_⟩
      · simp only [List.mem_cons] at hp
        simp only [Pc.collected, Pc.locks, Multiset.coe_add, Multiset.mem_coe, List.mem_append,
          List.mem_singleton]
        tauto
      · simp only [Pc.stage] at h ⊢
        split_ifs at h with hd
        simp [hd]
  | unlock todo =>
    cases todo with
    | nil => exact absurd hp (Multiset.notMem_zero p)
    | cons q todo =>
      obtain ⟨rfl, rfl⟩ := Prod.mk.inj (Except.ok.inj hs)
      by_cases hpq : p = q
      · subst hpq
        exact Or.inr ⟨rfl, rfl⟩
      · refine Or.inl ⟨?_, fun h => h⟩
        simpa [Pc.collected, Pc.locks, hpq] using hp

lemma keepsCollected_stepSync {a : SyncArgs} {x : SyncPc} (hs : s.stepSync e a x = .ok (s', pc'))
    (hp : p ∈ (Pc.sync a x).collected) (hn : (Pc.sync a x).locks.Nodup) :
    KeepsCollected s (.sync a x) p s' pc' := by
  cases x with
  | fill cpus h =>
    cases cpus with
    | nil =>
      obtain ⟨rfl, rfl⟩ := Prod.mk.inj (Except.ok.inj hs)
      refine Or.inl ⟨?_, by simp [Pc.stage]⟩
      simpa [Pc.collected, Pc.locks] using hp
    | cons cpu cpus =>
      obtain ⟨b, h', hpull, rfl⟩ := stepSync_fill_cons hs
      exact Or.inl ⟨mem_heapPages_pullOnce hpull hp, fun h => h⟩
  | min h pgs =>
    simp only [stepSync] at hs
    split_ifs at hs with hz hnil
    · have hp : p ∈ heapPages h + (pgs : Multiset PageId) := hp
      simp [hnil, heapPages, BinHeap.elems, hz] at hp
    · obtain ⟨rfl, rfl⟩ := Prod.mk.inj (Except.ok.inj hs)
      exact Or.inl ⟨hp, fun h => h⟩
    · rcases hd : minHeapDeleteMin h with ⟨n, h'⟩
      rw [hd] at hs
      obtain ⟨rfl, rfl⟩ := Prod.mk.inj (Except.ok.inj hs)
      refine Or.inl ⟨?_, fun h => h⟩
      have hp : p ∈ heapPages h + (pgs : Multiset PageId) := hp
      rw [Machine.heapPages_cons (heapPages_deleteMin hz hd), Multiset.cons_add] at hp
      exact hp
  | pull n h pgs =>
    obtain ⟨b, h', hpull, rfl⟩ := stepSync_pull hs
    have hmem : p ∈ n.p ::ₘ (heapPages h' + (pgs : Multiset PageId)) := by
      have hp : p ∈ n.p ::ₘ (heapPages h + (pgs : Multiset PageId)) := hp
      simp only [Multiset.mem_cons, Multiset.mem_add] at hp ⊢
      exact hp.imp_right (Or.imp_left (mem_heapPages_pullOnce hpull))
    split_ifs
    · exact Or.inl ⟨hmem, fun h => h⟩
    · refine Or.inl ⟨?_, fun h => ?_⟩
      · obtain ⟨y, hy⟩ := Machine.startCleanup_eq a n.p h' pgs
        rw [hy, Pc.collected, ← hy, locks_startCleanup]
        exact hmem
      · rw [Machine.stage_startCleanup]
        exact h
  | clear q h pgs =>
    obtain ⟨rfl, rfl⟩ := Prod.mk.inj (Except.ok.inj hs)
    exact Or.inl ⟨hp, fun h => h⟩
  | remove q h pgs =>
    obtain ⟨rfl, rfl⟩ := Prod.mk.inj (Except.ok.inj hs)
    refine Or.inl ⟨hp, fun h => ?_⟩
    have hq : q ∉ pgs := Machine.not_mem_of_hand hn
    simp only [Pc.stage] at h ⊢
    split_ifs at h with hpgs
    have hpq : p ≠ q := fun heq => hq (heq ▸ hpgs)
    simp [hpq, hpgs]
  | enqueue q h pgs =>
    have hp : p ∈ q ::ₘ (heapPages h + (pgs : Multiset PageId)) := hp
    simp only [stepSync] at hs
    split_ifs at hs
    all_goals
      obtain ⟨rfl, rfl⟩ := Prod.mk.inj (Except.ok.inj hs)
      refine Or.inl ⟨?_, fun h => ?_⟩
      · simp only [Multiset.mem_cons, Multiset.mem_add, Multiset.mem_coe] at hp
        simp only [Pc.collected, Pc.locks, Multiset.mem_add, Multiset.mem_coe, List.mem_append,
          List.mem_singleton]
        tauto
      · simp only [Pc.stage] at h ⊢
        split_ifs at h with hpq hpgs
        simp [hpgs]
  | write h pgs =>
    obtain ⟨rfl, rfl⟩ := Prod.mk.inj (Except.ok.inj hs)
    exact Or.inl ⟨hp, fun h => h⟩
  | unlock h todo =>
    cases todo with
    | nil =>
      obtain ⟨rfl, rfl⟩ := Prod.mk.inj (Except.ok.inj hs)
      exact Or.inl ⟨hp, fun h => h⟩
    | cons q todo =>
      obtain ⟨rfl, rfl⟩ := Prod.mk.inj (Except.ok.inj hs)
      by_cases hpq : p = q
      · subst hpq
        exact Or.inr ⟨rfl, rfl⟩
      · refine Or.inl ⟨?_, fun h => ?_⟩
        · simpa [Pc.collected, Pc.locks, hpq] using hp
        · simpa [Pc.stage, hpq] using h

/-- The page caches a block: it is in use, in the radix tree, and on no free list. -/
structure InCache (e : Env C) (s : State C) (p : PageId) : Prop where
  inUse : (s.pages p).inUse = true
  rdx : ∃ v, (s.pages p).pvd = some v ∧ s.fmapRadixLookup e v (s.pages p).index = some p
  free (cpu : ℕ) : p ∉ s.fl cpu

lemma inCache_of_at (h : s.Placed e) {moved : Prop} {g : Stage}
    (hat : At e p moved g (s.view e p)) (hr : ∀ d, (g.links d).rdx = true) : s.InCache e p where
  inUse := hat.inUse
  rdx := view_tree.mp (hat.rdx.trans (hr _))
  free cpu hp := by
    have hf := (h.mem_fl_iff.mp hp).1
    exact Bool.false_ne_true (hat.free.symm.trans hf)

/-- Page tables have no part in the records of the buffer. -/
lemma Quiet.setPte (h : s.Quiet e) (vma : VmaId) (a : ℕ) (x : Pte) : (s.setPte vma a x).Quiet e :=
  ⟨{ h.placed with }, fun p =>
    (h.page p).of_fields rfl rfl rfl rfl rfl rfl rfl rfl (h.page p).unlocked⟩

lemma InCache.unlockTp (h : s.InCache e p) : (s.unlockTp p).InCache e p := by
  obtain ⟨v, hv, hl⟩ := h.rdx
  have hi : ((s.unlockTp p).pages p).index = (s.pages p).index := by
    simp [State.unlockTp, modifyPage]
  refine ⟨?_, ⟨v, ?_, ?_⟩, h.free⟩
  · simpa [State.unlockTp, modifyPage] using h.inUse
  · simpa [State.unlockTp, modifyPage] using hv
  · rw [hi]
    exact hl

end State

namespace Machine

open State

variable {e : Env C} {s₀ : State C} {m m' : Machine C} {ls : List (Tid × Act C)} {t : Tid}
  {l : Tid × Act C} {p : PageId}

/-! ### Runs without page faults -/

/-- A step of a machine on which no page fault starts. -/
def StepsNoFault (e : Env C) (m : Machine C) (l : Tid × Act C) (m' : Machine C) : Prop :=
  (∀ vma i, l.2 ≠ .start (.getpage vma i)) ∧ Steps e m l m'

/-- No thread is in a page fault. -/
def Faultless (m : Machine C) : Prop := ∀ t r, (m.pc t).frame ≠ some (.fault r)

lemma Faultless.unclaimed (h : Faultless m) : Unclaimed e m l := by
  intro c r p s₁ _ hpc
  exact absurd (by rw [hpc]; rfl) (h l.1 r)

lemma Faultless.put (h : Faultless m) {s' : State C} {pc' : Pc} {log : List (BlockWrite C)}
    (hpc : ∀ r, pc'.frame ≠ some (.fault r)) : Faultless (m.put t s' pc' log) := by
  intro u r
  by_cases hu : u = t
  · subst hu
    rw [put_pc_self]
    exact hpc r
  · rw [put_pc_of_ne hu]
    exact h u r

lemma Faultless.step (h : Faultless m) (hs : StepsNoFault e m l m') : Faultless m' := by
  obtain ⟨hno, hs⟩ := hs
  rcases steps_cases hs with ⟨k, pc', hk, -, hpc, rfl⟩ | ⟨c, s', pc', -, hpc, rfl⟩
  · refine h.put fun r hr => ?_
    rcases start_inv hpc with ⟨vma, i, v, rfl, -, -⟩ | ⟨vma, i, v, p, w, -, -, -, rfl⟩ |
      ⟨qid, -, rfl⟩ | ⟨id, -, -, rfl⟩ | ⟨cb, v, -, rfl⟩
    · exact hno vma i hk
    all_goals simp [Pc.frame] at hr
  · refine h.put fun r hr => ?_
    rcases frame_stepThread hpc with hf | rfl
    · exact h l.1 r (hf.symm.trans hr)
    · simp [Pc.frame] at hr

lemma sound_run_noFault (h : s₀.Tidy e) (hr : Run (StepsNoFault e) (quiescent s₀) ls m) :
    Sound e m ∧ Faultless m := by
  refine hr.invariant (I := fun m => Sound e m ∧ Faultless m) ?_ ⟨sound_quiescent h, ?_⟩
  · intro m l m' hm hs
    exact ⟨hm.1.step hm.2.unclaimed hs.2, hm.2.step hs⟩
  · intro t r
    simp [quiescent, Pc.frame]

/-! ### A collected page -/

/-- What a writer can rely on while it has collected a page. -/
structure WriterOwns (e : Env C) (m : Machine C) (t : Tid) (p : PageId) : Prop where
  /-- The page is once in the batch or the heap of the writer. -/
  once : (m.pc t).locks.count p = 1
  /-- It is in no batch, heap or list of another thread. -/
  others (u : Tid) : u ≠ t → p ∉ (m.pc u).locks
  tree (v : PvdId) (cpu : ℕ) (i : Pgoff) : (m.st.trees ⟨.dirty, v, cpu⟩).lookup i ≠ some p
  /-- No evictor is about to put it back into a dirty tree. -/
  back : ¬ m.Moved p
  inCache : m.st.InCache e p

lemma Sound.writerOwns (h : Sound e m) (hp : p ∈ (m.pc t).collected) : WriterOwns e m t p := by
  have hl := Pc.collected_le_locks hp
  obtain ⟨hat, -⟩ := (h.inv.page p).held (Or.inl hl)
  have hstage := Pc.stage_of_collected hp
  have hlinks : ∀ d, (((m.pc t).stage p).links d).rdx = true ∧
      (((m.pc t).stage p).links d).tree = false := by
    intro d
    rcases hstage with hg | hg | hg <;> simp [hg]
  constructor
  · exact Multiset.count_eq_one_of_mem (h.inv.table.nodup t) hl
  · intro u hu hmem
    exact hu (h.inv.table.exclusive hmem hl)
  · intro v cpu i
    refine h.inv.placed.not_mem_tree (k := .dirty) ?_ rfl i
    rw [Bool.eq_false_iff]
    intro htree
    exact Bool.false_ne_true ((hlinks _).2.symm.trans (hat.tree.mp htree).1)
  · intro hmv
    exact Bool.false_ne_true ((hlinks _).2.symm.trans (hat.moved hmv))
  · exact inCache_of_at h.inv.placed hat fun d => (hlinks d).1

/-- The stage of a collected page says whether it is dirty. -/
lemma Sound.isDirty_collected (h : Sound e m) (hp : p ∈ (m.pc t).collected) :
    (m.st.pages p).isDirty = decide ((m.pc t).stage p ≠ .clean) := by
  obtain ⟨hat, -⟩ := (h.inv.page p).held (Or.inl (Pc.collected_le_locks hp))
  rcases Pc.stage_of_collected hp with hg | hg | hg <;> rw [hg] at hat ⊢ <;>
    exact hat.isDirty rfl

/-- A step of another thread leaves the page to its writer; the writer keeps it or unlocks it. -/
lemma Sound.collected_step (h : Sound e m) (hs : Steps e m l m') (hp : p ∈ (m.pc t).collected) :
    p ∈ (m'.pc t).collected ∧ ((m.pc t).stage p = .clean → (m'.pc t).stage p = .clean) ∨
      l.1 = t ∧ (m.pc t).unlocks = some p ∧ m'.st = m.st.unlockTp p := by
  by_cases ht : l.1 = t
  · subst ht
    rcases steps_cases hs with ⟨k, pc', -, hidle, -, -⟩ | ⟨c, s', pc', -, hk, rfl⟩
    · rw [hidle] at hp
      exact absurd hp (Multiset.notMem_zero p)
    · have hn := h.inv.table.nodup l.1
      have hkeep : KeepsCollected m.st (m.pc l.1) p s' pc' := by
        cases hpc : m.pc l.1 with
        | evict x =>
          rw [hpc] at hk hp
          exact keepsCollected_stepEvict hk hp
        | sync a x =>
          rw [hpc] at hk hp hn
          exact keepsCollected_stepSync hk hp hn
        | _ =>
          rw [hpc] at hp
          exact absurd hp (Multiset.notMem_zero p)
      rw [put_pc_self]
      exact hkeep.imp id fun hu => ⟨rfl, hu⟩
  · have hpc : m'.pc t = m.pc t := by
      rcases steps_cases hs with ⟨k, pc', -, -, -, rfl⟩ | ⟨c, s', pc', -, -, rfl⟩ <;>
        exact put_pc_of_ne (Ne.symm ht)
    rw [hpc]
    exact Or.inl ⟨hp, id⟩

/-- Once a writer has collected a page, the page is its own: it is in no other thread's hands and
in no dirty tree, and no step of any thread takes it out of the cache or makes it dirty again,
until the writer unlocks it. -/
theorem one_writer_per_page (e : Env C) (s₀ : State C) (h₀ : s₀.Tidy e) (ls : List (Tid × Act C))
    (m : Machine C) (hr : Run (StepsNoFault e) (quiescent s₀) ls m) (t : Tid) (p : PageId)
    (hp : p ∈ (m.pc t).collected) :
    WriterOwns e m t p ∧ ∀ l m', StepsNoFault e m l m' →
      m'.st.InCache e p ∧
      ((m.st.pages p).isDirty = false → (m'.st.pages p).isDirty = false) ∧
      (p ∈ (m'.pc t).collected ∨ l.1 = t ∧ (m.pc t).unlocks = some p) := by
  obtain ⟨h, hf⟩ := sound_run_noFault h₀ hr
  refine ⟨h.writerOwns hp, fun l m' hs => ?_⟩
  have h' : Sound e m' := h.step hf.unclaimed hs.2
  rcases h.collected_step hs.2 hp with ⟨hp', hstage⟩ | ⟨ht, hu, hst⟩
  · refine ⟨(h'.writerOwns hp').inCache, fun hd => ?_, Or.inl hp'⟩
    rw [h.isDirty_collected hp, decide_eq_false_iff_not, not_not] at hd
    rw [h'.isDirty_collected hp', hstage hd]
    rfl
  · rw [hst]
    refine ⟨(h.writerOwns hp).inCache.unlockTp, fun hd => ?_, Or.inr ⟨ht, hu⟩⟩
    simpa [State.unlockTp, modifyPage] using hd

/-! ### An evictor and its page -/

/-- A fault on block 0 and a write fault on it. -/
def writtenPage : List (Tid × Act ℕ) :=
  (.user 1, .start (.getpage 0 0)) :: steps (.user 1) 8 ++
    (.user 1, .start (.mkwrite 0 0)) :: steps (.user 1) 6

/-- The buffer after calls that one thread has made from the start. -/
def after (ls : List (Tid × Act ℕ)) : State ℕ :=
  ((nextAll onePageEnv (quiescent (initParams onePageEnv smallWorld)) ls).map Machine.st).getD
    (initParams onePageEnv smallWorld)

lemma tidy_after {ls : List (Tid × Act ℕ)} (hl : ∀ l ∈ ls, l.1 = t)
    (h : ((nextAll onePageEnv (quiescent (initParams onePageEnv smallWorld)) ls).map
      fun m => (m.pc t).isIdle) = some true) : (after ls).Tidy onePageEnv := by
  obtain ⟨m, hm, hp⟩ := Option.map_eq_some_iff.mp h
  obtain ⟨hr, hidle⟩ := run_alone (run_nextAll hm) hl
  have hst : after ls = m.st := by
    rw [after, hm]
    rfl
  rw [hst]
  refine (sound_run (tidy_initParams _ _) hr).tidy fun u => ?_
  by_cases hu : u = t
  · subst hu
    cases hpc : m.pc u with
    | idle => rfl
    | _ => simp [Pc.isIdle, hpc] at hp
  · exact hidle u hu

/-- The buffer with one page, which is dirty. -/
def dirtyBuffer : State ℕ := after writtenPage

lemma tidy_dirtyBuffer : dirtyBuffer.Tidy onePageEnv :=
  tidy_after (t := .user 1) (by decide) (by decide +kernel)

/-- The evictor takes the page out of its queue and its dirty tree. -/
def evictOne : List (Tid × Act ℕ) := (.evictor 0, .start .evict) :: steps (.evictor 0) 2

theorem one_writer_per_page_evictor :
    ∃ m, Run (StepsNoFault onePageEnv) (quiescent dirtyBuffer) evictOne m ∧
      0 ∈ (m.pc (.evictor 0)).collected ∧ WriterOwns onePageEnv m (.evictor 0) 0 := by
  have h : ((nextAll onePageEnv (quiescent dirtyBuffer) evictOne).map
      fun m => decide (0 ∈ (m.pc (.evictor 0)).collected)) = some true := by decide +kernel
  obtain ⟨m, hm, hp⟩ := Option.map_eq_some_iff.mp h
  have hp : 0 ∈ (m.pc (.evictor 0)).collected := of_decide_eq_true hp
  have hr : Run (StepsNoFault onePageEnv) (quiescent dirtyBuffer) evictOne m := by
    refine (run_nextAll hm).mono_of_mem fun s l s' hl hs => ⟨fun vma i hk => ?_, hs⟩
    rcases List.mem_cons.mp hl with rfl | hl
    · simp at hk
    · rw [List.eq_of_mem_replicate hl] at hk
      simp at hk
  exact ⟨m, hr, hp, (one_writer_per_page _ _ tidy_dirtyBuffer _ m hr (.evictor 0) 0 hp).1⟩

/-! ### An entry that maps a page of another file -/

/-- An entry of area 1 maps the page of block 0 of file 0. -/
def strayEntry : State ℕ :=
  (after ((.user 1, .start (.getpage 0 0)) :: steps (.user 1) 8)).setPte 1 0 (.map 0 false)

lemma quiet_strayEntry : strayEntry.Quiet onePageEnv :=
  (tidy_after (t := .user 1) (by decide) (by decide +kernel)).quiet.setPte _ _ _

/-- A write fault through the entry puts the page into the dirty tree of file 1. The evictor takes
it out of that of file 0. -/
def writeStray : List (Tid × Act ℕ) :=
  (.user 1, .start (.mkwrite 1 0)) :: steps (.user 1) 6 ++ evictOne

/-- The flags, queues and trees agree at the start, and then a page is in a dirty tree while an
evictor has collected it. -/
theorem collected_page_in_tree :
    ¬ ∀ (e : Env ℕ) (s₀ : State ℕ) (ls : List (Tid × Act ℕ)) (m : Machine ℕ), s₀.Quiet e →
      Run (StepsNoFault e) (quiescent s₀) ls m → ∀ t p, p ∈ (m.pc t).collected →
        WriterOwns e m t p := by
  intro hall
  have h : ((nextAll onePageEnv (quiescent strayEntry) writeStray).map fun m =>
      (decide (0 ∈ (m.pc (.evictor 0)).collected), (m.st.trees ⟨.dirty, 1, 0⟩).lookup 0)) =
        some (true, some 0) := by decide +kernel
  obtain ⟨m, hm, hp⟩ := Option.map_eq_some_iff.mp h
  obtain ⟨hp, hl⟩ := Prod.mk.inj hp
  have hr : Run (StepsNoFault onePageEnv) (quiescent strayEntry) writeStray m := by
    refine (run_nextAll hm).mono_of_mem fun s l s' hl hs => ⟨fun vma i hk => ?_, hs⟩
    simp only [writeStray, evictOne, steps, List.cons_append, List.mem_cons, List.mem_append,
      List.mem_replicate] at hl
    rcases hl with rfl | ⟨-, rfl⟩ | rfl | ⟨-, rfl⟩ <;> simp at hk
  have hp : 0 ∈ (m.pc (.evictor 0)).collected := of_decide_eq_true hp
  exact (hall onePageEnv strayEntry _ m quiet_strayEntry hr (.evictor 0) 0 hp).tree 1 0 0 hl

end Machine

end FastMap
