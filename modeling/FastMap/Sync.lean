import FastMap.Batches

/-!
# `write_dirty_pages`

The heap holds one locked page of each dirty tree that is not empty; a page moves from its tree
to the heap, from the heap to the batch, and with the batch to the device. `Draining` is the
invariant of the loop. When the call returns, every page of the pvd that was dirty is clean.
-/

namespace FastMap

variable {C : Type*}

namespace PageView

/-- A page in the heap. -/
def heaped (x : PageView C) : PageView C :=
  { x.untreed with page := { x.page with locked := true } }

/-- A page that `write_dirty_pages` has made clean. -/
def synced (cb : Cleanup) (x : PageView C) : PageView C :=
  match cb with
  | .fsync => x.evicted
  | .release => x.cleaned

/-- A page in the batch of `write_dirty_pages`, still locked. -/
def batched (cb : Cleanup) (x : PageView C) : PageView C :=
  { x.synced cb with page := { x.cleaned.page with locked := true } }

lemma synced_page (cb : Cleanup) (x : PageView C) : (x.synced cb).page = x.cleaned.page := by
  cases cb <;> rfl

lemma synced_eq (cb : Cleanup) (x : PageView C) :
    x.synced cb = { x.cleaned with pte := (x.synced cb).pte } := by
  cases cb <;> rfl

end PageView

/-- The pages of a heap. -/
def heapPages (h : MinHeap) : Multiset PageId := h.elems.map HeapNode.p

@[simp] lemma heapPages_create : heapPages minHeapCreate = 0 := rfl

lemma heapPages_insert {h h' : MinHeap} {n : HeapNode} (hi : minHeapInsert h n = .ok h') :
    h'.elems = n ::ₘ h.elems := by
  simp only [minHeapInsert] at hi
  split_ifs at hi
  obtain rfl : _ = h' := by simpa using hi
  exact BinHeap.elems_insert _ _ _

namespace State

variable {e : Env C} {s s' : State C} {v : PvdId} {p : PageId} {cb : Cleanup}

lemma Batch.pages_of_mem {P : PageId → PageView C → Prop} {pgs : List PageId}
    (h : Batch e (s.view e) P (PageView.synced cb) s' pgs) (hp : p ∈ pgs) :
    s'.pages p = (s.view e p).cleaned.page := by
  rw [← view_page e, h.view_of_mem hp, PageView.synced_page]

/-- The callback on a locked page that has left the dirty tree. -/
lemma Placed.moves_pageCleanup (h : s.Placed e) (cb : Cleanup) {x : PageView C}
    (hd : x.dirty = true) (hv : s.view e p = x.heaped) :
    Moves e s (pageCleanup cb s p) p (x.batched cb) := by
  cases cb with
  | fsync =>
    have hc := h.moves_clearMappings (p := p)
    have hw : x.heaped.wrprotected = { x.heaped with pte := x.wrprotected.pte } := by
      rw [PageView.wrprotected_eq]
      congr 1
      exact PageView.wrprotected_pte_congr rfl rfl
    rw [hv, hw] at hc
    have hm := hc.placed.moves_movePageD2c (p := p) (by rw [hc.view_self]; exact hd)
    rw [← view_page e, hc.view_self] at hm
    exact hc.trans hm
  | release =>
    have hm := h.moves_movePageD2c (p := p) (by rw [hv]; exact hd)
    rw [← view_page e, hv] at hm
    exact hm

lemma outside_pageCleanup (cb : Cleanup) (s : State C) (p : PageId) :
    (pageCleanup cb s p).outside = s.outside := by
  cases cb <;> simp [pageCleanup]

/-- The state of the main loop, over the views `x` that the pages had before they were taken:
the pages of `H` have left their tree, those of `pgs` their queue as well. -/
structure Draining (e : Env C) (cb : Cleanup) (v : PvdId) (x : PageId → PageView C)
    (H : Multiset PageId) (pgs : List PageId) (s : State C) : Prop where
  placed : s.Placed e
  phase (p : PageId) : Idle (x p) ∨ Resident e p (x p)
  heap_nodup : H.Nodup
  nodup : pgs.Nodup
  disjoint {p : PageId} : p ∈ pgs → p ∉ H
  batch {p : PageId} : p ∈ pgs → Evictable e v p (x p)
  heap {p : PageId} : p ∈ H → Evictable e v p (x p)
  view_eq (q : PageId) : s.view e q =
    if q ∈ pgs then (x q).batched cb else if q ∈ H then (x q).heaped else x q

variable {x : PageId → PageView C} {H : Multiset PageId} {h h' : MinHeap} {pgs : List PageId}
  {bs : List (List PageId)}

lemma Draining.view_batch (d : Draining e cb v x H pgs s) (hp : p ∈ pgs) :
    s.view e p = (x p).batched cb := by
  rw [d.view_eq, if_pos hp]

lemma Draining.view_heap (d : Draining e cb v x H pgs s) (hp : p ∈ H) :
    s.view e p = (x p).heaped := by
  rw [d.view_eq, if_neg fun hb => d.disjoint hb hp, if_pos hp]

/-- A page that a dirty tree still holds has not been taken. -/
lemma Draining.fresh (d : Draining e cb v x H pgs s)
    (ht : (s.view e p).tree .dirty = true) : p ∉ pgs ∧ p ∉ H ∧ s.view e p = x p := by
  have hb : p ∉ pgs := by
    intro hp
    rw [d.view_batch hp, PageView.batched, PageView.synced_eq] at ht
    simp [PageView.cleaned] at ht
  have hh : p ∉ H := by
    intro hp
    rw [d.view_heap hp] at ht
    simp [PageView.heaped, PageView.untreed] at ht
  exact ⟨hb, hh, by rw [d.view_eq, if_neg hb, if_neg hh]⟩

/-- Taking a page from a tree: the tree is empty, or its first page goes to the heap. -/
lemma Draining.pullTree (d : Draining e cb v x H pgs s) {cpu : ℕ}
    (hs : s.pullTree v cpu h = .ok (s', h')) :
    s'.outside = s.outside ∧
    ((s' = s ∧ h' = h ∧ (s.trees ⟨.dirty, v, cpu⟩).first? = none) ∨
    ∃ n, h'.elems = n ::ₘ h.elems ∧ n.cpu = cpu ∧ Draining e cb v x (n.p ::ₘ H) pgs s') := by
  simp only [State.pullTree] at hs
  split at hs
  · rename_i hf
    obtain ⟨rfl, rfl⟩ : s = s' ∧ h = h' := by simpa using hs
    exact ⟨rfl, Or.inl ⟨rfl, rfl, hf⟩⟩
  · rename_i k p hf
    have hlook := KeyMap.lookup_of_first? hf
    obtain ⟨hcpu, hv, hk⟩ := d.placed.tree_own hlook
    have htree := d.placed.tree_of_lookup hlook
    obtain ⟨hb, hh, hxp⟩ := d.fresh htree
    rcases s.trylockTp_cases p ulongMax with ⟨r, hr, ht⟩ | ⟨-, hl, -, ht⟩
    · rw [ht] at hs
      split at hs
      · rename_i heq
        exact absurd (Prod.mk.inj heq).1 hr
      · exact absurd hs (by simp)
    · rw [ht] at hs
      set s₁ := s.modifyPage p fun t => { t with locked := true } with hs₁
      cases hi : minHeapInsert h ⟨cpu, (s₁.pages p).index, p⟩ with
      | error err => simp [hi] at hs
      | ok h₁ =>
        obtain ⟨rfl, rfl⟩ : s₁.treeErase ⟨.dirty, v, cpu⟩ k = s' ∧ h₁ = h' := by
          simpa [hi] using hs
        refine ⟨rfl, Or.inr ⟨_, heapPages_insert hi, rfl, ?_⟩⟩
        have hm := d.placed.moves_modifyPage p (f := fun t => { t with locked := true }) rfl rfl
        have hpage : s₁.pages p = { s.pages p with locked := true } := by
          rw [← view_page e, hm.view_self]
        have he := hm.placed.moves_treeErase (p := p) (v := v) (k := .dirty)
          (by rw [hpage]; exact hv) (by rw [hm.view_self]; exact htree)
        have hmov : Moves e s (s₁.treeErase ⟨.dirty, v, cpu⟩ k) p (x p).heaped := by
          rw [hpage] at he
          rw [show cpu = k % e.ncpus from hcpu, ← hk]
          have := hm.trans he
          rw [hm.view_self, ← view_page e, hxp] at this
          rw [← view_page e, hxp]
          exact this
        have hres : Resident e p (x p) := .of_dirtyTree (d.phase p) (hxp ▸ htree)
        have hev : Evictable e v p (x p) := by
          refine ⟨hres, ?_, by rw [← hxp]; exact hl, by rw [← hxp]; exact hv⟩
          rw [← hres.tree, ← hxp, htree]
        refine
          { d with
            placed := hmov.placed
            heap_nodup := Multiset.nodup_cons.mpr ⟨hh, d.heap_nodup⟩
            disjoint := ?_
            heap := ?_
            view_eq := ?_ }
        · intro q hq hmem
          rcases Multiset.mem_cons.mp hmem with rfl | hmem
          · exact hb hq
          · exact d.disjoint hq hmem
        · intro q hq
          rcases Multiset.mem_cons.mp hq with rfl | hq
          · exact hev
          · exact d.heap hq
        · intro q
          by_cases hqp : q = p
          · subst hqp
            rw [hmov.view_self, if_neg hb, if_pos (Multiset.mem_cons_self _ _)]
          · rw [hmov.view_of_ne hqp, d.view_eq]
            simp [hqp]

/-- The callback takes a page from the heap to the batch. -/
lemma Draining.pageCleanup (d : Draining e cb v x (p ::ₘ H) pgs s) :
    Draining e cb v x H (pgs ++ [p]) (pageCleanup cb s p) := by
  obtain ⟨hpH, hH⟩ := Multiset.nodup_cons.mp d.heap_nodup
  have hev := d.heap (Multiset.mem_cons_self p H)
  have hpg : p ∉ pgs := fun hp => d.disjoint hp (Multiset.mem_cons_self p H)
  have hm := d.placed.moves_pageCleanup cb (by rw [hev.1.dirty, hev.2.1])
    (d.view_heap (Multiset.mem_cons_self p H))
  refine ⟨hm.placed, d.phase, hH, by simpa using d.nodup.concat hpg, ?_, ?_, ?_, ?_⟩
  · intro q hq
    rcases List.mem_append.mp hq with hq | hq
    · exact fun hmem => d.disjoint hq (Multiset.mem_cons_of_mem hmem)
    · rw [List.mem_singleton.mp hq]
      exact hpH
  · intro q hq
    rcases List.mem_append.mp hq with hq | hq
    · exact d.batch hq
    · rw [List.mem_singleton.mp hq]
      exact hev
  · exact fun hq => d.heap (Multiset.mem_cons_of_mem hq)
  · intro q
    by_cases hqp : q = p
    · subst hqp
      rw [hm.view_self, if_pos (by simp)]
    · rw [hm.view_of_ne hqp, d.view_eq]
      simp [hqp]

/-- The views once the batch is written and unlocked. -/
def rebase (cb : Cleanup) (x : PageId → PageView C) (pgs : List PageId) (q : PageId) :
    PageView C :=
  if q ∈ pgs then (x q).synced cb else x q

/-- No two cached pages have the same key. -/
def Distinct (x : PageId → PageView C) : Prop :=
  ∀ p q, (x p).tree .rdx = true → (x q).tree .rdx = true →
    (x p).page.pvd = (x q).page.pvd → (x p).page.index = (x q).page.index → p = q

lemma distinct_view (e : Env C) (s : State C) : Distinct (s.view e) :=
  fun _ _ hp hq hv hi => eq_of_cached hp hq hv hi

lemma rebase_page (cb : Cleanup) (x : PageId → PageView C) (pgs : List PageId) (q : PageId) :
    (rebase cb x pgs q).page.pvd = (x q).page.pvd ∧
    (rebase cb x pgs q).page.index = (x q).page.index ∧
    (rebase cb x pgs q).page.content = (x q).page.content ∧
    (rebase cb x pgs q).tree .rdx = (x q).tree .rdx := by
  simp only [rebase]
  split_ifs
  · rw [PageView.synced_eq]
    exact ⟨rfl, rfl, rfl, by simp [PageView.cleaned]⟩
  · exact ⟨rfl, rfl, rfl, rfl⟩

lemma Distinct.rebase (hx : Distinct x) : Distinct (rebase cb x pgs) := by
  intro p q hp hq hv hi
  obtain ⟨hpv, hpi, -, hpt⟩ := rebase_page cb x pgs p
  obtain ⟨hqv, hqi, -, hqt⟩ := rebase_page cb x pgs q
  exact hx p q (hpt ▸ hp) (hqt ▸ hq) (hpv ▸ hqv ▸ hv) (hpi ▸ hqi ▸ hi)

/-- A resident page stays resident when it is made clean. -/
lemma resident_synced {y : PageView C} (hr : Resident e p y) : Resident e p (y.synced cb) := by
  rw [PageView.synced_eq]
  exact
    { lt := hr.lt
      inUse := hr.inUse
      free := hr.free
      cpuid := hr.cpuid
      cached := by simpa [PageView.cleaned] using hr.cached
      tree := by simp [PageView.cleaned]
      clean := rfl
      dirty := rfl
      bufferId := rfl }

/-- Write a batch and unlock its pages. -/
lemma Draining.flush (d : Draining e cb v x H pgs s) (hx : Distinct x) :
    Draining e cb v (rebase cb x pgs) H [] (s.flush e v pgs) ∧
    (s.flush e v pgs).outside = { s.outside with disk := (s.flush e v pgs).disk } ∧
    WrittenBack e v x s (s.flush e v pgs) pgs := by
  have hk := d.placed.keeps_writePages v pgs
  set s₁ := s.writePages e v pgs with hs₁
  have hv₁ : ∀ q, s₁.view e q = s.view e q := fun q => congrFun hk.view_eq q
  have hb : Batch e (s₁.view e) (fun p y => y = (x p).batched cb) id s₁ pgs :=
    ⟨hk.placed, d.nodup, fun hp => (hv₁ _).trans (d.view_batch hp), fun q => by simp⟩
  have hu : Batch e (s₁.view e) (fun p y => y = (x p).batched cb)
      (fun y => { y with page := { y.page with locked := false } }) (s.flush e v pgs) pgs := by
    refine hb.foldl fun t p ht hp hv => ?_
    have hm := ht.moves_modifyPage p (f := fun t => { t with locked := false }) rfl rfl
    rw [hv, ← view_page e, hv] at hm
    exact hm
  have hout : (s.flush e v pgs).outside = s₁.outside :=
    foldl_outside (fun s p => outside_unlockTp s p) _ _
  have hdisk : (s.flush e v pgs).disk = s₁.disk := congrArg Outside.disk hout
  refine ⟨⟨hu.placed, ?_, d.heap_nodup, .nil, by simp, by simp, ?_, ?_⟩, ?_, ?_⟩
  · intro q
    simp only [rebase]
    split_ifs with hq
    · exact Or.inr (resident_synced (d.batch hq).1)
    · exact d.phase q
  · intro q hq
    rw [rebase, if_neg fun hp => d.disjoint hp hq]
    exact d.heap hq
  · intro q
    by_cases hq : q ∈ pgs
    · rw [hu.view_of_mem hq, hv₁, d.view_batch hq, if_neg List.not_mem_nil,
        if_neg (d.disjoint hq), rebase, if_pos hq, PageView.batched, PageView.synced_eq]
      rfl
    · rw [hu.view_of_not_mem hq, hv₁, d.view_eq, if_neg hq, if_neg List.not_mem_nil, rebase,
        if_neg hq]
  · rw [hout, hs₁, outside_writePages, hdisk]
  · have hback := writtenBack_writePages (e := e) (s := s) (v := v) (x := x) pgs ?_ ?_
    · exact hback.congr (fun _ _ => rfl) rfl rfl hdisk
    · intro p hp
      have hv := d.view_batch hp
      rw [← view_page e, hv]
      exact ⟨(d.batch hp).2.2.2, rfl, rfl⟩
    · intro p hp q hq hi
      have hp' := d.batch hp
      have hq' := d.batch hq
      exact hx p q hp'.1.cached hq'.1.cached (hp'.2.2.2.trans hq'.2.2.2.symm) hi

/-- The pages that are still to be taken have a page of their tree in the heap. -/
def Covered (e : Env C) (v : PvdId) (x : PageId → PageView C) (h : MinHeap) (H : Multiset PageId)
    (pgs : List PageId) (cpus : List ℕ) : Prop :=
  ∀ q, q ∉ pgs → q ∉ H → (x q).tree .dirty = true → (x q).page.pvd = some v →
    (x q).page.index % e.ncpus ∈ cpus → ∃ n ∈ h.elems, n.cpu = (x q).page.index % e.ncpus

/-- After a tree has been tried, its pages are covered. -/
lemma Draining.covered_of_empty (d : Draining e cb v x H pgs s) {cpu : ℕ}
    (hf : (s.trees ⟨.dirty, v, cpu⟩).first? = none) {q : PageId} (hq : q ∉ pgs) (hqH : q ∉ H)
    (ht : (x q).tree .dirty = true) (hv : (x q).page.pvd = some v)
    (hc : (x q).page.index % e.ncpus = cpu) : False := by
  have hview : s.view e q = x q := by rw [d.view_eq, if_neg hq, if_neg hqH]
  rw [← hview] at ht hv hc
  obtain ⟨v', hv', hl⟩ := view_tree.mp ht
  obtain rfl : v' = v := by simpa using hv'.symm.trans hv
  rw [treeLookup, show (s.pages q).index % e.ncpus = cpu from hc,
    KeyMap.lookup_of_first?_none hf] at hl
  exact absurd hl (by simp)

lemma Draining.fillHeap (cpus done : List ℕ) (d : Draining e cb v x (heapPages h) [] s)
    (hcov : Covered e v x h (heapPages h) [] done) (hs : fillHeap v cpus s h = .ok (s', h')) :
    Draining e cb v x (heapPages h') [] s' ∧ s'.outside = s.outside ∧
    Covered e v x h' (heapPages h') [] (done ++ cpus) := by
  induction cpus generalizing s h done with
  | nil =>
    obtain ⟨rfl, rfl⟩ : s = s' ∧ h = h' := by simpa [State.fillHeap] using hs
    exact ⟨d, rfl, by simpa using hcov⟩
  | cons cpu cpus ih =>
    simp only [State.fillHeap] at hs
    cases hp : s.pullTree v cpu h with
    | error err => simp [hp] at hs
    | ok r =>
      obtain ⟨s₁, h₁⟩ := r
      simp only [hp] at hs
      obtain ⟨hout, ⟨rfl, rfl, hf⟩ | ⟨n, hn, hcpu, d₁⟩⟩ := d.pullTree hp
      · have hcov' : Covered e v x h₁ (heapPages h₁) [] (done ++ [cpu]) := by
          intro q hq hqH ht hv hc
          rcases List.mem_append.mp hc with hc | hc
          · exact hcov q hq hqH ht hv hc
          · exact (d.covered_of_empty hf hq hqH ht hv (List.mem_singleton.mp hc)).elim
        simpa using ih (done ++ [cpu]) d hcov' hs
      · have hH : heapPages h₁ = n.p ::ₘ heapPages h := by
          rw [heapPages, hn, Multiset.map_cons]
          rfl
        rw [← hH] at d₁
        have hcov' : Covered e v x h₁ (heapPages h₁) [] (done ++ [cpu]) := by
          intro q hq hqH ht hv hc
          rw [hn]
          rcases List.mem_append.mp hc with hc | hc
          · rw [hH] at hqH
            obtain ⟨m, hm, hmc⟩ :=
              hcov q hq (fun hmem => hqH (Multiset.mem_cons_of_mem hmem)) ht hv hc
            exact ⟨m, Multiset.mem_cons_of_mem hm, hmc⟩
          · exact ⟨n, Multiset.mem_cons_self _ _, by rw [hcpu, List.mem_singleton.mp hc]⟩
        obtain ⟨d₂, hout₂, hc₂⟩ := ih (done ++ [cpu]) d₁ hcov' hs
        exact ⟨d₂, hout₂.trans hout, by simpa using hc₂⟩

/-- What a finished `write_dirty_pages` has done: all dirty pages of the pvd, and no others, have
been written and made clean. -/
structure Drained (e : Env C) (cb : Cleanup) (v : PvdId) (x : PageId → PageView C)
    (s s' : State C) (bs : List (List PageId)) : Prop where
  batch : Batch e x (Evictable e v) (PageView.synced cb) s' bs.flatten
  outside_eq : s'.outside = { s.outside with disk := s'.disk }
  synced : (∀ pgs ∈ bs, e.WritesBatch v x pgs) → Synced v x s s' bs.flatten
  wrote : e.WritesOnly → Wrote v x s s' bs.flatten
  complete {q : PageId} : (x q).tree .dirty = true → (x q).page.pvd = some v → q ∈ bs.flatten

/-- No page of the pvd is dirty any more. -/
lemma Drained.clean_after (hd : Drained e cb v x s s' bs) (hr : Resident e p (s'.view e p))
    (hv : (s'.view e p).page.pvd = some v) : (s'.view e p).page.isDirty = false := by
  by_cases hp : p ∈ bs.flatten
  · rw [hd.batch.view_of_mem hp, PageView.synced_page]
    rfl
  · rw [hd.batch.view_of_not_mem hp] at hr hv ⊢
    by_contra hne
    exact hp (hd.complete (hr.tree.trans (by simpa using hne)) hv)

/-- Steps inside the buffer do not count. -/
lemma Drained.of_outside {s₁ : State C} (hd : Drained e cb v x s₁ s' bs)
    (ho : s₁.outside = s.outside) : Drained e cb v x s s' bs := by
  have hpvds : s₁.pvds = s.pvds := congrArg Outside.pvds ho
  have hdisk : s₁.disk = s.disk := congrArg Outside.disk ho
  refine ⟨hd.batch, by rw [hd.outside_eq, ho], fun hw => ?_, fun hw => ?_, hd.complete⟩
  · obtain ⟨hwr, hot⟩ := hd.synced hw
    rw [hpvds] at hwr hot
    rw [hdisk] at hot
    exact ⟨hwr, hot⟩
  · have := hd.wrote hw
    rwa [Wrote, hpvds, hdisk] at this

/-- The last batch. -/
lemma Draining.done (d : Draining e cb v x 0 [] s)
    (hc : ∀ q, (x q).tree .dirty = true → (x q).page.pvd ≠ some v) : Drained e cb v x s s [] where
  batch := ⟨d.placed, .nil, by simp, fun q => by simpa using d.view_eq q⟩
  outside_eq := rfl
  synced _ := ⟨by simp, fun _ => rfl⟩
  wrote _ _ := Or.inl rfl
  complete ht hv := absurd hv (hc _ ht)

/-- What happens after a flush adds to what was flushed. -/
lemma Drained.flush {s₁ : State C} (hx : Distinct x)
    (d : Draining e cb v x H pgs s) (hs₁ : s₁ = s.flush e v pgs)
    (hd : Drained e cb v (rebase cb x pgs) s₁ s' bs) :
    Drained e cb v x s s' (pgs :: bs) := by
  obtain ⟨d₁, hout, hsync⟩ := d.flush hx
  rw [← hs₁] at hout hsync
  set pgs' := bs.flatten with hpgs'
  have hnot : ∀ {q}, q ∈ pgs' → q ∉ pgs := by
    intro q hq hmem
    have := (hd.batch.all hq).2.1
    rw [rebase, if_pos hmem, PageView.synced_page] at this
    exact Bool.false_ne_true this
  have hre : ∀ {q}, q ∈ pgs' → rebase cb x pgs q = x q := fun hq => by
    rw [rebase, if_neg (hnot hq)]
  have hall : ∀ {q}, q ∈ pgs' → Evictable e v q (x q) := fun hq => hre hq ▸ hd.batch.all hq
  have hpvds : s₁.pvds = s.pvds := congrArg Outside.pvds hout
  constructor
  · refine ⟨hd.batch.placed, ?_, ?_, fun q => ?_⟩
    · exact List.nodup_append'.mpr ⟨d.nodup, hd.batch.nodup, fun q hq hq' => hnot hq' hq⟩
    · intro q hq
      rcases List.mem_append.mp hq with hq | hq
      · exact d.batch hq
      · exact hall hq
    · rw [List.flatten_cons, ← hpgs']
      by_cases hq : q ∈ pgs'
      · rw [hd.batch.view_of_mem hq, hre hq, if_pos (List.mem_append.mpr (Or.inr hq))]
      · rw [hd.batch.view_of_not_mem hq, rebase]
        simp [hq]
  · rw [hd.outside_eq, hout]
  · intro hw
    have h₁ := hsync.synced (hw pgs List.mem_cons_self)
    obtain ⟨hwr, hot⟩ := hd.synced fun b hb =>
      (hw b (List.mem_cons_of_mem _ hb)).congr fun p _ => (rebase_page cb x pgs p).2.1
    rw [hpvds] at hwr hot
    constructor
    · intro p hp
      by_cases hp' : p ∈ pgs'
      · have := hwr hp'
        rwa [hre hp'] at this
      · have hp := (List.mem_append.mp hp).resolve_right hp'
        rw [hot, h₁.written hp]
        intro q hq heq
        rw [hre hq] at heq
        have hi := (Prod.mk.inj heq).2
        have hpe := d.batch hp
        have hqe := hall hq
        have := hx p q hpe.1.cached hqe.1.cached (hpe.2.2.2.trans hqe.2.2.2.symm) hi
        exact hp' (this ▸ hq)
    · intro a ha
      rw [hot, h₁.other]
      · exact fun p hp => ha p (List.mem_append.mpr (Or.inl hp))
      · intro p hp
        rw [hre hp]
        exact ha p (List.mem_append.mpr (Or.inr hp))
  · intro hw a
    rcases hd.wrote hw a with h₂ | ⟨p, hp, ha, h₂⟩
    · rcases hsync.wrote hw a with h₁ | ⟨p, hp, ha, h₁⟩
      · exact Or.inl (h₂.trans h₁)
      · exact Or.inr ⟨p, List.mem_append.mpr (Or.inl hp), ha, h₂.trans h₁⟩
    · rw [hre hp] at ha h₂
      rw [hpvds] at ha
      exact Or.inr ⟨p, List.mem_append.mpr (Or.inr hp), ha, h₂⟩
  · intro q ht hv
    by_cases hq : q ∈ pgs
    · exact List.mem_append.mpr (Or.inl hq)
    · refine List.mem_append.mpr (Or.inr (hd.complete ?_ ?_)) <;> rw [rebase, if_neg hq] <;>
        assumption

lemma heapPages_deleteMin {n : HeapNode} (hz : h.size ≠ 0) (hd : minHeapDeleteMin h = (n, h')) :
    h.elems = n ::ₘ h'.elems := by
  have := BinHeap.elems_deleteMin HeapNode.offset h hz
  rw [show h.deleteMin HeapNode.offset = (n, h') from hd] at this
  exact this.symm

lemma heapPages_eq_cons {n : HeapNode} (hz : h.size ≠ 0) (hd : minHeapDeleteMin h = (n, h')) :
    heapPages h = n.p ::ₘ heapPages h' := by
  rw [heapPages, heapPages_deleteMin hz hd, Multiset.map_cons]
  rfl

/-- An iteration takes a page of the heap to the batch and refills the heap from its tree. -/
lemma Draining.step (d : Draining e cb v x (heapPages h) pgs s)
    (hcov : Covered e v x h (heapPages h) pgs (List.range e.ncpus)) {n : HeapNode}
    {h₁ h₂ : MinHeap} {s₁ : State C} (hz : h.size ≠ 0) (hd : minHeapDeleteMin h = (n, h₁))
    (hs : s.pullTree v n.cpu h₁ = .ok (s₁, h₂)) :
    Draining e cb v x (heapPages h₂) (pgs ++ [n.p]) (State.pageCleanup cb s₁ n.p) ∧
    (State.pageCleanup cb s₁ n.p).outside = s.outside ∧
    Covered e v x h₂ (heapPages h₂) (pgs ++ [n.p]) (List.range e.ncpus) := by
  have hel := heapPages_deleteMin hz hd
  rw [heapPages_eq_cons hz hd] at d hcov
  obtain ⟨hout, ⟨rfl, rfl, hf⟩ | ⟨m, hm, hmc, d₁⟩⟩ := d.pullTree hs
  · refine ⟨d.pageCleanup, (outside_pageCleanup cb s₁ n.p).trans hout, ?_⟩
    intro q hq hqH ht hv hc
    have hq' : q ∉ pgs := fun hp => hq (List.mem_append.mpr (Or.inl hp))
    have hqn : q ∉ n.p ::ₘ heapPages h₂ := by
      intro hmem
      rcases Multiset.mem_cons.mp hmem with rfl | hmem
      · exact hq (by simp)
      · exact hqH hmem
    obtain ⟨m, hm, hmc⟩ := hcov q hq' hqn ht hv hc
    rw [hel] at hm
    rcases Multiset.mem_cons.mp hm with rfl | hm
    · exact (d.covered_of_empty hf hq' hqn ht hv hmc.symm).elim
    · exact ⟨m, hm, hmc⟩
  · have hH₂ : heapPages h₂ = m.p ::ₘ heapPages h₁ := by
      rw [heapPages, hm, Multiset.map_cons]
      rfl
    rw [Multiset.cons_swap, ← hH₂] at d₁
    refine ⟨d₁.pageCleanup, (outside_pageCleanup cb s₁ n.p).trans hout, ?_⟩
    intro q hq hqH ht hv hc
    rw [hH₂] at hqH
    have hqn : q ∉ n.p ::ₘ heapPages h₁ := by
      intro hmem
      rcases Multiset.mem_cons.mp hmem with rfl | hmem
      · exact hq (by simp)
      · exact hqH (Multiset.mem_cons_of_mem hmem)
    obtain ⟨k, hk, hkc⟩ :=
      hcov q (fun hp => hq (List.mem_append.mpr (Or.inl hp))) hqn ht hv hc
    rw [hel] at hk
    rw [hm]
    rcases Multiset.mem_cons.mp hk with rfl | hk
    · exact ⟨m, Multiset.mem_cons_self _ _, hmc.trans hkc⟩
    · exact ⟨k, Multiset.mem_cons_of_mem hk, hkc⟩

lemma Covered.rebase (h₀ : Covered e v x h H pgs (List.range e.ncpus)) :
    Covered e v (rebase cb x pgs) h H [] (List.range e.ncpus) := by
  intro q _ hqH ht hv hc
  by_cases hq : q ∈ pgs
  · rw [State.rebase, if_pos hq, PageView.synced_eq] at ht
    simp [PageView.cleaned] at ht
  · rw [State.rebase, if_neg hq] at ht hv hc ⊢
    exact h₀ q hq hqH ht hv hc

/-- The main loop, from any point of it. -/
lemma Draining.drain (fuel : ℕ) (hx : Distinct x) (d : Draining e cb v x (heapPages h) pgs s)
    (hcov : Covered e v x h (heapPages h) pgs (List.range e.ncpus))
    (hs : drain e cb v fuel h pgs s = .ok s') :
    Drained e cb v x s s' (drainBatches e cb v fuel h pgs s) := by
  induction fuel generalizing x h pgs s with
  | zero => exact absurd hs (by simp [State.drain])
  | succ fuel ih =>
    simp only [State.drain] at hs
    simp only [State.drainBatches]
    by_cases hz : h.size = 0
    · rw [if_pos hz] at hs ⊢
      have hel : h.elems = 0 := by simp [BinHeap.elems, hz]
      have hH : heapPages h = 0 := by simp [heapPages, hel]
      rw [hH] at d hcov
      have hleft : ∀ {y : PageId → PageView C}, Covered e v y h 0 [] (List.range e.ncpus) →
          ∀ q, (y q).tree .dirty = true → (y q).page.pvd ≠ some v := by
        intro y hy q ht hv
        obtain ⟨m, hm, -⟩ := hy q (by simp) (by simp) ht hv
          (List.mem_range.mpr (Nat.mod_lt _ e.ncpus_pos))
        simp [hel] at hm
      -- the last batch may be empty
      by_cases hn : pgs = []
      · subst hn
        obtain rfl : s = s' := by simpa using hs
        exact d.done (hleft hcov)
      · obtain rfl : s.flush e v pgs = s' := by simpa [hn] using hs
        rw [if_neg hn]
        exact Drained.flush hx d rfl ((d.flush hx).1.done (hleft hcov.rebase))
    · rw [if_neg hz] at hs ⊢
      rcases hd : minHeapDeleteMin h with ⟨n, h₁⟩
      simp only [hd] at hs ⊢
      cases hp : s.pullTree v n.cpu h₁ with
      | error err => simp [hp] at hs
      | ok r =>
        obtain ⟨s₁, h₂⟩ := r
        simp only [hp] at hs ⊢
        obtain ⟨d₁, hout, hcov₁⟩ := d.step hcov hz hd hp
        split_ifs at hs ⊢ with hfull
        · have hl := ih hx.rebase (d₁.flush hx).1 hcov₁.rebase hs
          exact (Drained.flush hx d₁ rfl hl).of_outside hout
        · exact (ih hx d₁ hcov₁ hs).of_outside hout

/-- `write_dirty_pages` makes exactly the dirty pages of the pvd clean and writes them. -/
lemma Inv.writeDirtyPages (hi : s.Inv e) (hs : s.writeDirtyPages e cb v = .ok s') :
    Drained e cb v (s.view e) s s' (s.syncBatches e cb v) := by
  simp only [State.writeDirtyPages] at hs
  simp only [State.syncBatches]
  cases hf : fillHeap v (List.range e.ncpus) s minHeapCreate with
  | error err => simp [hf] at hs
  | ok r =>
    obtain ⟨s₁, h₁⟩ := r
    simp only [hf] at hs ⊢
    have d₀ : Draining e cb v (s.view e) (heapPages minHeapCreate) [] s :=
      ⟨hi.placed, hi.page, by simp, .nil, by simp, by simp, by simp, fun q => by simp⟩
    obtain ⟨d₁, hout, hcov⟩ := Draining.fillHeap (List.range e.ncpus) [] d₀
      (fun q _ _ _ _ hc => absurd hc List.not_mem_nil) hf
    exact (d₁.drain _ (distinct_view e s) (by simpa using hcov) hs).of_outside hout

end State

end FastMap
