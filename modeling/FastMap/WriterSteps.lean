import FastMap.FaultSteps

/-!
# Steps of the writers

Every step of `evictor_thread` and of `write_dirty_pages` keeps the invariant of the machine.
-/

namespace FastMap

variable {C : Type*}

namespace State

variable {e : Env C} {s s' : State C}

/-- How one attempt to take a page out of a dirty tree ends. -/
lemma Placed.pullOnce_cases (h : s.Placed e) {v : PvdId} {cpu : ℕ} {hp hp' : MinHeap}
    {b : Option Bool} (hs : s.pullOnce v cpu hp = .ok (b, s', hp')) :
    (b = none ∧ s' = s ∧ hp' = hp ∧ (s.trees ⟨.dirty, v, cpu⟩).first? = none) ∨
    (b = some false ∧ s' = s ∧ hp' = hp) ∨
    ∃ n, b = some true ∧ hp'.elems = n ::ₘ hp.elems ∧ n.cpu = cpu ∧
      (s.pages n.p).inUse = true ∧ (s.pages n.p).locked = false ∧ (s.pages n.p).pvd = some v ∧
      (s.view e n.p).tree .dirty = true ∧ Moves e s s' n.p (s.view e n.p).heaped := by
  simp only [pullOnce] at hs
  split at hs
  · rename_i hf
    obtain ⟨rfl, rfl, rfl⟩ : none = b ∧ s = s' ∧ hp = hp' := by simpa using hs
    exact Or.inl ⟨rfl, rfl, rfl, hf⟩
  · rename_i k p hf
    have hlook := KeyMap.lookup_of_first? hf
    obtain ⟨hcpu, hv, hk⟩ := h.tree_own hlook
    have htree := h.tree_of_lookup hlook
    rcases s.trylockTp_cases p ulongMax with ⟨r, hr, ht⟩ | ⟨hu, hl, -, ht⟩
    · rw [ht] at hs
      split at hs
      · rename_i heq
        exact absurd (Prod.mk.inj heq).1 hr
      · rename_i heq
        obtain ⟨-, rfl⟩ := Prod.mk.inj heq
        obtain ⟨rfl, rfl, rfl⟩ : some false = b ∧ s = s' ∧ hp = hp' := by simpa using hs
        exact Or.inr (Or.inl ⟨rfl, rfl, rfl⟩)
    · rw [ht] at hs
      set s₁ := s.modifyPage p fun t => { t with locked := true } with hs₁
      cases hi : minHeapInsert hp ⟨cpu, (s₁.pages p).index, p⟩ with
      | error err => simp [hi] at hs
      | ok h₁ =>
        obtain ⟨rfl, rfl, rfl⟩ :
            some true = b ∧ s₁.treeErase ⟨.dirty, v, cpu⟩ k = s' ∧ h₁ = hp' := by
          simpa [hi] using hs
        have hm := h.moves_modifyPage p (f := fun t => { t with locked := true }) rfl rfl
        have hpage := hm.pages_self
        have he := hm.placed.moves_treeErase (p := p) (v := v) (k := .dirty)
          (by rw [hpage]; exact hv) (by rw [hm.view_self]; exact htree)
        rw [hm.view_self, hpage] at he
        refine Or.inr (Or.inr ⟨_, rfl, heapPages_insert hi, rfl, hu, hl, hv, htree, ?_⟩)
        rw [show cpu = k % e.ncpus from hcpu, ← hk]
        exact hm.trans he

end State

namespace Machine

open State

variable {e : Env C} {m : Machine C} {s' : State C} {t : Tid} {pc pc' : Pc}
  {log : List (BlockWrite C)} {p q : PageId} {w : PageView C}

/-! ### `evictor_thread` -/

lemma evictor_of_transit {c : Scan} (h : pc.transit = some (c, p)) : pc.evictor = some c.id := by
  unfold Pc.transit at h
  split at h
  · obtain ⟨rfl, rfl⟩ := Prod.mk.inj (Option.some.inj h)
    rfl
  · obtain ⟨rfl, rfl⟩ := Prod.mk.inj (Option.some.inj h)
    rfl
  · exact absurd h (by simp)

/-- Only the evictor of its dirty queue moves a page. -/
lemma Inv.mover (h : Inv e m) {u : Tid} {c : Scan} (hc : (m.pc u).transit = some (c, p)) :
    u = .evictor c.id ∧ dirtyQueue (m.st.pages p).index = .dirty c.id := by
  obtain ⟨-, hi, hid⟩ := (h.thread u).transit hc
  refine ⟨(h.thread u).evictor (evictor_of_transit hc), ?_⟩
  rw [hi, dirtyQueue, hid]

/-- A page of an evictor's own queue is not moved by anybody else. -/
lemma Inv.not_moved_of_queue (h : Inv e m) {id : ℕ} (he : (m.pc t).evictor = some id)
    (htr : (m.pc t).transit = none) (hq : dirtyQueue (m.st.pages p).index = .dirty id) :
    ¬ m.Moved p := by
  rintro ⟨u, c, hc⟩
  obtain ⟨hu, hid⟩ := h.mover hc
  obtain rfl : id = c.id := by simpa [hq] using hid
  obtain rfl : u = t := hu.trans ((h.thread t).evictor he).symm
  simp [htr] at hc

/-- Nobody else has moved the page that an evictor has moved. -/
lemma Inv.not_moved_after (h : Inv e m) {c : Scan} (htr : (m.pc t).transit = some (c, q))
    (htr' : pc'.transit = none) : ¬ (m.put t s' pc' log).Moved q := by
  rw [moved_put]
  rintro (⟨c', hc'⟩ | ⟨u, hu, c', hc'⟩)
  · simp [htr'] at hc'
  · obtain ⟨hu', hq'⟩ := h.mover hc'
    obtain ⟨ht', hq⟩ := h.mover htr
    have hid : c'.id = c.id := by simpa [hq] using hq'.symm
    exact hu (by rw [hu', ht', hid])

lemma Inv.stepEvict_take (h : Inv e m) (htab : Table m t s' pc' log) {id : ℕ}
    (hpc : m.pc t = .evict (.take id)) (hs : m.st.stepEvict e (.take id) = .ok (s', pc')) :
    Inv e (m.put t s' pc' log) := by
  simp only [stepEvict] at hs
  rcases h.placed.dequeueIf_cases (q := .dirty id) locks_evDeq with
    ⟨s₁, hd, hk⟩ | ⟨p, s₁, hd, hp, hu, hl, -, hm⟩
  · rw [hd] at hs
    obtain ⟨rfl, rfl⟩ := Prod.mk.inj (Except.ok.inj hs)
    refine h.pass hpc hk htab (fun q => ?_) (settles_of_none rfl rfl rfl rfl)
    constructor <;> simp [Pc.Holds, Pc.locks, Pc.fresh, Pc.transit]
  · rw [hd] at hs
    obtain ⟨rfl, rfl⟩ := Prod.mk.inj (Except.ok.inj hs)
    obtain ⟨hun, hat, hq⟩ := h.at_of_queue hp hl
    have hdirty : (m.st.pages p).isDirty = true := by
      by_contra hd
      simp [hd, cleanQueue] at hq
    rw [hdirty, if_pos rfl] at hq
    refine h.acquire hpc hm htab ⟨fun he => he, rfl, rfl, rfl⟩ (fun q hq => ?_) ⟨rfl, rfl, rfl⟩ rfl
      hun (Or.inl (by simp [Pc.locks])) hq.symm fun _ => hat.dequeued hdirty
    constructor <;> simp [Pc.Holds, Pc.locks, Pc.fresh, Pc.transit, hq]

lemma Inv.stepEvict_untree (h : Inv e m) (htab : Table m t s' pc' log) {id : ℕ}
    (hpc : m.pc t = .evict (.untree id p)) (hs : m.st.stepEvict e (.untree id p) = .ok (s', pc')) :
    Inv e (m.put t s' pc' log) := by
  simp only [stepEvict] at hs
  split at hs
  · exact absurd hs (by simp)
  · rename_i v hv
    obtain ⟨rfl, rfl⟩ := Prod.mk.inj (Except.ok.inj hs)
    have hh : (m.pc t).Holds p := by rw [hpc]; exact Or.inl (by simp [Pc.locks])
    obtain ⟨hat, hk⟩ := (h.page p).held hh
    rw [hpc] at hat hk
    have hmv : ¬ m.Moved p :=
      h.not_moved_of_queue (by rw [hpc]; rfl) (by rw [hpc]; rfl) hk
    have hm := h.placed.moves_treeErase hv (hat.tree.mpr ⟨rfl, hmv⟩)
    have herase : m.st.removeFromDirtyTree e p =
        m.st.treeErase ⟨.dirty, v, (m.st.pages p).index % e.ncpus⟩ (m.st.pages p).index := by
      simp only [removeFromDirtyTree, hv]
    rw [← herase] at hm
    refine h.hold hpc hm htab ⟨fun he => he, rfl, rfl, rfl⟩ (fun q hq => ?_) ⟨rfl, rfl, rfl⟩ rfl
      (Or.inl (by simp [Pc.locks])) (Or.inl (by simp [Pc.locks])) (fun _ => hv) fun _ =>
        hat.grabbed hmv
    constructor <;> simp [Pc.Holds, Pc.locks, Pc.fresh, Pc.transit, hq]

lemma Inv.stepEvict_scan (h : Inv e m) (htab : Table m t s' pc' log) {c : Scan}
    (hpc : m.pc t = .evict (.scan c)) (hs : m.st.stepEvict e (.scan c) = .ok (s', pc')) :
    Inv e (m.put t s' pc' log) := by
  simp only [stepEvict] at hs
  split_ifs at hs with hstop
  · obtain ⟨rfl, rfl⟩ := Prod.mk.inj (Except.ok.inj hs)
    refine h.pass hpc ⟨h.placed, rfl⟩ htab (fun q => ?_)
      (settles_of_none rfl rfl rfl rfl)
    constructor <;> simp [Pc.Holds, Pc.locks, Pc.fresh, Pc.transit, Pc.stage, Pc.Knows]
  · split at hs
    · obtain ⟨rfl, rfl⟩ := Prod.mk.inj (Except.ok.inj hs)
      refine h.pass hpc ⟨h.placed, rfl⟩ htab (fun q => ?_) ⟨fun he => he, rfl, rfl, rfl⟩
      constructor <;>
        simp [Pc.Holds, Pc.locks, Pc.fresh, Pc.transit, Pc.stage, Pc.Knows, Scan.next]
    · -- a neighbour leaves its tree, locked or not
      rename_i q hl
      obtain ⟨rfl, rfl⟩ := Prod.mk.inj (Except.ok.inj hs)
      obtain ⟨ht, hv, hi⟩ := h.placed.treeLookup_iff.mp hl
      have hm := h.placed.moves_treeErase hv ht
      rw [hi] at hm
      have hmv : (m.put t (m.st.treeErase ⟨.dirty, c.pvd, c.offset % e.ncpus⟩ c.offset)
          (.evict (.grab c q)) log).Moved q := moved_put.mpr (Or.inl ⟨c, rfl⟩)
      refine h.toggle hpc hm rfl htab (fun p hp => ?_) ?_ rfl id ?_ rfl rfl
        (fun hat => hat.move ht hmv) (Or.inl ht)
      · constructor <;>
          simp [Pc.Holds, Pc.locks, Pc.fresh, Pc.transit, Pc.stage, Pc.Knows, Ne.symm hp]
      · simp [Pc.Holds, Pc.locks, Pc.fresh]
      · refine ⟨fun he => ?_, fun hc => ?_, fun ha => ?_, fun hf => ?_⟩
        · rw [put_pc_self] at he
          exact (h.thread t).evictor (by rw [hpc]; exact he)
        · obtain ⟨rfl, rfl⟩ : c = _ ∧ q = _ := by simpa [Pc.transit] using hc
          refine ⟨hv, hi, ?_⟩
          simp only [not_or, not_not] at hstop
          exact hstop.2.2
        · simp [Pc.await] at ha
        · simp [Pc.fresh] at hf

lemma Inv.stepEvict_grab (h : Inv e m) (htab : Table m t s' pc' log) {c : Scan}
    (hpc : m.pc t = .evict (.grab c q)) (hs : m.st.stepEvict e (.grab c q) = .ok (s', pc')) :
    Inv e (m.put t s' pc' log) := by
  have htr : (m.pc t).transit = some (c, q) := by rw [hpc]; rfl
  obtain ⟨hv, hi, hid⟩ := (h.thread t).transit htr
  simp only [stepEvict, removeIf] at hs
  rcases locks_evDeq m.st q with hf | ⟨htrue, hu, hl, -⟩
  · -- somebody works on the page
    rw [hf] at hs
    obtain ⟨rfl, rfl⟩ := Prod.mk.inj (Except.ok.inj hs)
    refine h.skip hpc ⟨h.placed, rfl⟩ htab (fun p => ?_) ?_ fun u p _ =>
      ⟨by simp [Pc.fresh], by simp [Pc.await]⟩
    · constructor <;> simp [Pc.Holds, Pc.locks, Pc.fresh, Pc.transit, Pc.stage, Pc.Knows]
    · refine ⟨fun he => ?_, fun hc => ?_, fun ha => ?_, fun hfr => ?_⟩
      · rw [put_pc_self] at he
        exact (h.thread t).evictor (by rw [hpc]; exact he)
      · obtain ⟨rfl, rfl⟩ : c = _ ∧ q = _ := by simpa [Pc.transit] using hc
        exact ⟨hv, hi, hid⟩
      · simp [Pc.await] at ha
      · simp [Pc.fresh] at hfr
  · -- the page is at rest and in the queue of this evictor
    rw [htrue] at hs
    obtain ⟨rfl, rfl⟩ := Prod.mk.inj (Except.ok.inj hs)
    have hmv : m.Moved q := ⟨t, c, htr⟩
    have hrdx := h.rdx_of_tree (Or.inr hmv)
    have hun := h.unheld_of_tree hl hrdx
    have hat : At e q (m.Moved q) .cached (m.st.view e q) :=
      ((h.page q).rest hun).at_of_inUse hu
    have hd : (m.st.pages q).isDirty = true := by simpa using hat.moved hmv
    have hmem : q ∈ (m.st.queues (.dirty c.id)).buffer := by
      have hdq : (m.st.view e q).dirty = true := by rw [hat.dirty]; exact hd
      have := (view_dirty e _ _).mp hdq
      rwa [hi, dirtyQueue, hid] at this
    have hm := h.placed.moves_lock_remove hmem
    have hnot : ¬ (m.put t ((m.st.modifyPage q fun t => { t with locked := true }).remove
        (.dirty c.id) q) (.evict (.scan (c.next (c.pgs ++ [q])))) log).Moved q :=
      h.not_moved_after htr rfl
    refine h.act hpc hm htab (fun u _ => hun u) (fun p hp => ?_)
      (SameName.steady ⟨rfl, rfl, rfl⟩) ⟨fun he => he, rfl, rfl, rfl⟩ (iff_of_false hnot id)
      (fun _ => ⟨hat.gathered hmv id, hv⟩) fun hno => absurd (Or.inl ?_) hno
    · constructor <;>
        simp [Pc.Holds, Pc.locks, Pc.fresh, Pc.transit, Pc.stage, Pc.Knows, Scan.next, hp,
          Ne.symm hp]
    · simp [Pc.locks, Scan.next]

lemma Inv.stepEvict_back (h : Inv e m) (htab : Table m t s' pc' log) {c : Scan}
    (hpc : m.pc t = .evict (.back c q)) (hs : m.st.stepEvict e (.back c q) = .ok (s', pc')) :
    Inv e (m.put t s' pc' log) := by
  have htr : (m.pc t).transit = some (c, q) := by rw [hpc]; rfl
  obtain ⟨hv, -, -⟩ := (h.thread t).transit htr
  have hmv : m.Moved q := ⟨t, c, htr⟩
  obtain ⟨rfl, rfl⟩ := Prod.mk.inj (Except.ok.inj hs)
  have hout : (m.st.view e q).tree .dirty = false := by
    rw [Bool.eq_false_iff]
    intro ht
    obtain ⟨g, hat⟩ := h.at_of_tree (Or.inr hmv)
    exact (hat.tree.mp ht).2 hmv
  have hm := h.placed.moves_treeInsert (k := .dirty) hv
    (h.dirtyTree_vacant (h.rdx_of_tree (Or.inr hmv)) hv hout)
  have hnot : ¬ (m.put t (m.st.treeInsert e .dirty c.pvd (m.st.pages q).index q)
      (.evict (.scan (c.next c.pgs))) log).Moved q :=
    h.not_moved_after htr rfl
  refine h.toggle hpc hm rfl htab (fun p hp => ?_) ?_ rfl id ((h.thread t).settles ?_) rfl rfl
    (fun hat => hat.unmove hmv hnot) (Or.inr hmv)
  · constructor <;>
      simp [Pc.Holds, Pc.locks, Pc.fresh, Pc.transit, Pc.stage, Pc.Knows, Scan.next, Ne.symm hp]
  · simp [Pc.Holds, Pc.locks, Pc.fresh, Scan.next]
  · rw [hpc]
    exact ⟨fun he => he, rfl, rfl, rfl⟩

/-- A loop over pages that the thread holds. -/
lemma Inv.clear_pages {l : List PageId} (htr : pc.transit = none) (ha : pc.await = none)
    (hf : pc.fresh = none) (h : Inv e m) (hpc : m.pc t = pc) (hl : ∀ p ∈ l, pc.Holds p) :
    Inv e (m.put t (l.foldl clearMappings m.st) pc log) := by
  induction l generalizing m with
  | nil => exact h.stay hpc
  | cons p l ih =>
    have hm := h.placed.moves_clearMappings (p := p)
    rw [PageView.wrprotected_eq] at hm
    have htab : Table m t (m.st.clearMappings p) pc log := by
      have hpcs : (m.put t (m.st.clearMappings p) pc log).pc = m.pc := by
        rw [put, ← hpc, Function.update_eq_self]
      rw [Table, lockBits_clearMappings, hpcs]
      exact h.table
    have hp := hl p List.mem_cons_self
    have h₁ := h.hold hpc hm htab ⟨fun he => he, htr, ha, hf⟩
      (fun q _ => ⟨Iff.rfl, fun _ => rfl, fun _ _ _ hk => hk, Iff.rfl⟩) ⟨rfl, rfl, rfl⟩ htr hp hp id
      fun hat => hat.congr Iff.rfl rfl rfl rfl rfl rfl rfl rfl rfl
    have := ih h₁ put_pc_self fun q hq => hl q (List.mem_cons_of_mem p hq)
    rwa [put_put] at this

lemma Inv.stepEvict (h : Inv e m) (htab : Table m t s' pc' log) {x : EvictPc}
    (hpc : m.pc t = .evict x) (hs : m.st.stepEvict e x = .ok (s', pc')) :
    Inv e (m.put t s' pc' log) := by
  have hnodup := h.table.nodup t
  rw [hpc] at hnodup
  cases x with
  | take id => exact h.stepEvict_take htab hpc hs
  | untree id p => exact h.stepEvict_untree htab hpc hs
  | scan c => exact h.stepEvict_scan htab hpc hs
  | grab c q => exact h.stepEvict_grab htab hpc hs
  | back c q => exact h.stepEvict_back htab hpc hs
  | clear v pgs =>
    obtain ⟨rfl, rfl⟩ := Prod.mk.inj (Except.ok.inj hs)
    have h₁ : Inv e (m.put t (pgs.foldl clearMappings m.st) (.evict (.clear v pgs)) log) :=
      Inv.clear_pages rfl rfl rfl h hpc fun p hp => Or.inl (by simpa [Pc.locks] using hp)
    have h₂ : Inv e ((m.put t (pgs.foldl clearMappings m.st) (.evict (.clear v pgs)) log).put t
        (pgs.foldl clearMappings m.st) (.evict (.write v pgs)) log) := by
      refine h₁.pass put_pc_self ⟨h₁.placed, rfl⟩ (by rw [Table, put_put]; exact htab) (fun q => ?_)
        (settles_of_none rfl rfl rfl rfl)
      constructor <;> simp [Pc.Holds, Pc.locks, Pc.fresh, Pc.transit, Pc.stage, Pc.Knows]
    rwa [put_put] at h₂
  | write v pgs =>
    obtain ⟨rfl, rfl⟩ := Prod.mk.inj (Except.ok.inj hs)
    refine h.pass hpc (h.placed.keeps_writePages v pgs) htab (fun q => ?_)
      (settles_of_none rfl rfl rfl rfl)
    constructor <;> simp [Pc.Holds, Pc.locks, Pc.fresh, Pc.transit, Pc.stage, Pc.Knows]
  | insert v done todo =>
    cases todo with
    | nil =>
      obtain ⟨rfl, rfl⟩ := Prod.mk.inj (Except.ok.inj hs)
      refine h.pass hpc ⟨h.placed, rfl⟩ htab (fun q => ?_)
        (settles_of_none rfl rfl rfl rfl)
      constructor
      · simp [Pc.Holds, Pc.locks, Pc.fresh]
      · intro hq
        have : q ∈ done := by simpa [Pc.Holds, Pc.locks, Pc.fresh] using hq
        simp [Pc.stage, this]
      · simp [Pc.Knows]
      · simp [Pc.transit]
    | cons p todo =>
      obtain ⟨rfl, rfl⟩ := Prod.mk.inj (Except.ok.inj hs)
      have hout : p ∉ done := by
        have := Multiset.coe_nodup.mp (by simpa only [Pc.locks, Multiset.coe_add] using hnodup)
        intro hp
        exact List.disjoint_of_nodup_append this hp List.mem_cons_self
      have hh : (m.pc t).Holds p := by rw [hpc]; exact Or.inl (by simp [Pc.locks])
      have hat := ((h.page p).held hh).1
      rw [hpc] at hat
      simp only [Pc.stage, hout, if_false] at hat
      have hm := h.placed.moves_insertPage true hat.lt hat.clean hat.dirty
      rw [Bool.not_true, Bool.and_false] at hm
      refine h.hold hpc hm htab (settles_of_none rfl rfl rfl rfl)
        (fun q hq => ?_) ⟨rfl, rfl, rfl⟩ rfl (Or.inl (by simp [Pc.locks]))
        (Or.inl (by simp [Pc.locks])) id fun _ => ?_
      · constructor <;> simp [Pc.Holds, Pc.locks, Pc.fresh, Pc.transit, Pc.stage, Pc.Knows, hq]
      · simp only [Pc.stage, List.mem_append, List.mem_singleton, or_true, if_true]
        exact hat.cleaned
  | unlock todo =>
    cases todo with
    | nil =>
      obtain ⟨rfl, rfl⟩ := Prod.mk.inj (Except.ok.inj hs)
      refine h.pass hpc ⟨h.placed, rfl⟩ htab (fun q => ?_)
        (settles_of_none rfl rfl rfl rfl)
      constructor <;> simp [Pc.Holds, Pc.locks, Pc.fresh, Pc.transit]
    | cons p todo =>
      obtain ⟨rfl, rfl⟩ := Prod.mk.inj (Except.ok.inj hs)
      have hout : p ∉ todo := (List.nodup_cons.mp (Multiset.coe_nodup.mp hnodup)).1
      have hm : Moves e m.st (m.st.unlockTp p) p _ :=
        h.placed.moves_modifyPage p (f := fun t => { t with locked := false }) rfl rfl
      refine h.release hpc hm htab (settles_of_none rfl rfl rfl rfl)
        (fun q hq => ?_) (SameName.steady ⟨rfl, rfl, rfl⟩) rfl (Or.inl (by simp [Pc.locks])) ?_
        fun hat => ?_
      · constructor <;> simp [Pc.Holds, Pc.locks, Pc.fresh, Pc.transit, Pc.stage, Pc.Knows, hq]
      · simpa [Pc.Holds, Pc.locks, Pc.fresh] using hout
      · exact (hat.cached_of_clean.setLocked false).atRest rfl

/-! ### `write_dirty_pages` -/

/-- A page goes from its dirty tree to the heap. -/
lemma Inv.pull (h : Inv e m) (htab : Table m t s' pc' log) {a : SyncArgs} {x : SyncPc}
    {x' : SyncPc} (hpc : m.pc t = .sync a x) (hpc' : pc' = .sync a x')
    (hlocks : pc'.locks = p ::ₘ (Pc.sync a x).locks)
    (hstage : ∀ q, q ≠ p → pc'.stage q = (Pc.sync a x).stage q)
    (hp : p ∉ (Pc.sync a x).locks → pc'.stage p = .heaped)
    (hl : (m.st.pages p).locked = false) (hv : (m.st.pages p).pvd = some a.pvd)
    (ht : (m.st.view e p).tree .dirty = true) (hm : Moves e m.st s' p (m.st.view e p).heaped) :
    Inv e (m.put t s' pc' log) := by
  subst hpc'
  have hun := h.unheld_of_tree hl ht
  have hout : p ∉ (Pc.sync a x).locks := fun hmem => hun t (by rw [hpc]; exact Or.inl hmem)
  refine h.acquire hpc hm htab (settles_of_none rfl rfl rfl rfl)
    (fun q hq => ?_) ⟨rfl, rfl, rfl⟩ rfl hun (Or.inl (by rw [hlocks]; simp)) hv fun hr => ?_
  · refine ⟨?_, fun _ => hstage q hq, fun _ _ _ hk => hk, by simp [Pc.transit]⟩
    simp [Pc.Holds, hlocks, Pc.fresh, hq]
  · rw [hp hout]
    obtain ⟨g, hat⟩ := h.at_of_tree (Or.inl ht)
    exact (hr.at_of_inUse hat.inUse).heaped ht

lemma heapPages_cons {hp hp' : MinHeap} {n : HeapNode} (h : hp'.elems = n ::ₘ hp.elems) :
    heapPages hp' = n.p ::ₘ heapPages hp := by
  rw [heapPages, h, Multiset.map_cons]
  rfl

lemma startCleanup_eq (a : SyncArgs) (p : PageId) (hp : MinHeap) (pgs : List PageId) :
    ∃ x, startCleanup a p hp pgs = .sync a x := by
  simp only [startCleanup]
  split <;> exact ⟨_, rfl⟩

lemma stage_startCleanup (a : SyncArgs) (p : PageId) (hp : MinHeap) (pgs : List PageId)
    (q : PageId) : (startCleanup a p hp pgs).stage q = if q ∈ pgs then .clean else .heaped := by
  simp only [startCleanup]
  split <;> rfl

lemma Inv.stepSync_fill (h : Inv e m) (htab : Table m t s' pc' log) {a : SyncArgs} {cpus : List ℕ}
    {hp : MinHeap} (hpc : m.pc t = .sync a (.fill cpus hp))
    (hs : m.st.stepSync e a (.fill cpus hp) = .ok (s', pc')) : Inv e (m.put t s' pc' log) := by
  cases cpus with
  | nil =>
    obtain ⟨rfl, rfl⟩ := Prod.mk.inj (Except.ok.inj hs)
    refine h.pass hpc ⟨h.placed, rfl⟩ htab (fun q => ?_)
      (settles_of_none rfl rfl rfl rfl)
    constructor <;> simp [Pc.Holds, Pc.locks, Pc.fresh, Pc.transit, Pc.stage, Pc.Knows]
  | cons cpu cpus =>
    obtain ⟨b, hp', hpull, rfl⟩ := stepSync_fill_cons hs
    rcases h.placed.pullOnce_cases hpull with
      ⟨rfl, rfl, rfl, -⟩ | ⟨rfl, rfl, rfl⟩ | ⟨n, rfl, he, -, -, hl, hv, ht, hm⟩
    · refine h.pass hpc ⟨h.placed, rfl⟩ htab (fun q => ?_) (settles_of_none rfl rfl rfl rfl)
      constructor <;> simp [Pc.Holds, Pc.locks, Pc.fresh, Pc.transit, Pc.stage, Pc.Knows]
    · exact h.stay hpc
    · exact h.pull htab hpc rfl (by simp only [Pc.locks]; exact heapPages_cons he)
        (fun _ _ => rfl) (fun _ => rfl) hl hv ht hm

lemma Inv.stepSync_min (h : Inv e m) (htab : Table m t s' pc' log) {a : SyncArgs}
    {pgs : List PageId} {hp : MinHeap} (hpc : m.pc t = .sync a (.min hp pgs))
    (hs : m.st.stepSync e a (.min hp pgs) = .ok (s', pc')) : Inv e (m.put t s' pc' log) := by
  simp only [stepSync] at hs
  split_ifs at hs with hz hn
  · obtain ⟨rfl, rfl⟩ := Prod.mk.inj (Except.ok.inj hs)
    refine h.pass hpc ⟨h.placed, rfl⟩ htab (fun q => ?_)
      (settles_of_none rfl rfl rfl rfl)
    have hno : ¬ (Pc.sync a (.min hp pgs)).Holds q := by
      simp [Pc.Holds, Pc.locks, Pc.fresh, hn, heapPages, BinHeap.elems, hz]
    constructor
    · simpa [Pc.Holds, Pc.locks, Pc.fresh] using hno
    · exact fun hh => absurd hh hno
    · exact fun hh => absurd hh hno
    · simp [Pc.transit]
  · obtain ⟨rfl, rfl⟩ := Prod.mk.inj (Except.ok.inj hs)
    refine h.pass hpc ⟨h.placed, rfl⟩ htab (fun q => ?_)
      (settles_of_none rfl rfl rfl rfl)
    constructor <;> simp [Pc.Holds, Pc.locks, Pc.fresh, Pc.transit, Pc.stage, Pc.Knows]
  · rcases hd : minHeapDeleteMin hp with ⟨n, hp'⟩
    rw [hd] at hs
    obtain ⟨rfl, rfl⟩ := Prod.mk.inj (Except.ok.inj hs)
    have hcons := heapPages_cons (heapPages_deleteMin hz hd)
    refine h.pass hpc ⟨h.placed, rfl⟩ htab (fun q => ?_)
      (settles_of_none rfl rfl rfl rfl)
    constructor
    · simp [Pc.Holds, Pc.locks, Pc.fresh, hcons]
    · simp [Pc.stage]
    · exact fun _ _ _ hk => hk
    · simp [Pc.transit]

lemma Inv.stepSync_pull (h : Inv e m) (htab : Table m t s' pc' log) {a : SyncArgs}
    {pgs : List PageId} {n : HeapNode} {hp : MinHeap} (hpc : m.pc t = .sync a (.pull n hp pgs))
    (hs : m.st.stepSync e a (.pull n hp pgs) = .ok (s', pc')) : Inv e (m.put t s' pc' log) := by
  obtain ⟨b, hp', hpull, heq⟩ := State.stepSync_pull hs
  have hlocks := locks_startCleanup a n.p hp' pgs
  have hstage := stage_startCleanup a n.p hp' pgs
  obtain ⟨x, hx⟩ := startCleanup_eq a n.p hp' pgs
  rw [hx] at hlocks hstage heq
  rcases h.placed.pullOnce_cases hpull with
    ⟨rfl, rfl, rfl, -⟩ | ⟨rfl, rfl, rfl⟩ | ⟨k, rfl, he, -, -, hl, hv, ht, hm⟩
  · obtain rfl : pc' = .sync a x := heq
    refine h.pass hpc ⟨h.placed, rfl⟩ htab (fun q => ?_) (settles_of_none rfl rfl rfl rfl)
    refine ⟨?_, fun _ => by rw [hstage]; rfl, fun _ _ _ hk => hk, by simp [Pc.transit]⟩
    simp only [Pc.Holds, hlocks, Pc.fresh]
    rfl
  · obtain rfl : pc' = .sync a (.pull n hp' pgs) := heq
    exact h.stay hpc
  · obtain rfl : pc' = .sync a x := heq
    refine h.pull htab hpc rfl ?_ (fun q _ => by rw [hstage]; rfl) (fun hout => ?_) hl hv ht hm
    · rw [hlocks, heapPages_cons he, Multiset.cons_add, Multiset.cons_swap]
      rfl
    · have : k.p ∉ pgs := fun hk => hout (by simp [Pc.locks, hk])
      rw [hstage, if_neg this]

lemma not_mem_of_hand {hp : MinHeap} {pgs : List PageId}
    (h : (p ::ₘ (heapPages hp + (pgs : Multiset PageId))).Nodup) : p ∉ pgs := by
  intro hmem
  exact (Multiset.nodup_cons.mp h).1 (Multiset.mem_add.mpr (Or.inr (Multiset.mem_coe.mpr hmem)))

/-- The page in hand joins its clean queue and the batch. -/
lemma Inv.stepSync_enqueue (h : Inv e m) {a : SyncArgs} {hp : MinHeap} {pgs : List PageId}
    {y : SyncPc} (htab : Table m t (m.st.insertPage p true) (.sync a y) log)
    (hpc : m.pc t = .sync a (.enqueue p hp pgs))
    (hlocks : (Pc.sync a y).locks = heapPages hp + ((pgs ++ [p] : List PageId) : Multiset PageId))
    (hstage : ∀ q, (Pc.sync a y).stage q = if q ∈ pgs ++ [p] then .clean else .heaped) :
    Inv e (m.put t (m.st.insertPage p true) (.sync a y) log) := by
  have hh : (m.pc t).Holds p := by rw [hpc]; exact Or.inl (by simp [Pc.locks])
  have hat := ((h.page p).held hh).1
  rw [hpc] at hat
  simp only [Pc.stage, if_true] at hat
  have hm := h.placed.moves_insertPage true hat.lt hat.clean hat.dirty
  rw [Bool.not_true, Bool.and_false] at hm
  refine h.hold hpc hm htab (settles_of_none rfl rfl rfl rfl)
    (fun q hq => ?_) ⟨rfl, rfl, rfl⟩ rfl (Or.inl (by simp [Pc.locks]))
    (Or.inl (by rw [hlocks]; simp)) id fun _ => ?_
  · refine ⟨?_, fun _ => ?_, fun _ _ _ hk => hk, by simp [Pc.transit]⟩
    · rw [Pc.Holds, Pc.Holds, hlocks]
      simp [Pc.locks, Pc.fresh, hq]
    · rw [hstage]
      simp [Pc.stage, hq]
  · rw [hstage, if_pos (by simp)]
    exact hat.cleaned

lemma Inv.stepSync (h : Inv e m) (htab : Table m t s' pc' log) {a : SyncArgs} {x : SyncPc}
    (hpc : m.pc t = .sync a x) (hs : m.st.stepSync e a x = .ok (s', pc')) :
    Inv e (m.put t s' pc' log) := by
  have hnodup := h.table.nodup t
  rw [hpc] at hnodup
  cases x with
  | fill cpus hp => exact h.stepSync_fill htab hpc hs
  | min hp pgs => exact h.stepSync_min htab hpc hs
  | pull n hp pgs => exact h.stepSync_pull htab hpc hs
  | clear p hp pgs =>
    obtain ⟨rfl, rfl⟩ := Prod.mk.inj (Except.ok.inj hs)
    have hm := h.placed.moves_clearMappings (p := p)
    rw [PageView.wrprotected_eq] at hm
    refine h.hold hpc hm htab (settles_of_none rfl rfl rfl rfl)
      (fun q hq => ?_) ⟨rfl, rfl, rfl⟩ rfl (Or.inl (by simp [Pc.locks]))
      (Or.inl (by simp [Pc.locks])) id fun hat => ?_
    · constructor <;> simp [Pc.Holds, Pc.locks, Pc.fresh, Pc.transit, Pc.stage, Pc.Knows]
    · exact hat.congr Iff.rfl rfl rfl rfl rfl rfl rfl rfl rfl
  | remove p hp pgs =>
    obtain ⟨rfl, rfl⟩ := Prod.mk.inj (Except.ok.inj hs)
    have hh : (m.pc t).Holds p := by rw [hpc]; exact Or.inl (by simp [Pc.locks])
    have hat := ((h.page p).held hh).1
    rw [hpc] at hat
    have hout : p ∉ pgs := not_mem_of_hand hnodup
    simp only [Pc.stage, hout, if_false] at hat
    have hm := h.placed.moves_remove ((view_dirty e _ _).mp hat.dirty)
    refine h.hold hpc hm htab (settles_of_none rfl rfl rfl rfl)
      (fun q hq => ?_) ⟨rfl, rfl, rfl⟩ rfl (Or.inl (by simp [Pc.locks]))
      (Or.inl (by simp [Pc.locks])) id fun _ => ?_
    · constructor <;> simp [Pc.Holds, Pc.locks, Pc.fresh, Pc.transit, Pc.stage, Pc.Knows, hq]
    · simp only [Pc.stage, if_true]
      exact hat.unqueued
  | enqueue p hp pgs =>
    simp only [State.stepSync] at hs
    split_ifs at hs
    · obtain ⟨rfl, rfl⟩ := Prod.mk.inj (Except.ok.inj hs)
      exact h.stepSync_enqueue htab hpc rfl fun _ => rfl
    · obtain ⟨rfl, rfl⟩ := Prod.mk.inj (Except.ok.inj hs)
      exact h.stepSync_enqueue htab hpc rfl fun _ => rfl
  | write hp pgs =>
    obtain ⟨rfl, rfl⟩ := Prod.mk.inj (Except.ok.inj hs)
    refine h.pass hpc (h.placed.keeps_writePages a.pvd pgs) htab (fun q => ?_)
      (settles_of_none rfl rfl rfl rfl)
    constructor <;> simp [Pc.Holds, Pc.locks, Pc.fresh, Pc.transit, Pc.stage, Pc.Knows]
  | unlock hp todo =>
    cases todo with
    | nil =>
      obtain ⟨rfl, rfl⟩ := Prod.mk.inj (Except.ok.inj hs)
      refine h.pass hpc ⟨h.placed, rfl⟩ htab (fun q => ?_)
        (settles_of_none rfl rfl rfl rfl)
      constructor <;> simp [Pc.Holds, Pc.locks, Pc.fresh, Pc.transit, Pc.stage, Pc.Knows]
    | cons p todo =>
      obtain ⟨rfl, rfl⟩ := Prod.mk.inj (Except.ok.inj hs)
      have hn : (p ::ₘ (heapPages hp + (todo : Multiset PageId))).Nodup := by
        rw [← Multiset.add_cons, Multiset.cons_coe]
        exact hnodup
      have hm : Moves e m.st (m.st.unlockTp p) p _ :=
        h.placed.moves_modifyPage p (f := fun t => { t with locked := false }) rfl rfl
      refine h.release hpc hm htab (settles_of_none rfl rfl rfl rfl)
        (fun q hq => ?_) (SameName.steady ⟨rfl, rfl, rfl⟩) rfl (Or.inl (by simp [Pc.locks])) ?_
        fun hat => ?_
      · constructor <;> simp [Pc.Holds, Pc.locks, Pc.fresh, Pc.transit, Pc.stage, Pc.Knows, hq]
      · simpa [Pc.Holds, Pc.locks, Pc.fresh] using (Multiset.nodup_cons.mp hn).1
      · simp only [Pc.stage, List.mem_cons, true_or, if_true] at hat
        exact (hat.cached_of_clean.setLocked false).atRest rfl

/-! ### Every step -/

/-- No other fault is about to lock the page that `alloc_page_lock` hands out. -/
def Unclaimed (e : Env C) (m : Machine C) (l : Tid × Act C) : Prop :=
  ∀ c r p s₁, l.2 = .step c → m.pc l.1 = .get r .alloc →
    m.st.allocPageLock e c.node r.vmf.pgoff r.pvd = (some p, s₁) →
      ∀ u r' i, (m.pc u).await = some (r', p, i) → i ≠ ulongMax ∧ r.vmf.pgoff ≠ i

lemma Inv.stepThread (h : Inv e m) {c : Choice C} (hu : Unclaimed e m (t, .step c))
    (hs : m.st.stepThread e c (m.pc t) = .ok (s', pc')) : Inv e (m.put t s' pc' log) := by
  have htab : Table m t s' pc' log := h.table_step hs
  cases hpc : m.pc t with
  | idle => simp [hpc, State.stepThread] at hs
  | get r x =>
    rw [hpc] at hs
    refine h.stepGet htab hpc hs fun hx p s₁ ha => ?_
    exact hu c r p s₁ rfl (by rw [hpc, hx]) ha
  | mkwrite r p x =>
    rw [hpc] at hs
    exact h.stepMkwrite htab hpc hs
  | purge ret x =>
    rw [hpc] at hs
    exact h.stepPurge htab hpc hs
  | evict x =>
    rw [hpc] at hs
    exact h.stepEvict htab hpc hs
  | sync a x =>
    rw [hpc] at hs
    exact h.stepSync htab hpc hs

end Machine

end FastMap
