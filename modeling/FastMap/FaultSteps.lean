import FastMap.Interleave

/-!
# Steps of faults and of reclaim

Every step of `perma_getpage`, `perma_page_mkwrite` and `try_purge_pages_fast` keeps the invariant
of the machine. A step of `alloc_page_lock` does so as long as no other fault is about to lock the
page it hands out.
-/

namespace FastMap

variable {C : Type*}

namespace State

variable {e : Env C} {s : State C} {p : PageId}

/-- `dmap_do_page_io`, whatever it reads. -/
lemma Placed.moves_pageIo (h : s.Placed e) (v : PvdId) (offset : Pgoff) (r : ReadResult C) :
    ∃ c, Moves e s (s.dmapDoPageIo v offset p r) p
      { s.view e p with page := { s.pages p with content := c, pageValid := true } } := by
  by_cases hv : (s.pages p).pageValid = true
  · refine ⟨(s.pages p).content, ?_⟩
    simp only [dmapDoPageIo, hv, if_true]
    exact h.moves_modifyPage p rfl rfl
  · exact ⟨_, (h.moves_dmapDoPageIo offset r (by simpa using hv)).1⟩

/-- At the end of a fault the kernel maps the page, if nothing is mapped there, and unlocks it. -/
lemma Placed.moves_finishFault (h : s.Placed e) (vmf : VmFault) (p : PageId) : ∃ f,
    (f = (s.view e p).pte ∨
      f = Function.update (s.view e p).pte (vmf.vma, vmf.address) (some false)) ∧
    Moves e s (s.finishFault vmf p) p
      { s.view e p with page := { s.pages p with locked := false }, pte := f } := by
  obtain ⟨y, hm, hy, hpte, -⟩ := h.unlocks_finishFault vmf p
  rw [hy] at hm
  exact ⟨y.pte, hpte, hm⟩

/-- At the end of a write fault the kernel makes the entry writable, if it still maps the page,
and unlocks the page. -/
lemma Placed.moves_finishMkwrite (h : s.Placed e) (vmf : VmFault) (p : PageId) : ∃ f,
    (f = (s.view e p).pte ∨ (∃ b, (s.view e p).pte (vmf.vma, vmf.address) = some b) ∧
      f = Function.update (s.view e p).pte (vmf.vma, vmf.address) (some true)) ∧
    Moves e s (s.finishMkwrite vmf p) p
      { s.view e p with page := { s.pages p with locked := false }, pte := f } := by
  simp only [finishMkwrite]
  split
  · rename_i q b hq
    split_ifs with hqp
    · subst hqp
      refine ⟨_, Or.inr ⟨⟨b, mapping_eq_some.mpr hq⟩, rfl⟩, ?_⟩
      have hp := h.moves_setPte (p := q) vmf.vma vmf.address
        (fun q' w hq' => (Pte.map.inj (hq'.symm.trans hq)).1) (some true)
      exact hp.modifyPage (f := fun t => { t with locked := false }) rfl rfl
    · exact ⟨_, Or.inl rfl, h.moves_modifyPage p rfl rfl⟩
  · exact ⟨_, Or.inl rfl, h.moves_modifyPage p rfl rfl⟩

end State

namespace Machine

open State

variable {e : Env C} {m : Machine C} {s' : State C} {t : Tid} {pc pc' : Pc}
  {log : List (BlockWrite C)} {p q : PageId} {w : PageView C} {c : Choice C} {r : Req}

/-! ### Pages that become free or are allocated -/

/-- A free page that `alloc_page_lock` has lost. -/
lemma PageOk.recycled (h : PageOk e m q) (hi : Idle (m.st.view e q))
    (hr : Recycled e q (m.st.view e q) (s'.view e q)) (hrole : (m.pc t).SameRole pc' q) :
    PageOk e (m.put t s' pc' log) q := by
  have hun : ∀ u, ¬ (m.pc u).Holds q := fun u hu =>
    Bool.false_ne_true (hi.inUse.symm.trans (h.held hu).1.inUse)
  have hold := h.rest hun
  have hmoved : ¬ m.Moved q := by
    rcases hold.phase with ⟨-, hm⟩ | hat
    · exact hm
    · exact absurd (hi.inUse.symm.trans hat.inUse) (by simp)
  refine PageOk.own (fun u _ => hun u) (moved_put_iff hrole.transit) rfl
    (fun hh => absurd (hrole.holds.mp hh) (hun t)) fun _ => ?_
  exact ⟨hr.locked hold.unlocked, fun ho hp _ => hr.free ho (hold.free ho hp),
    Or.inl ⟨hr.idle, hmoved⟩⟩

lemma Steady.of_idle {b : TaggedPage C} (h : PageOk e m q) (hi : Idle (m.st.view e q))
    (hb : b.inUse = false) : Steady m t q (m.st.pages q) b where
  moved hm := by
    have hun : ∀ u, ¬ (m.pc u).Holds q := fun u hu =>
      Bool.false_ne_true (hi.inUse.symm.trans (h.held hu).1.inUse)
    rcases (h.rest hun).phase with ⟨-, hn⟩ | hat
    · exact absurd hm hn
    · exact absurd (hi.inUse.symm.trans hat.inUse) (by simp)
  await _ _ hu := absurd (hb.symm.trans hu) (by simp)

lemma Inv.idle_of_free (h : Inv e m) (hf : (m.st.view e q).free = true) :
    Idle (m.st.view e q) ∧ ¬ m.Moved q :=
  ((h.page q).rest (h.unheld_of_free hf)).idle_of_free hf

/-- `alloc_page_lock` -/
lemma Inv.stepGet_alloc (h : Inv e m) (htab : Table m t s' pc' log) (hpc : m.pc t = .get r .alloc)
    (hs : m.st.stepGet e c r .alloc = .ok (s', pc'))
    (hstale : ∀ p s₁, m.st.allocPageLock e c.node r.vmf.pgoff r.pvd = (some p, s₁) →
      ∀ u r' i, (m.pc u).await = some (r', p, i) → i ≠ ulongMax ∧ r.vmf.pgoff ≠ i) :
    Inv e (m.put t s' pc' log) := by
  simp only [stepGet] at hs
  rcases h.placed.allocPageLock_idle (fun q hf => (h.idle_of_free hf).1) c.node r.vmf.pgoff r.pvd
    with ⟨s₁, hs₁, hpl, hv⟩ | ⟨p, s₁, hs₁, hf, hr⟩
  · -- no page: the purge starts
    rw [hs₁] at hs
    obtain ⟨rfl, rfl⟩ := Prod.mk.inj (Except.ok.inj hs)
    have hrole : ∀ q, (m.pc t).SameRole (.purge (some r) (.take (c.rnd % numQueues) purgeBatch []))
        q := by
      intro q
      rw [hpc]
      constructor <;> simp [Pc.Holds, Pc.locks, Pc.fresh, Pc.transit]
    have hset : Settles (m.pc t) (.purge (some r) (.take (c.rnd % numQueues) purgeBatch [])) :=
      (settles_of_none rfl rfl rfl rfl)
    refine ⟨hpl, htab, fun q => ?_, fun u => ?_⟩
    · rcases hv q with hq | ⟨hi, hq⟩
      · exact (h.page q).frame hq (hrole q)
      · exact (h.page q).recycled hi hq (hrole q)
    · by_cases hu : u = t
      · subst hu
        exact (h.thread u).settles hset
      · refine (h.thread u).frame hu (fun q => ?_) fun q hfr => ⟨?_, by simp [Pc.fresh],
          by simp [Pc.await]⟩
        · rcases hv q with hq | ⟨hi, hq⟩
          · rw [show s₁.pages q = m.st.pages q from congrArg PageView.page hq]
            exact Steady.of_same rfl rfl rfl
          · exact Steady.of_idle (h.page q) hi hq.idle.inUse
        · rcases hv q with hq | ⟨hi, -⟩
          · exact congrArg PageView.page hq
          · exact absurd (hi.inUse.symm.trans (h.inUse_of_holds (Or.inr hfr))) (by simp)
  · -- a page: nobody else holds it or waits for it
    rw [hs₁] at hs
    obtain ⟨rfl, rfl⟩ := Prod.mk.inj (Except.ok.inj hs)
    obtain ⟨hi, hmv⟩ := h.idle_of_free hf
    have hun := h.unheld_of_free hf
    have hpage : s₁.pages p = ((m.st.view e p).allocated (e.home p) r.vmf.pgoff r.pvd).page :=
      congrArg PageView.page hr.view_self
    have hrole : ∀ q, q ≠ p → (m.pc t).SameRole (.get r (.fresh p)) q := by
      intro q hq
      rw [hpc]
      constructor <;> simp [Pc.Holds, Pc.locks, Pc.fresh, Pc.transit, Ne.symm hq]
    have hmoved : (m.put t s₁ (.get r (.fresh p)) log).Moved p ↔ m.Moved p :=
      moved_put_iff (by rw [hpc]; simp [Pc.transit])
    have hwait : ∀ u r' i, (m.pc u).await = some (r', p, i) → i ≠ ulongMax ∧ r.vmf.pgoff ≠ i :=
      hstale p s₁ hs₁
    refine ⟨hr.placed, htab, fun q => ?_, fun u => ?_⟩
    · by_cases hq : q = p
      · subst hq
        refine PageOk.own (fun u _ => hun u) hmoved hr.view_self (fun _ => ⟨?_, rfl, rfl⟩)
          fun hno => absurd (Or.inr rfl) hno
        exact hi.at_allocated (h.placed.fl_lt ((view_free e _ _).mp hf)) hmv _ _
      · rcases hr.other hq with hv | ⟨hiq, hv⟩
        · exact (h.page q).frame hv (hrole q hq)
        · exact (h.page q).recycled hiq hv (hrole q hq)
    · by_cases hu : u = t
      · subst hu
        refine ⟨fun he => ?_, fun hc => ?_, fun ha => ?_, fun {p'} hfr => ?_⟩
        · simp [Pc.evictor] at he
        · simp [Pc.transit] at hc
        · simp [Pc.await] at ha
        · obtain rfl : p = p' := by simpa [Pc.fresh] using hfr
          refine ⟨?_, fun u' => ?_⟩
          · rw [put_st, hpage]
            exact ((h.page p).rest hun).unlocked
          · by_cases hu' : u' = u
            · subst hu'
              exact ⟨fun _ => rfl, fun r' i ha => by simp [Pc.await] at ha⟩
            · rw [put_pc_of_ne hu', put_st, hpage]
              exact ⟨fun hf' => absurd (Or.inr hf') (hun u'), hwait u'⟩
      · refine (h.thread u).frame hu (fun q => ?_) fun q hfr => ⟨?_, ?_, by simp [Pc.await]⟩
        · by_cases hq : q = p
          · subst hq
            refine ⟨fun hm => absurd hm hmv, fun _ ha _ hidx => ?_⟩
            obtain ⟨h₁, h₂⟩ := hwait _ _ _ ha
            rw [hpage] at hidx
            exact absurd hidx (not_or.mpr ⟨h₁, h₂⟩)
          · rcases hr.other hq with hv | ⟨hiq, hv⟩
            · rw [show s₁.pages q = m.st.pages q from congrArg PageView.page hv]
              exact Steady.of_same rfl rfl rfl
            · exact Steady.of_idle (h.page q) hiq hv.idle.inUse
        · have hq : q ≠ p := by
            rintro rfl
            exact hun u (Or.inr hfr)
          rcases hr.other hq with hv | ⟨hiq, -⟩
          · exact congrArg PageView.page hv
          · exact absurd (hiq.inUse.symm.trans (h.inUse_of_holds (Or.inr hfr))) (by simp)
        · intro hf'
          obtain rfl : p = q := by simpa [Pc.fresh] using hf'
          exact hun u (Or.inr hfr)

/-! ### `perma_getpage` -/

/-- A page that a fault has found is not fresh. -/
lemma Inv.not_fresh_of_tree (h : Inv e m) {k : TreeKind} (hp : (m.st.view e p).tree k = true)
    (u : Tid) : (m.pc u).fresh ≠ some p := by
  intro hf
  exact Bool.false_ne_true (((h.alone_of_fresh hf).unlinked.tree k).symm.trans hp)

lemma Inv.stepGet_lookup (h : Inv e m) (htab : Table m t s' pc' log) (hpc : m.pc t = .get r .lookup)
    (hs : m.st.stepGet e c r .lookup = .ok (s', pc')) : Inv e (m.put t s' pc' log) := by
  simp only [stepGet] at hs
  split at hs
  · obtain ⟨rfl, rfl⟩ := Prod.mk.inj (Except.ok.inj hs)
    refine h.pass hpc ⟨h.placed, rfl⟩ htab (fun q => ?_) ⟨fun he => he, rfl, rfl, rfl⟩
    constructor <;> simp [Pc.Holds, Pc.locks, Pc.fresh, Pc.transit]
  · rename_i p hl
    obtain ⟨rfl, rfl⟩ := Prod.mk.inj (Except.ok.inj hs)
    obtain ⟨ht, hv, hi⟩ := h.placed.treeLookup_iff.mp hl
    refine h.skip hpc ⟨h.placed, rfl⟩ htab (fun q => ?_) ?_ fun u q hf => ⟨by simp [Pc.fresh], ?_⟩
    · constructor <;> simp [Pc.Holds, Pc.locks, Pc.fresh, Pc.transit]
    · refine ⟨fun he => ?_, fun hc => ?_, fun ha _ _ => ?_, fun hf => ?_⟩
      · simp [Pc.evictor] at he
      · simp [Pc.transit] at hc
      · obtain ⟨rfl, rfl, rfl⟩ : r = _ ∧ p = _ ∧ ulongMax = _ := by simpa [Pc.await] using ha
        exact ⟨hv, hi⟩
      · simp [Pc.fresh] at hf
    · intro r' i ha
      obtain ⟨-, rfl, -⟩ : r = r' ∧ p = q ∧ ulongMax = i := by simpa [Pc.await] using ha
      exact h.not_fresh_of_tree ht u hf

/-- A fault is about one page at a time. -/
lemma sameRole_get {x x' : GetPc} (hx : ∀ q, q ≠ p → ¬ (Pc.get r x).Holds q)
    (hx' : ∀ q, q ≠ p → ¬ (Pc.get r x').Holds q) (q : PageId) (hq : q ≠ p) :
    (Pc.get r x).SameRole (.get r x') q :=
  ⟨iff_of_false (hx' q hq) (hx q hq), fun hh => absurd hh (hx q hq),
    fun hh => absurd hh (hx q hq), by simp [Pc.transit]⟩

lemma holds_get_iff {x : GetPc} (hl : (Pc.get r x).locks = {p}) (hf : (Pc.get r x).fresh = none) :
    (Pc.get r x).Holds q ↔ q = p := by
  simp [Pc.Holds, hl, hf]

lemma Inv.stepGet_fresh (h : Inv e m) (htab : Table m t s' pc' log)
    (hpc : m.pc t = .get r (.fresh p))
    (hs : m.st.stepGet e c r (.fresh p) = .ok (s', pc')) : Inv e (m.put t s' pc' log) := by
  obtain ⟨rfl, rfl⟩ := Prod.mk.inj (Except.ok.inj hs)
  have hf : (m.pc t).fresh = some p := by rw [hpc]; rfl
  refine h.hold hpc (h.placed.moves_trylock_fresh (h.inUse_of_holds (Or.inr hf))) htab
    (settles_of_none rfl rfl rfl rfl) (sameRole_get ?_ ?_) ⟨rfl, rfl, rfl⟩ rfl
    (Or.inr rfl) (Or.inl (by simp [Pc.locks])) id fun hat => hat.setLocked true
  · intro q hq
    simp [Pc.Holds, Pc.locks, Pc.fresh, Ne.symm hq]
  · intro q hq
    simp [Pc.Holds, Pc.locks, Pc.fresh, hq]

/-- A fault works on the page that it has locked. -/
lemma Inv.get_hold (h : Inv e m) {x x' : GetPc} (hpc : m.pc t = .get r x)
    (hx : (Pc.get r x).locks = {p}) (hf : (Pc.get r x).fresh = none)
    (hx' : (Pc.get r x').locks = {p}) (hf' : (Pc.get r x').fresh = none)
    (ha' : (Pc.get r x').await = none) (hm : Moves e m.st s' p w)
    (htab : Table m t s' (.get r x') log)
    (hname : SameName (m.st.pages p) w.page)
    (hat : At e p (m.Moved p) ((Pc.get r x).stage p) (m.st.view e p) →
      At e p (m.Moved p) ((Pc.get r x').stage p) w) : Inv e (m.put t s' (.get r x') log) := by
  refine h.hold hpc hm htab (settles_of_none rfl rfl ha' hf')
    (sameRole_get ?_ ?_) hname rfl ((holds_get_iff hx hf).mpr rfl) ((holds_get_iff hx' hf').mpr rfl)
    id hat
  · intro q hq hh
    exact hq ((holds_get_iff hx hf).mp hh)
  · intro q hq hh
    exact hq ((holds_get_iff hx' hf').mp hh)

lemma Inv.stepGet_insert (h : Inv e m) (htab : Table m t s' pc' log)
    (hpc : m.pc t = .get r (.insert p))
    (hs : m.st.stepGet e c r (.insert p) = .ok (s', pc')) : Inv e (m.put t s' pc' log) := by
  have hh : (m.pc t).Holds p := by rw [hpc]; exact Or.inl (by simp [Pc.locks])
  obtain ⟨-, hk⟩ := (h.page p).held hh
  rw [hpc] at hk
  obtain ⟨hv, hi⟩ : (m.st.pages p).pvd = some r.pvd ∧ (m.st.pages p).index = r.vmf.pgoff := hk
  simp only [stepGet, fmapRadixInsert] at hs
  cases hl : m.st.fmapRadixLookup e r.pvd r.vmf.pgoff with
  | none =>
    rw [hl] at hs
    obtain ⟨rfl, rfl⟩ := Prod.mk.inj (Except.ok.inj hs)
    have hm := h.placed.moves_treeInsert (p := p) (k := .rdx) hv (by rw [hi]; exact hl)
    rw [hi] at hm
    exact h.get_hold hpc rfl rfl rfl rfl rfl hm htab ⟨rfl, rfl, rfl⟩ At.inserted
  | some q =>
    -- the page of another fault is there
    rw [hl] at hs
    obtain ⟨rfl, rfl⟩ := Prod.mk.inj (Except.ok.inj hs)
    have hm := h.placed.moves_treeInsert_taken (k := .rdx) hl p
    exact h.get_hold hpc rfl rfl rfl rfl rfl hm htab ⟨rfl, rfl, rfl⟩ id

/-- `free_page_lock` of a page that the thread holds. -/
lemma Inv.steady_freed (hat : At e p (m.Moved p) .alone (m.st.view e p)) :
    Steady m t p (m.st.pages p) (m.st.view e p).freed.page :=
  ⟨fun hm => absurd rfl (hat.not_alone hm), fun _ _ hu => absurd hu (by simp [PageView.freed])⟩

lemma Inv.moves_free (h : Inv e m) (hat : At e p (m.Moved p) .alone (m.st.view e p)) :
    Moves e m.st (m.st.freePageLock p) p (m.st.view e p).freed :=
  h.placed.moves_freePageLock hat.lt hat.unlinked hat.free hat.cpuid

lemma Inv.stepGet_rollback (h : Inv e m) (htab : Table m t s' pc' log)
    (hpc : m.pc t = .get r (.rollback p))
    (hs : m.st.stepGet e c r (.rollback p) = .ok (s', pc')) : Inv e (m.put t s' pc' log) := by
  obtain ⟨rfl, rfl⟩ := Prod.mk.inj (Except.ok.inj hs)
  have hh : (m.pc t).Holds p := by rw [hpc]; exact Or.inl (by simp [Pc.locks])
  have hat := ((h.page p).held hh).1
  rw [hpc] at hat
  refine h.release hpc (h.moves_free hat) htab (settles_of_none rfl rfl rfl rfl)
    (sameRole_get ?_ ?_) (steady_freed hat) rfl ((holds_get_iff rfl rfl).mpr rfl) ?_ At.freed
  · intro q hq
    simp [Pc.Holds, Pc.locks, Pc.fresh, hq]
  · simp [Pc.Holds, Pc.locks, Pc.fresh]
  · simp [Pc.Holds, Pc.locks, Pc.fresh]

lemma Inv.stepGet_enqueue (h : Inv e m) (htab : Table m t s' pc' log)
    (hpc : m.pc t = .get r (.enqueue p))
    (hs : m.st.stepGet e c r (.enqueue p) = .ok (s', pc')) : Inv e (m.put t s' pc' log) := by
  obtain ⟨rfl, rfl⟩ := Prod.mk.inj (Except.ok.inj hs)
  have hh : (m.pc t).Holds p := by rw [hpc]; exact Or.inl (by simp [Pc.locks])
  have hat := ((h.page p).held hh).1
  rw [hpc] at hat
  have hm := h.placed.moves_insertPage false hat.lt hat.clean hat.dirty
  rw [Bool.not_false, Bool.and_true] at hm
  exact h.get_hold hpc rfl rfl rfl rfl rfl hm htab ⟨rfl, rfl, rfl⟩ At.enqueued

lemma Inv.stepGet_io (h : Inv e m) (htab : Table m t s' pc' log) (hpc : m.pc t = .get r (.io p))
    (hs : m.st.stepGet e c r (.io p) = .ok (s', pc')) : Inv e (m.put t s' pc' log) := by
  obtain ⟨rfl, rfl⟩ := Prod.mk.inj (Except.ok.inj hs)
  obtain ⟨d, hm⟩ := h.placed.moves_pageIo (p := p) r.pvd r.vmf.pgoff c.read
  refine h.get_hold hpc rfl rfl rfl rfl rfl hm htab ⟨rfl, rfl, rfl⟩ fun hat => ?_
  exact hat.cached_of_clean.congr Iff.rfl rfl rfl rfl rfl rfl rfl rfl rfl

/-- A page that a fault has waited for and locks is the right one. -/
lemma Inv.locks_awaited (h : Inv e m) {i : Pgoff} (ha : (m.pc t).await = some (r, p, i))
    (hu : (m.st.pages p).inUse = true) (hl : (m.st.pages p).locked = false)
    (hi : i = ulongMax ∨ (m.st.pages p).index = i) :
    (∀ u, ¬ (m.pc u).Holds p) ∧
    ((m.st.pages p).pvd = some r.pvd ∧ (m.st.pages p).index = r.vmf.pgoff) ∧
    Moves e m.st (m.st.modifyPage p fun t => { t with locked := true }) p
      { m.st.view e p with page := { m.st.pages p with locked := true } } ∧
    (AtRest e p (m.Moved p) (m.st.view e p) → At e p (m.Moved p) .cached
      { m.st.view e p with page := { m.st.pages p with locked := true } }) := by
  refine ⟨h.unheld_of_await hl ha hi, (h.thread t).await ha hu hi,
    h.placed.moves_modifyPage p rfl rfl, fun hr => ?_⟩
  exact (hr.at_of_inUse hu).setLocked true

lemma Inv.stepGet_lock (h : Inv e m) (htab : Table m t s' pc' log) (hpc : m.pc t = .get r (.lock p))
    (hs : m.st.stepGet e c r (.lock p) = .ok (s', pc')) : Inv e (m.put t s' pc' log) := by
  simp only [stepGet] at hs
  rcases m.st.trylockTp_cases p ulongMax with ⟨k, hk, ht⟩ | ⟨hu, hl, hi, ht⟩
  · rw [ht] at hs
    split at hs
    · rename_i heq
      exact absurd (Prod.mk.inj heq).1 hk
    · rename_i heq
      obtain ⟨-, rfl⟩ := Prod.mk.inj heq
      obtain ⟨rfl, rfl⟩ := Prod.mk.inj (Except.ok.inj hs)
      refine h.pass hpc ⟨h.placed, rfl⟩ htab (fun q => ?_) ⟨fun he => he, rfl, rfl, rfl⟩
      constructor <;> simp [Pc.Holds, Pc.locks, Pc.fresh, Pc.transit]
  · rw [ht] at hs
    obtain ⟨rfl, rfl⟩ := Prod.mk.inj (Except.ok.inj hs)
    obtain ⟨hun, hk, hm, hat⟩ := h.locks_awaited (by rw [hpc]; rfl) hu hl hi
    refine h.acquire hpc hm htab (settles_of_none rfl rfl rfl rfl)
      (sameRole_get ?_ ?_) ⟨rfl, rfl, rfl⟩ rfl hun ((holds_get_iff rfl rfl).mpr rfl) hk hat
    · simp [Pc.Holds, Pc.locks, Pc.fresh]
    · intro q hq
      simp [Pc.Holds, Pc.locks, Pc.fresh, hq]

lemma Inv.stepGet_valid (h : Inv e m) (htab : Table m t s' pc' log)
    (hpc : m.pc t = .get r (.valid p))
    (hs : m.st.stepGet e c r (.valid p) = .ok (s', pc')) : Inv e (m.put t s' pc' log) := by
  simp only [stepGet] at hs
  split_ifs at hs
  obtain ⟨rfl, rfl⟩ := Prod.mk.inj (Except.ok.inj hs)
  exact h.get_hold hpc rfl rfl rfl rfl rfl (h.placed.moves_refl p) htab ⟨rfl, rfl, rfl⟩ id

lemma Inv.stepGet_done (h : Inv e m) (htab : Table m t s' pc' log) (hpc : m.pc t = .get r (.done p))
    (hs : m.st.stepGet e c r (.done p) = .ok (s', pc')) : Inv e (m.put t s' pc' log) := by
  simp only [stepGet] at hs
  obtain ⟨s₁, hr, hs⟩ := Except.map_eq_ok.mp hs
  obtain ⟨rfl, rfl⟩ := Prod.mk.inj hs
  rcases (h.placed.dmapAddOrUpdateRmap_cases hr).2 with ⟨-, -, -, rfl⟩ | ⟨i, -, -, hm⟩
  · exact h.get_hold hpc rfl rfl rfl rfl rfl (h.placed.moves_refl p) htab ⟨rfl, rfl, rfl⟩ id
  · exact h.get_hold hpc rfl rfl rfl rfl rfl hm htab ⟨rfl, rfl, rfl⟩ fun hat =>
      hat.congr Iff.rfl rfl rfl rfl rfl rfl rfl rfl rfl

lemma Inv.stepGet_map (h : Inv e m) (htab : Table m t s' pc' log) (hpc : m.pc t = .get r (.map p))
    (hs : m.st.stepGet e c r (.map p) = .ok (s', pc')) : Inv e (m.put t s' pc' log) := by
  obtain ⟨rfl, rfl⟩ := Prod.mk.inj (Except.ok.inj hs)
  obtain ⟨f, -, hm⟩ := h.placed.moves_finishFault r.vmf p
  refine h.release hpc hm htab (settles_of_none rfl rfl rfl rfl)
    (fun q hq => ?_) (SameName.steady ⟨rfl, rfl, rfl⟩) rfl ((holds_get_iff rfl rfl).mpr rfl) ?_
    fun hat => ?_
  · constructor <;> simp [Pc.Holds, Pc.locks, Pc.fresh, Pc.transit, hq]
  · simp [Pc.Holds, Pc.locks, Pc.fresh]
  · refine At.atRest ?_ rfl
    exact hat.congr Iff.rfl rfl rfl rfl rfl rfl rfl rfl rfl

/-- Every step of `perma_getpage`. -/
lemma Inv.stepGet (h : Inv e m) (htab : Table m t s' pc' log) {x : GetPc} (hpc : m.pc t = .get r x)
    (hs : m.st.stepGet e c r x = .ok (s', pc'))
    (hstale : x = .alloc → ∀ p s₁, m.st.allocPageLock e c.node r.vmf.pgoff r.pvd = (some p, s₁) →
      ∀ u r' i, (m.pc u).await = some (r', p, i) → i ≠ ulongMax ∧ r.vmf.pgoff ≠ i) :
    Inv e (m.put t s' pc' log) := by
  cases x with
  | lookup => exact h.stepGet_lookup htab hpc hs
  | alloc => exact h.stepGet_alloc htab hpc hs (hstale rfl)
  | fresh p => exact h.stepGet_fresh htab hpc hs
  | insert p => exact h.stepGet_insert htab hpc hs
  | rollback p => exact h.stepGet_rollback htab hpc hs
  | enqueue p => exact h.stepGet_enqueue htab hpc hs
  | io p => exact h.stepGet_io htab hpc hs
  | lock p => exact h.stepGet_lock htab hpc hs
  | valid p => exact h.stepGet_valid htab hpc hs
  | done p => exact h.stepGet_done htab hpc hs
  | map p => exact h.stepGet_map htab hpc hs

/-! ### `perma_page_mkwrite` -/

lemma holds_mkwrite_iff {x : MkPc} (hx : x ≠ .lock) : (Pc.mkwrite r p x).Holds q ↔ q = p := by
  cases x <;> simp_all [Pc.Holds, Pc.locks, Pc.fresh]

lemma sameRole_mkwrite {x : MkPc} (hpc' : ∀ q, q ≠ p → ¬ pc'.Holds q) (htr : pc'.transit = none)
    (q : PageId) (hq : q ≠ p) : (Pc.mkwrite r p x).SameRole pc' q := by
  have hx : ¬ (Pc.mkwrite r p x).Holds q := by
    cases x <;> simp_all [Pc.Holds, Pc.locks, Pc.fresh]
  exact ⟨iff_of_false (hpc' q hq) hx, fun hh => absurd hh hx, fun hh => absurd hh hx,
    by rw [htr]; simp [Pc.transit]⟩

/-- A write fault works on the page that it has locked. -/
lemma Inv.mkwrite_hold (h : Inv e m) {x x' : MkPc} (hpc : m.pc t = .mkwrite r p x)
    (hx : x ≠ .lock) (hx' : x' ≠ .lock) (hm : Moves e m.st s' p w)
    (htab : Table m t s' (.mkwrite r p x') log)
    (hname : SameName (m.st.pages p) w.page)
    (hat : At e p (m.Moved p) ((Pc.mkwrite r p x).stage p) (m.st.view e p) →
      At e p (m.Moved p) ((Pc.mkwrite r p x').stage p) w) :
    Inv e (m.put t s' (.mkwrite r p x') log) := by
  refine h.hold hpc hm htab (settles_of_none rfl rfl ?_ rfl)
    (sameRole_mkwrite (fun q hq hh => hq ((holds_mkwrite_iff hx').mp hh)) rfl) hname rfl
    ((holds_mkwrite_iff hx).mpr rfl) ((holds_mkwrite_iff hx').mpr rfl) id hat
  cases x' <;> simp_all [Pc.await]

lemma Inv.stepMkwrite_lock (h : Inv e m) (htab : Table m t s' pc' log)
    (hpc : m.pc t = .mkwrite r p .lock)
    (hs : m.st.stepMkwrite e r p .lock = .ok (s', pc')) : Inv e (m.put t s' pc' log) := by
  simp only [stepMkwrite] at hs
  rcases m.st.trylockTp_cases p r.vmf.pgoff with ⟨k, hk, ht⟩ | ⟨hu, hl, hi, ht⟩
  · rw [ht] at hs
    split at hs
    · rename_i heq
      exact absurd (Prod.mk.inj heq).1 hk
    · -- the page is locked, and the fault tries again
      rename_i heq
      obtain ⟨-, rfl⟩ := Prod.mk.inj heq
      obtain ⟨rfl, rfl⟩ := Prod.mk.inj (Except.ok.inj hs)
      exact h.stay hpc
    · rename_i heq
      obtain ⟨-, rfl⟩ := Prod.mk.inj heq
      obtain ⟨rfl, rfl⟩ := Prod.mk.inj (Except.ok.inj hs)
      refine h.pass hpc ⟨h.placed, rfl⟩ htab (fun q => ?_)
        (settles_of_none rfl rfl rfl rfl)
      constructor <;> simp [Pc.Holds, Pc.locks, Pc.fresh, Pc.transit]
  · rw [ht] at hs
    obtain ⟨rfl, rfl⟩ := Prod.mk.inj (Except.ok.inj hs)
    obtain ⟨hun, hk, hm, hat⟩ := h.locks_awaited (by rw [hpc]; rfl) hu hl hi
    refine h.acquire hpc hm htab (settles_of_none rfl rfl rfl rfl)
      (sameRole_mkwrite (fun q hq hh => hq ((holds_mkwrite_iff (by simp)).mp hh)) rfl)
      ⟨rfl, rfl, rfl⟩ rfl hun ((holds_mkwrite_iff (by simp)).mpr rfl) hk hat

/-- The stages of `dmap_do_tagged_page_writable`. -/
lemma Inv.stepMkwrite (h : Inv e m) (htab : Table m t s' pc' log) {x : MkPc}
    (hpc : m.pc t = .mkwrite r p x) (hs : m.st.stepMkwrite e r p x = .ok (s', pc')) :
    Inv e (m.put t s' pc' log) := by
  by_cases hx : x = .lock
  · subst hx
    exact h.stepMkwrite_lock htab hpc hs
  have hh : (m.pc t).Holds p := by rw [hpc]; exact (holds_mkwrite_iff hx).mpr rfl
  obtain ⟨hat, hk⟩ := (h.page p).held hh
  rw [hpc] at hat hk
  obtain ⟨hv, -⟩ : (m.st.pages p).pvd = some r.pvd ∧ (m.st.pages p).index = r.vmf.pgoff := hk
  cases x with
  | lock => exact absurd rfl hx
  | dirty =>
    simp only [State.stepMkwrite] at hs
    split_ifs at hs with hd
    · obtain ⟨rfl, rfl⟩ := Prod.mk.inj (Except.ok.inj hs)
      exact h.mkwrite_hold hpc hx (by simp) (h.placed.moves_refl p) htab ⟨rfl, rfl, rfl⟩ id
    · obtain ⟨rfl, rfl⟩ := Prod.mk.inj (Except.ok.inj hs)
      have hm : Moves e m.st (m.st.setDirty p true) p _ :=
        h.placed.moves_modifyPage p (f := fun t => { t with isDirty := true }) rfl rfl
      exact h.mkwrite_hold hpc hx (by simp) hm htab ⟨rfl, rfl, rfl⟩ fun hat =>
        (hat.clean_of_cached (by simpa using hd)).marked
  | insert =>
    obtain ⟨rfl, rfl⟩ := Prod.mk.inj (Except.ok.inj hs)
    have hout : (m.st.view e p).tree .dirty = false := by
      rw [Bool.eq_false_iff]
      intro ht
      exact Bool.false_ne_true (hat.tree.mp ht).1
    have hm := h.placed.moves_treeInsert (k := .dirty) hv (h.dirtyTree_vacant hat.rdx hv hout)
    exact h.mkwrite_hold hpc hx (by simp) hm htab ⟨rfl, rfl, rfl⟩ At.treed
  | remove =>
    obtain ⟨rfl, rfl⟩ := Prod.mk.inj (Except.ok.inj hs)
    have hm := h.placed.moves_remove ((view_clean e _ _).mp hat.clean)
    exact h.mkwrite_hold hpc hx (by simp) hm htab ⟨rfl, rfl, rfl⟩ At.floating
  | enqueue =>
    obtain ⟨rfl, rfl⟩ := Prod.mk.inj (Except.ok.inj hs)
    have hm := h.placed.moves_enqueue (p := p) (Or.inr rfl) hat.lt hat.clean hat.dirty
    have hq : (dirtyQueue (m.st.pages p).index == cleanQueue (m.st.pages p).index) = false :=
      beq_eq_false_iff_ne.mpr queues_ne.symm
    simp only [beq_self_eq_true, hq] at hm
    exact h.mkwrite_hold hpc hx (by simp) hm htab ⟨rfl, rfl, rfl⟩ At.dirtied
  | map =>
    obtain ⟨rfl, rfl⟩ := Prod.mk.inj (Except.ok.inj hs)
    obtain ⟨f, -, hm⟩ := h.placed.moves_finishMkwrite r.vmf p
    refine h.release hpc hm htab (settles_of_none rfl rfl rfl rfl)
      (sameRole_mkwrite ?_ rfl) (SameName.steady ⟨rfl, rfl, rfl⟩) rfl
      ((holds_mkwrite_iff hx).mpr rfl) ?_ fun hat => ?_
    · simp [Pc.Holds, Pc.locks, Pc.fresh]
    · simp [Pc.Holds, Pc.locks, Pc.fresh]
    · refine At.atRest ?_ rfl
      exact hat.congr Iff.rfl rfl rfl rfl rfl rfl rfl rfl rfl

/-! ### `try_purge_pages_fast` -/

/-- A page of a queue that is not locked is resident, and clean or dirty as the queue says. -/
lemma Inv.at_of_queue (h : Inv e m) {l : Queue} (hp : p ∈ (m.st.queues l).buffer)
    (hl : (m.st.pages p).locked = false) : (∀ u, ¬ (m.pc u).Holds p) ∧
      At e p (m.Moved p) .cached (m.st.view e p) ∧
      l = if (m.st.pages p).isDirty then dirtyQueue (m.st.pages p).index
        else cleanQueue (m.st.pages p).index := by
  have hun := h.unheld_of_queue hl hp
  have hr := (h.page p).rest hun
  have hat : At e p (m.Moved p) .cached (m.st.view e p) := by
    refine hr.phase.resolve_left fun hi => ?_
    exact h.placed.not_mem_queue hi.1.unlinked.clean hi.1.unlinked.dirty l hp
  refine ⟨hun, hat, ?_⟩
  cases hd : (m.st.pages p).isDirty with
  | true =>
    have hq : (m.st.view e p).dirty = true := by rw [hat.dirty]; exact hd
    exact h.placed.queue_one hp ((view_dirty e _ _).mp hq)
  | false =>
    have hq : (m.st.view e p).clean = true := by rw [hat.clean]; simp [hd]
    exact h.placed.queue_one hp ((view_clean e _ _).mp hq)

lemma Inv.stepPurge (h : Inv e m) (htab : Table m t s' pc' log) {ret : Option Req} {x : PurgePc}
    (hpc : m.pc t = .purge ret x) (hs : m.st.stepPurge e ret x = .ok (s', pc')) :
    Inv e (m.put t s' pc' log) := by
  have hnodup := h.table.nodup t
  rw [hpc] at hnodup
  cases x with
  | take qid n pgs =>
    cases n with
    | zero =>
      obtain ⟨rfl, rfl⟩ := Prod.mk.inj (Except.ok.inj hs)
      refine h.pass hpc ⟨h.placed, rfl⟩ htab (fun q => ?_)
        (settles_of_none rfl rfl rfl rfl)
      constructor <;> simp [Pc.Holds, Pc.locks, Pc.fresh, Pc.transit, Pc.stage, Pc.Knows]
    | succ n =>
      simp only [State.stepPurge] at hs
      rcases h.placed.dequeueIf_cases (q := .clean qid) locks_deq with
        ⟨s₁, hd, hk⟩ | ⟨p, s₁, hd, hp, hu, hl, -, hm⟩
      · rw [hd] at hs
        obtain ⟨rfl, rfl⟩ := Prod.mk.inj (Except.ok.inj hs)
        refine h.pass hpc hk htab (fun q => ?_)
          (settles_of_none rfl rfl rfl rfl)
        constructor <;> simp [Pc.Holds, Pc.locks, Pc.fresh, Pc.transit, Pc.stage, Pc.Knows]
      · rw [hd] at hs
        obtain ⟨rfl, rfl⟩ := Prod.mk.inj (Except.ok.inj hs)
        obtain ⟨hun, hat, hq⟩ := h.at_of_queue hp hl
        have hclean : (m.st.pages p).isDirty = false := by
          rw [Bool.eq_false_iff]
          intro hd
          simp [hd, dirtyQueue] at hq
        refine h.acquire hpc hm htab (settles_of_none rfl rfl rfl rfl)
          (fun q hq => ?_) ⟨rfl, rfl, rfl⟩ rfl hun (Or.inl (by simp [Pc.locks])) trivial
          fun _ => ?_
        · constructor <;> simp [Pc.Holds, Pc.locks, Pc.fresh, Pc.transit, Pc.stage, Pc.Knows, hq]
        · simp only [Pc.stage, if_true]
          exact (hat.clean_of_cached hclean).purging
  | delete qid n pgs p =>
    simp only [State.stepPurge] at hs
    split at hs
    · exact absurd hs (by simp)
    · rename_i v hv
      obtain ⟨rfl, rfl⟩ := Prod.mk.inj (Except.ok.inj hs)
      have hh : (m.pc t).Holds p := by rw [hpc]; exact Or.inl (by simp [Pc.locks])
      have hat := ((h.page p).held hh).1
      rw [hpc] at hat
      simp only [Pc.stage, if_true] at hat
      have hm := h.placed.moves_treeErase hv hat.rdx
      refine h.hold hpc hm htab (settles_of_none rfl rfl rfl rfl)
        (fun q hq => ?_) ⟨rfl, rfl, rfl⟩ rfl (Or.inl (by simp [Pc.locks]))
        (Or.inl (by simp [Pc.locks])) id fun _ => hat.uncached
      constructor <;> simp [Pc.Holds, Pc.locks, Pc.fresh, Pc.transit, Pc.stage, Pc.Knows, hq]
  | unmap qid n pgs p =>
    obtain ⟨rfl, rfl⟩ := Prod.mk.inj (Except.ok.inj hs)
    have hm := h.placed.moves_removeMappings (p := p)
    rw [PageView.unmapped_eq] at hm
    refine h.hold hpc hm htab (settles_of_none rfl rfl rfl rfl)
      (fun q hq => ?_) ⟨rfl, rfl, rfl⟩ rfl (Or.inl (by simp [Pc.locks]))
      (Or.inl (by simp [Pc.locks])) id fun hat => ?_
    · constructor <;> simp [Pc.Holds, Pc.locks, Pc.fresh, Pc.transit, Pc.stage, Pc.Knows, hq]
    · exact hat.congr Iff.rfl rfl rfl rfl rfl rfl rfl rfl rfl
  | free pgs =>
    cases pgs with
    | nil =>
      obtain ⟨rfl, rfl⟩ := Prod.mk.inj (Except.ok.inj hs)
      refine h.pass hpc ⟨h.placed, rfl⟩ htab (fun q => ?_) ?_
      · cases ret <;>
          constructor <;> simp [Pc.Holds, Pc.locks, Pc.fresh, Pc.transit, purgeReturn]
      · cases ret <;> exact ⟨fun he => by simp [Pc.evictor, purgeReturn] at he, rfl, rfl, rfl⟩
    | cons p pgs =>
      obtain ⟨rfl, rfl⟩ := Prod.mk.inj (Except.ok.inj hs)
      have hh : (m.pc t).Holds p := by rw [hpc]; exact Or.inl (by simp [Pc.locks])
      have hat := ((h.page p).held hh).1
      rw [hpc] at hat
      have hout : p ∉ pgs := (List.nodup_cons.mp (Multiset.coe_nodup.mp hnodup)).1
      refine h.release hpc (h.moves_free hat) htab
        (settles_of_none rfl rfl rfl rfl) (fun q hq => ?_) (steady_freed hat)
          rfl
        (Or.inl (by simp [Pc.locks])) ?_ At.freed
      · constructor <;> simp [Pc.Holds, Pc.locks, Pc.fresh, Pc.transit, Pc.stage, Pc.Knows, hq]
      · simpa [Pc.Holds, Pc.locks, Pc.fresh] using hout

end Machine

end FastMap
