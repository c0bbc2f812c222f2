import FastMap.FreeLists
import FastMap.Schedules

/-!
# Faults that race for a page

Any number of faults run at once and find free pages, and pages are evicted and files released
between them. Two faults that miss on the same offset both allocate a page, and the one that comes
second in `fmap_radix_insert` gives its page back. A page that a fault has found in the radix tree
stays there until the fault has returned, so nobody waits for a page that `alloc_page_lock` hands
out, and the invariant of the machine holds throughout.
-/

namespace FastMap

variable {C : Type*}

namespace State

variable {e : Env C} {s s' s'' : State C} {p q : PageId}

/-! ### What a fault takes away -/

/-- Nothing has left the radix trees or the free lists. -/
structure Grows (s s' : State C) : Prop where
  rdx {v : PvdId} {cpu : ℕ} {i : Pgoff} {p : PageId} :
    (s.trees ⟨.rdx, v, cpu⟩).lookup i = some p → (s'.trees ⟨.rdx, v, cpu⟩).lookup i = some p
  fl {p : PageId} {cpu : ℕ} : p ∈ s.fl cpu → p ∈ s'.fl cpu

lemma Grows.of_eq (ht : s'.trees = s.trees) (hf : s'.fl = s.fl) : Grows s s' where
  rdx h := by rwa [ht]
  fl h := by rwa [hf]

lemma Grows.refl (s : State C) : Grows s s := .of_eq rfl rfl

lemma grows_trylockTp (s : State C) (p : PageId) (i : Pgoff) : Grows s (s.trylockTp p i).2 := by
  rcases trylockTp_cases s p i with ⟨r, -, h⟩ | ⟨-, -, -, h⟩
  · rw [h]
    exact .refl s
  · rw [h]
    exact .of_eq rfl rfl

lemma grows_enqueue (s : State C) (q : Queue) (p : PageId) : Grows s (s.enqueue q p).2 := by
  unfold enqueue
  split_ifs <;> exact .of_eq rfl rfl

lemma grows_treeInsert (e : Env C) (s : State C) (v : PvdId) (offset : Pgoff) (p : PageId) :
    Grows s (s.treeInsert e .rdx v offset p) where
  rdx {v' cpu i q} h := by
    simp only [treeInsert]
    by_cases ht : (⟨.rdx, v', cpu⟩ : TreeId) = ⟨.rdx, v, offset % e.ncpus⟩
    · rw [ht] at h ⊢
      rw [Function.update_self, KeyMap.lookup_insertNew]
      split_ifs with hi
      · subst hi
        rw [h]
        rfl
      · exact h
    · rwa [Function.update_of_ne ht]
  fl h := h

lemma grows_freePageLock (s : State C) (p : PageId) : Grows s (s.freePageLock p) where
  rdx h := h
  fl {q cpu} h := by
    simp only [freePageLock, freeLink]
    by_cases hc : cpu = (s.pages p).cpuid
    · subst hc
      rw [Function.update_self]
      exact List.mem_append_left _ h
    · rwa [Function.update_of_ne hc]

lemma grows_dmapDoPageIo (s : State C) (v : PvdId) (offset : Pgoff) (p : PageId)
    (r : ReadResult C) : Grows s (s.dmapDoPageIo v offset p r) := by
  have hread : Grows s (s.readOrFake v offset p r) := by
    unfold readOrFake
    cases (s.pvds v).type with
    | file => exact .of_eq rfl rfl
    | blkd =>
      dsimp only
      split_ifs <;> exact .of_eq rfl rfl
  unfold dmapDoPageIo
  dsimp only
  split_ifs
  · exact .of_eq rfl rfl
  · exact ⟨hread.rdx, hread.fl⟩

lemma grows_dmapAddOrUpdateRmap {vmf : VmFault} {cpu : ℕ}
    (hs : s.dmapAddOrUpdateRmap vmf p cpu = .ok s') : Grows s s' := by
  simp only [dmapAddOrUpdateRmap] at hs
  split at hs
  · obtain rfl := Except.ok.inj hs
    exact .refl s
  · split at hs
    · cases hs
    · split at hs
      · cases hs
      · obtain rfl := Except.ok.inj hs
        exact .of_eq rfl rfl

lemma grows_finishFault (s : State C) (vmf : VmFault) (p : PageId) :
    Grows s (s.finishFault vmf p) := by
  simp only [finishFault]
  split_ifs <;> exact .of_eq rfl rfl

/-- Only `alloc_page_lock` takes pages off the free lists, and no step of a fault takes a page out
of a radix tree. -/
lemma grows_stepGet {c : Choice C} {r : Req} {x : GetPc} {pc : Pc} (hx : x ≠ .alloc)
    (hs : s.stepGet e c r x = .ok (s', pc)) : Grows s s' := by
  cases x with
  | alloc => exact absurd rfl hx
  | lookup =>
    simp only [stepGet] at hs
    split at hs
    all_goals
      rw [← (Prod.mk.inj (Except.ok.inj hs)).1]
      exact .refl s
  | fresh p =>
    rw [← (Prod.mk.inj (Except.ok.inj hs)).1]
    exact grows_trylockTp s p _
  | insert p =>
    have hi := grows_treeInsert e s r.pvd r.vmf.pgoff p
    simp only [stepGet, fmapRadixInsert] at hs
    split at hs
    all_goals
      rename_i heq
      obtain ⟨-, rfl⟩ := Prod.mk.inj heq
      rw [← (Prod.mk.inj (Except.ok.inj hs)).1]
      exact hi
  | rollback p =>
    rw [← (Prod.mk.inj (Except.ok.inj hs)).1]
    exact grows_freePageLock s p
  | enqueue p =>
    rw [← (Prod.mk.inj (Except.ok.inj hs)).1]
    exact grows_enqueue s _ p
  | io p =>
    rw [← (Prod.mk.inj (Except.ok.inj hs)).1]
    exact grows_dmapDoPageIo s _ _ p _
  | lock p =>
    have hl := grows_trylockTp s p ulongMax
    simp only [stepGet] at hs
    split at hs
    all_goals
      rename_i heq
      rw [heq] at hl
      rw [← (Prod.mk.inj (Except.ok.inj hs)).1]
      exact hl
  | valid p =>
    simp only [stepGet] at hs
    split_ifs at hs
    rw [← (Prod.mk.inj (Except.ok.inj hs)).1]
    exact .refl s
  | done p =>
    simp only [stepGet] at hs
    obtain ⟨s₁, hr, hs⟩ := Except.map_eq_ok.mp hs
    rw [← (Prod.mk.inj hs).1]
    exact grows_dmapAddOrUpdateRmap hr
  | map p =>
    rw [← (Prod.mk.inj (Except.ok.inj hs)).1]
    exact grows_finishFault s _ p

/-! ### What the calls between faults take away -/

lemma Batch.fl_of_resident {P : PageId → PageView C → Prop} {g : PageView C → PageView C}
    {pgs : List PageId} (hb : Batch e (s.view e) P g s' pgs)
    (hP : ∀ q, P q (s.view e q) → Resident e q (s.view e q)) (hp : p ∈ s.fl (e.home p)) :
    p ∈ s'.fl (e.home p) := by
  have hno : p ∉ pgs := fun hm =>
    Bool.false_ne_true ((hP p (hb.all hm)).free.symm.trans ((view_free e s p).mpr hp))
  rw [← view_free, hb.view_of_not_mem hno, view_free]
  exact hp

lemma Moves.fl_of_free {w : PageView C} (hm : Moves e s s' q w)
    (hw : w.free = (s.view e q).free) (hp : p ∈ s.fl (e.home p)) : p ∈ s'.fl (e.home p) := by
  rw [← view_free] at hp ⊢
  by_cases hpq : p = q
  · subst hpq
    rw [hm.view_self, hw]
    exact hp
  · rw [hm.view_of_ne hpq]
    exact hp

lemma Quiet.fl_writeDirtyPages (h : s.Quiet e) {cb : Cleanup} {v : PvdId}
    (hs : s.writeDirtyPages e cb v = .ok s') (hp : p ∈ s.fl (e.home p)) :
    p ∈ s'.fl (e.home p) :=
  (h.inv.writeDirtyPages hs).batch.fl_of_resident (fun _ hq => hq.1) hp

end State

/-- A read fault, as one call. -/
def Op.isFault : Op C → Bool
  | .fault _ _ _ => true
  | _ => false

namespace State

variable {e : Env C} {s s' : State C} {p : PageId}

/-- Evictions and releases take no page off a free list. -/
lemma Quiet.fl_step (h : s.Quiet e) {op : Op C} (hop : op.isFault = false)
    (hs : Completes e s op s') (hp : p ∈ s.fl (e.home p)) : p ∈ s'.fl (e.home p) := by
  obtain ⟨hi, hs⟩ := hs
  cases op with
  | fault vma i f => exact absurd hop (by simp [Op.isFault])
  | mkwrite vma i =>
    rcases h.inv.mkwrite hi hs with rfl | ⟨q, v, w, -, hr, -, -, -, -, -, hm⟩
    · exact hp
    · exact hm.fl_of_free (hr.dirtied.free.trans hr.free.symm) hp
  | store vma i f =>
    obtain ⟨q, -, -, hm⟩ := h.placed.store hs
    exact hm.fl_of_free rfl hp
  | evictor id held =>
    obtain rfl : s.evictorRoundHeld e id held = s' := by simpa [exec] using hs
    obtain ⟨v, hb, -⟩ := h.evictorRoundHeld id held
    exact hb.fl_of_resident (fun _ hq => hq.1) hp
  | writeDirty cb v => exact h.fl_writeDirtyPages hs hp
  | purge qid =>
    obtain rfl : s.tryPurgePagesFast e qid = s' := by simpa [exec] using hs
    obtain ⟨-, pgs, hb⟩ := h.inv.tryPurgePagesFast qid
    exact hb.fl_of_resident (fun _ hq => hq.1) hp
  | rawRelease v =>
    obtain ⟨s₁, pgs, hw, -, hc⟩ := h.inv.rawRelease hs
    exact hc.batch.fl_of_resident (fun _ hq => hq.1) (h.fl_writeDirtyPages hw hp)

end State

/-! ### The races -/

/-- A step of a fault, or a whole call between faults. -/
inductive Event (C : Type*) where
  | thread (t : Tid) (a : Act C)
  | call (op : Op C)

/-- The threads, the pages that the last `alloc_page_lock` of each has taken off the free lists, and
the pages that losing faults have taken and that `alloc_page_lock` has not taken since. -/
structure Race (C : Type*) where
  m : Machine C
  taken : Tid → List PageId
  lost : List PageId

/-- The thread reclaims pages. -/
def Pc.isPurge : Pc → Bool
  | .purge _ _ => true
  | _ => false

/-- The page that a fault has allocated and not yet inserted. -/
def Pc.attempt : Pc → Option PageId
  | .get _ (.fresh p) | .get _ (.insert p) | .get _ (.rollback p) => some p
  | _ => none

/-- The page has been taken off its free list. -/
def State.unlinks (e : Env C) (s s' : State C) (p : PageId) : Bool :=
  decide (p ∈ s.fl (e.home p)) && !decide (p ∈ s'.fl (e.home p))

namespace Race

/-- The race after a step of thread `t` that brought the threads to `m'`. -/
def after (e : Env C) (x : Race C) (t : Tid) (m' : Machine C) : Pc → Race C
  | .get _ (.rollback _) => ⟨m', x.taken, x.taken t ++ x.lost⟩
  | .get _ .alloc =>
    ⟨m', Function.update x.taken t ((List.range e.numPages).filter (x.m.st.unlinks e m'.st)),
      x.lost.filter fun q => !x.m.st.unlinks e m'.st q⟩
  | _ => ⟨m', x.taken, x.lost⟩

@[simp] lemma after_m {e : Env C} {x : Race C} {t : Tid} {m' : Machine C} {pc : Pc} :
    (x.after e t m' pc).m = m' := by
  unfold after
  split <;> rfl

/-- Threads make faults, which find free pages, so that none of them has to purge. Calls of other
kinds are made, and completed, while no fault is in flight. -/
inductive Step (e : Env C) : Race C → Event C → Race C → Prop
  | start {x : Race C} {t : Tid} {vma : VmaId} {i : ℕ} {m' : Machine C} :
      x.m.next e t (.start (.getpage vma i)) = .ok m' →
      Step e x (.thread t (.start (.getpage vma i))) { x with m := m' }
  | step {x : Race C} {t : Tid} {c : Choice C} {m' : Machine C} :
      x.m.next e t (.step c) = .ok m' → (∀ ret y, m'.pc t ≠ .purge ret y) →
      Step e x (.thread t (.step c)) (x.after e t m' (x.m.pc t))
  | call {x : Race C} {op : Op C} {s' : State C} :
      (∀ t, x.m.pc t = .idle) → op.isFault = false → State.Completes e x.m.st op s' →
      Step e x (.call op) { x with m := { x.m with st := s' } }

lemma taken_after_of_ne {e : Env C} {x : Race C} {t u : Tid} {m' : Machine C} {pc : Pc}
    (hu : u ≠ t) : (x.after e t m' pc).taken u = x.taken u := by
  unfold after
  split
  · rfl
  · exact Function.update_of_ne hu _ _
  · rfl

/-- When a fault calls `alloc_page_lock`, only the last node that it searches has free pages. -/
def Frugal (e : Env C) (x : Race C) : Event C → Prop
  | .thread t (.step c) =>
    ∀ r, x.m.pc t = .get r .alloc → x.m.st.FreeOnLast e (e.numaDv c.node)
  | _ => True

/-- A step that meets this condition. -/
def StepsFrugal (e : Env C) (x : Race C) (ev : Event C) (x' : Race C) : Prop :=
  x.Frugal e ev ∧ Step e x ev x'

/-- The buffer that `init_hash_table_free_pages` and `init_params_fifo_buffer_t` build. -/
def init (e : Env C) (w : State.World C) : Race C :=
  ⟨Machine.quiescent (State.initParams e w), fun _ => [], []⟩

end Race

namespace Machine

open State

variable {e : Env C} {m : Machine C} {p : PageId}

/-- A page of a radix tree is in use and on no free list. -/
lemma Inv.inUse_of_rdx (h : Inv e m) (hp : (m.st.view e p).tree .rdx = true) :
    (m.st.pages p).inUse = true ∧ (m.st.view e p).free = false := by
  by_cases hh : ∃ t, (m.pc t).Holds p
  · obtain ⟨t, hh⟩ := hh
    have hat := ((h.page p).held hh).1
    exact ⟨hat.inUse, hat.free⟩
  · rcases ((h.page p).rest fun t ht => hh ⟨t, ht⟩).phase with ⟨hi, -⟩ | hat
    · exact absurd ((hi.unlinked.tree .rdx).symm.trans hp) Bool.false_ne_true
    · exact ⟨hat.inUse, hat.free⟩

/-- A page that `alloc_page_lock` hands out was on its free list. -/
lemma Inv.free_of_alloc (h : Inv e m) {node : ℕ} {offset : Pgoff} {v : PvdId} {s₁ : State C}
    (hs : m.st.allocPageLock e node offset v = (some p, s₁)) :
    (m.st.view e p).free = true := by
  rcases h.placed.allocPageLock_idle (fun q hf => (h.idle_of_free hf).1) node offset v
    with ⟨s₂, hs₂, -⟩ | ⟨q, s₂, hs₂, hf, -⟩
  · exact absurd (hs.symm.trans hs₂) (by simp)
  · obtain rfl : p = q := by
      have := congrArg Prod.fst (hs.symm.trans hs₂)
      exact Option.some.inj this
    exact hf

end Machine

namespace State

variable {e : Env C} {s s' : State C}

/-- The only page that leaves its list is the one returned, if only the last node has free pages. -/
lemma eq_of_unlinks {node : ℕ} {offset : Pgoff} {v : PvdId} {p q : PageId}
    (hf : s.FreeOnLast e (e.numaDv node)) (hs : s.allocPageLock e node offset v = (some p, s'))
    (hq : s.unlinks e s' q = true) : q = p := by
  obtain ⟨hres, hfl, -⟩ := allocPageLock_eq e s node offset v
  rw [hs, scanNodes_eq_takeFree hf] at hres hfl
  rw [unlinks, Bool.and_eq_true, Bool.not_eq_true', decide_eq_true_iff, decide_eq_false_iff_not,
    show s'.fl = _ from hfl] at hq
  obtain ⟨hmem, hno⟩ := hq
  rcases s.takeFree_cases ((e.numaDv node).flatMap e.cpumaskOfNode) with
    ⟨hnone, -⟩ | ⟨_, cpu, _, p', rest, -, -, hl, hp', hupdate, -⟩
  · rw [hnone] at hno
    exact absurd hmem hno
  · obtain rfl : p = p' := Option.some.inj (hres.trans hp')
    rw [hupdate] at hno
    by_cases hc : e.home q = cpu
    · rw [hc, hl] at hmem
      rw [hc, Function.update_self] at hno
      exact (List.mem_cons.mp hmem).resolve_right hno
    · rw [Function.update_of_ne hc] at hno
      exact absurd hmem hno

lemma trees_allocPageLock (e : Env C) (s : State C) (node : ℕ) (offset : Pgoff) (v : PvdId) :
    (s.allocPageLock e node offset v).2.trees = s.trees := by
  have h : (s.scanNodes e (e.numaDv node) none).2.trees = s.trees :=
    scanNodes_rule (R := fun s s' => s'.trees = s.trees) (fun _ => rfl) (fun h h' => h'.trans h)
      (fun _ _ _ _ => rfl) e s _ _
  unfold allocPageLock
  split
  · rename_i heq
    rw [heq] at h
    exact h
  · rename_i heq
    rw [heq] at h
    exact h

/-- No step of a fault takes a page out of a radix tree. -/
lemma rdx_stepGet {c : Choice C} {r : Req} {x : GetPc} {pc : Pc}
    (hs : s.stepGet e c r x = .ok (s', pc)) {v : PvdId} {cpu : ℕ} {i : Pgoff} {p : PageId}
    (hp : (s.trees ⟨.rdx, v, cpu⟩).lookup i = some p) :
    (s'.trees ⟨.rdx, v, cpu⟩).lookup i = some p := by
  by_cases hx : x = .alloc
  · subst hx
    have ht := trees_allocPageLock e s c.node r.vmf.pgoff r.pvd
    simp only [stepGet] at hs
    split at hs
    all_goals
      rename_i heq
      rw [heq] at ht
      rw [← (Prod.mk.inj (Except.ok.inj hs)).1, ht]
      exact hp
  · exact (grows_stepGet hx hs).rdx hp

end State

namespace Race

open State Machine

variable {e : Env C} {x x' : Race C} {ev : Event C} {t : Tid} {r : Req} {p : PageId}

/-! ### The invariant of the races -/

structure Ok (e : Env C) (x : Race C) : Prop where
  inv : Machine.Inv e x.m
  faults (t : Tid) : x.m.pc t = .idle ∨ ∃ r y, x.m.pc t = .get r y
  /-- A page that a fault is about to lock is still in the radix tree. -/
  found {t : Tid} {r : Req} {p : PageId} : x.m.pc t = .get r (.lock p) →
    x.m.st.treeLookup e .rdx r.pvd r.vmf.pgoff = some p
  /-- A fault has taken no other page than the one that it may have to give back. -/
  taken {t : Tid} {p q : PageId} : (x.m.pc t).attempt = some p → q ∈ x.taken t → q = p
  lost {p : PageId} : p ∈ x.lost → p ∈ x.m.st.fl (e.home p)

lemma ok_init (e : Env C) (w : World C) : Ok e (init e w) where
  inv := inv_quiescent (quiet_initParams e w)
  faults _ := .inl rfl
  found h := by simp [init, quiescent] at h
  taken h := by simp [init, quiescent, Pc.attempt] at h
  lost h := by simp [init] at h

lemma Ok.awaited (h : Ok e x) {i : Pgoff} (ha : (x.m.pc t).await = some (r, p, i)) :
    (x.m.st.view e p).tree .rdx = true := by
  rcases h.faults t with ht | ⟨r', y, ht⟩
  · simp [ht, Pc.await] at ha
  · cases y with
    | lock q =>
      obtain ⟨rfl, rfl, -⟩ : r' = r ∧ q = p ∧ _ := by simpa [ht, Pc.await] using ha
      exact h.inv.placed.tree_of_lookup (h.found ht)
    | _ => simp [ht, Pc.await] at ha

/-- Nobody waits for a page that is handed out. -/
lemma Ok.unclaimed (h : Ok e x) (l : Tid × Act C) : Unclaimed e x.m l := by
  intro c r p s₁ _ _ hs u r' i ha
  have hf := h.inv.free_of_alloc hs
  exact absurd ((h.inv.inUse_of_rdx (h.awaited ha)).2.symm.trans hf) Bool.false_ne_true

lemma Ok.start (h : Ok e x) {vma : VmaId} {i : ℕ} {m' : Machine C}
    (hs : x.m.next e t (.start (.getpage vma i)) = .ok m') : Ok e { x with m := m' } := by
  rcases steps_cases (l := (t, .start (.getpage vma i))) hs with
    ⟨k, pc', hk, hidle, hst, rfl⟩ | ⟨c, s', pc', hk, -, -⟩
  · obtain rfl := Act.start.inj hk
    obtain ⟨r, rfl⟩ : ∃ r, pc' = .get r .lookup := by
      rcases start_inv hst with ⟨_, _, v, -, -, rfl⟩ | ⟨_, _, _, _, _, hk', -⟩ | ⟨_, hk', -⟩ |
        ⟨_, hk', -⟩ | ⟨_, _, hk', -⟩
      · exact ⟨_, rfl⟩
      all_goals cases hk'
    refine ⟨h.inv.start_of_await hidle hst (by simp [Pc.await]), fun u => ?_, fun {u r' p} hu => ?_,
      fun {u p q} hu => ?_, h.lost⟩
    · by_cases hut : u = t
      · subst hut
        exact .inr ⟨r, .lookup, put_pc_self⟩
      · rw [put_pc_of_ne hut]
        exact h.faults u
    · by_cases hut : u = t
      · subst hut
        simp at hu
      · rw [put_pc_of_ne hut] at hu
        exact h.found hu
    · by_cases hut : u = t
      · subst hut
        simp [Pc.attempt] at hu
      · rw [put_pc_of_ne hut] at hu
        exact h.taken hu
  · cases hk

/-- A fault that does not purge stays in `perma_getpage`, or returns. -/
lemma pc_of_stepGet {s s' : State C} {c : Choice C} {y : GetPc} {pc' : Pc}
    (hs : s.stepGet e c r y = .ok (s', pc')) (hpc : ∀ ret z, pc' ≠ .purge ret z) :
    pc' = .idle ∨ ∃ z, pc' = .get r z := by
  rcases frame_stepGet hs with hf | hf
  · cases pc' with
    | get r' z =>
      obtain rfl : r' = r := by simpa [Pc.frame] using hf
      exact .inr ⟨z, rfl⟩
    | purge ret z => exact absurd rfl (hpc ret z)
    | _ => simp [Pc.frame] at hf
  · exact .inl hf

/-- A fault is about to lock a page because it has just found it. -/
lemma lookup_of_lock {s s' : State C} {c : Choice C} {y : GetPc} {r' : Req}
    (hs : s.stepGet e c r y = .ok (s', .get r' (.lock p))) :
    r' = r ∧ s' = s ∧ s.treeLookup e .rdx r.pvd r.vmf.pgoff = some p := by
  cases y with
  | lookup =>
    simp only [stepGet] at hs
    split at hs
    · simp at hs
    · rename_i q hq
      simp only [Except.ok.injEq, Prod.mk.injEq, Pc.get.injEq, GetPc.lock.injEq] at hs
      obtain ⟨rfl, rfl, rfl⟩ := hs
      exact ⟨rfl, rfl, hq⟩
  | alloc | insert q | lock q =>
    simp only [stepGet] at hs
    split at hs <;> simp at hs
  | valid q =>
    simp only [stepGet] at hs
    split_ifs at hs
    simp at hs
  | done q =>
    simp only [stepGet] at hs
    cases hr : s.dmapAddOrUpdateRmap r.vmf q c.cpu <;> simp [hr, Except.map] at hs
  | fresh q | rollback q | enqueue q | io q | map q => simp [stepGet] at hs

/-- A fault gets the page of its attempt from `alloc_page_lock`, and keeps it until it gives it
back. -/
lemma attempt_stepGet {s s' : State C} {c : Choice C} {y : GetPc} {pc' : Pc}
    (hs : s.stepGet e c r y = .ok (s', pc')) (ha : pc'.attempt = some p) :
    y = .alloc ∧ s.allocPageLock e c.node r.vmf.pgoff r.pvd = (some p, s') ∨
      (Pc.get r y).attempt = some p := by
  cases y with
  | alloc =>
    simp only [stepGet] at hs
    split at hs
    · obtain ⟨-, rfl⟩ := Prod.mk.inj (Except.ok.inj hs)
      simp [Pc.attempt] at ha
    · rename_i q s₁ hq
      obtain ⟨rfl, rfl⟩ := Prod.mk.inj (Except.ok.inj hs)
      obtain rfl : q = p := by simpa [Pc.attempt] using ha
      exact .inl ⟨rfl, hq⟩
  | insert q =>
    simp only [stepGet] at hs
    split at hs
    all_goals
      obtain ⟨-, rfl⟩ := Prod.mk.inj (Except.ok.inj hs)
      simp_all [Pc.attempt]
  | lookup | lock q =>
    simp only [stepGet] at hs
    split at hs
    all_goals
      obtain ⟨-, rfl⟩ := Prod.mk.inj (Except.ok.inj hs)
      simp [Pc.attempt] at ha
  | valid q =>
    simp only [stepGet] at hs
    split_ifs at hs
    obtain ⟨-, rfl⟩ := Prod.mk.inj (Except.ok.inj hs)
    simp [Pc.attempt] at ha
  | done q =>
    simp only [stepGet] at hs
    obtain ⟨s₁, -, hs⟩ := Except.map_eq_ok.mp hs
    obtain ⟨-, rfl⟩ := Prod.mk.inj hs
    simp [Pc.attempt] at ha
  | fresh q | rollback q | enqueue q | io q | map q =>
    obtain ⟨-, rfl⟩ := Prod.mk.inj (Except.ok.inj hs)
    simp_all [Pc.attempt]

/-- With free pages on the last node only, a fault takes one page at a time. -/
lemma Ok.taken_after (h : Ok e x) {c : Choice C} {y : GetPc} {pc' : Pc} {m' : Machine C}
    (hf : x.Frugal e (.thread t (.step c))) (hpc : x.m.pc t = .get r y)
    (hs : x.m.st.stepGet e c r y = .ok (m'.st, pc')) (ha : pc'.attempt = some p) {q : PageId}
    (hq : q ∈ (x.after e t m' (x.m.pc t)).taken t) : q = p := by
  rcases attempt_stepGet hs ha with ⟨rfl, halloc⟩ | hold
  · simp only [hpc, after, Function.update_self, List.mem_filter] at hq
    exact eq_of_unlinks (hf r hpc) halloc hq.2
  · rw [← hpc] at hold
    refine h.taken hold ?_
    rw [hpc] at hq hold
    cases y with
    | alloc => simp [Pc.attempt] at hold
    | _ => exact hq

/-- The pages that have come back stay on their lists until `alloc_page_lock` takes them. -/
lemma Ok.lost_after (h : Ok e x) {c : Choice C} {y : GetPc} {pc' : Pc} {m' : Machine C}
    (hpc : x.m.pc t = .get r y) (hs : x.m.st.stepGet e c r y = .ok (m'.st, pc'))
    (hp : p ∈ (x.after e t m' (x.m.pc t)).lost) : p ∈ m'.st.fl (e.home p) := by
  rw [hpc] at hp
  cases y with
  | alloc =>
    obtain ⟨hp, hun⟩ := List.mem_filter.mp hp
    simpa [State.unlinks, h.lost hp] using hun
  | rollback q =>
    rcases List.mem_append.mp hp with hp | hp
    · obtain rfl := h.taken (by rw [hpc]; rfl) hp
      have hh : (x.m.pc t).Holds p := by rw [hpc]; exact Or.inl (by simp [Pc.locks])
      have hat := ((h.inv.page p).held hh).1
      rw [hpc] at hat
      rw [← (Prod.mk.inj (Except.ok.inj hs)).1, ← view_free, (h.inv.moves_free hat).view_self]
      rfl
    · exact (grows_stepGet (by simp) hs).fl (h.lost hp)
  | _ => exact (grows_stepGet (by simp) hs).fl (h.lost hp)

lemma Ok.step_thread (h : Ok e x) {c : Choice C} {m' : Machine C}
    (hf : x.Frugal e (.thread t (.step c))) (hs : x.m.next e t (.step c) = .ok m')
    (hpurge : ∀ ret y, m'.pc t ≠ .purge ret y) : Ok e (x.after e t m' (x.m.pc t)) := by
  rcases steps_cases (l := (t, .step c)) hs with ⟨k, pc', hk, -⟩ | ⟨c', s', pc', hk, hst, hm⟩
  · cases hk
  obtain rfl := Act.step.inj hk
  rcases h.faults t with hidle | ⟨r, y, hpc⟩
  · rw [hidle] at hst
    cases hst
  have hget : x.m.st.stepGet e c r y = .ok (m'.st, pc') := by
    rw [hpc] at hst
    rw [hm]
    exact hst
  have hput : m'.pc t = pc' := by rw [hm]; exact put_pc_self
  have hother : ∀ u, u ≠ t → m'.pc u = x.m.pc u := fun u hu => by rw [hm]; exact put_pc_of_ne hu
  refine ⟨?_, fun u => ?_, fun {u r' p} hu => ?_, fun {u p q} hu hq => ?_,
    fun hp => by rw [after_m]; exact h.lost_after hpc hget hp⟩
  · rw [after_m, hm]
    exact h.inv.stepThread (h.unclaimed _) hst
  · rw [after_m]
    by_cases hut : u = t
    · subst hut
      rw [hput]
      rw [hput] at hpurge
      exact (pc_of_stepGet hget hpurge).imp_right fun ⟨z, hz⟩ => ⟨r, z, hz⟩
    · rw [hother u hut]
      exact h.faults u
  · rw [after_m] at hu ⊢
    by_cases hut : u = t
    · subst hut
      rw [hput] at hu
      subst hu
      obtain ⟨rfl, hst', hl⟩ := lookup_of_lock hget
      rw [hst']
      exact hl
    · rw [hother u hut] at hu
      exact rdx_stepGet hget (h.found hu)
  · rw [after_m] at hu
    by_cases hut : u = t
    · subst hut
      rw [hput] at hu
      exact h.taken_after hf hpc hget hu hq
    · rw [hother u hut] at hu
      rw [taken_after_of_ne hut] at hq
      exact h.taken hu hq

lemma Ok.call (h : Ok e x) {op : Op C} {s' : State C} (hi : ∀ t, x.m.pc t = .idle)
    (hop : op.isFault = false) (hs : Completes e x.m.st op s') :
    Ok e { x with m := { x.m with st := s' } } := by
  have hq := h.inv.quiet hi
  refine ⟨inv_of_idle (hq.step hs) hi, h.faults, fun {t r p} ht => ?_, h.taken,
    fun hp => hq.fl_step hop hs (h.lost hp)⟩
  exact absurd ((hi t).symm.trans ht) (by simp)

lemma Ok.step (h : Ok e x) (hs : StepsFrugal e x ev x') : Ok e x' := by
  obtain ⟨hf, hs⟩ := hs
  cases hs with
  | start hs => exact h.start hs
  | step hs hpurge => exact h.step_thread hf hs hpurge
  | call hi hop hs => exact h.call hi hop hs

lemma ok_run {w : World C} {evs : List (Event C)} (h : Run (StepsFrugal e) (init e w) evs x) :
    Ok e x :=
  h.invariant (fun _ _ _ hx hs => hx.step hs) (ok_init e w)

/-! ### One page for each offset -/

/-- The radix trees map a block to one page, and no page is lost or used twice. -/
structure OnePage (e : Env C) (x : Race C) : Prop where
  unique {v : PvdId} {offset : Pgoff} {cpu cpu' : ℕ} {p p' : PageId} :
    (x.m.st.trees ⟨.rdx, v, cpu⟩).lookup offset = some p →
    (x.m.st.trees ⟨.rdx, v, cpu'⟩).lookup offset = some p' → p = p'
  inUse {v : PvdId} {offset : Pgoff} {cpu : ℕ} {p : PageId} :
    (x.m.st.trees ⟨.rdx, v, cpu⟩).lookup offset = some p →
    (x.m.st.pages p).inUse = true ∧ (x.m.st.pages p).pvd = some v ∧
      (x.m.st.pages p).index = offset ∧ ∀ cpu', p ∉ x.m.st.fl cpu'
  /-- With no fault in flight, all pages in use are in the radix trees. -/
  cached : (∀ t, x.m.pc t = .idle) → ∀ p, (x.m.st.pages p).inUse = true ↔
    ∃ v offset cpu, (x.m.st.trees ⟨.rdx, v, cpu⟩).lookup offset = some p
  /-- A page is never on another list than the one it was put on first. -/
  home {p : PageId} {cpu : ℕ} : p ∈ x.m.st.fl cpu → cpu = e.home p
  /-- The pages that a fault took and that lost are back on their lists. -/
  returned {p : PageId} : p ∈ x.lost → p ∈ x.m.st.fl (e.home p)

lemma Ok.onePage (h : Ok e x) : OnePage e x where
  unique {v offset cpu cpu' p p'} hp hp' := by
    obtain ⟨hc, -, -⟩ := h.inv.placed.tree_own hp
    obtain ⟨hc', -, -⟩ := h.inv.placed.tree_own hp'
    dsimp only at hc hc'
    rw [hc] at hp
    rw [hc'] at hp'
    exact Option.some.inj (hp.symm.trans hp')
  inUse {v offset cpu p} hp := by
    obtain ⟨-, hv, hi⟩ := h.inv.placed.tree_own hp
    obtain ⟨hu, hf⟩ := h.inv.inUse_of_rdx (h.inv.placed.tree_of_lookup hp)
    refine ⟨hu, hv, hi, fun cpu' hm => ?_⟩
    rw [← h.inv.placed.fl_home hm, ← view_free] at hm
    exact Bool.false_ne_true (hf.symm.trans hm)
  cached hi p := by
    constructor
    · intro hu
      rcases ((h.inv.quiet hi).page p).phase with hidle | hres
      · exact absurd (hidle.inUse.symm.trans hu) Bool.false_ne_true
      · obtain ⟨v, -, hl⟩ := view_tree.mp hres.cached
        exact ⟨v, _, _, hl⟩
    · rintro ⟨v, offset, cpu, hp⟩
      exact (h.inv.inUse_of_rdx (h.inv.placed.tree_of_lookup hp)).1
  home hp := (h.inv.placed.fl_home hp).symm
  returned := h.lost

/-- Whatever the order in which any number of faults take their steps, a block is cached at most
once, by a page in use that is on no free list. With no fault in flight the pages in use are those
of the radix trees, and the pages that the losing faults took are back on their free lists, as long
as `alloc_page_lock` finds free pages only on the last node that it searches. -/
theorem one_page_per_offset (e : Env C) (w : World C) (evs : List (Event C)) (x : Race C)
    (h : Run (StepsFrugal e) (init e w) evs x) : OnePage e x :=
  (ok_run h).onePage

/-! ### Two faults that miss -/

/-- The step of a thread as a function. -/
def next (e : Env C) (x : Race C) : Event C → Option (Race C)
  | .thread t (.start (.getpage vma i)) =>
    (x.m.next e t (.start (.getpage vma i))).toOption.map fun m' => { x with m := m' }
  | .thread t (.step c) =>
    (x.m.next e t (.step c)).toOption.bind fun m' =>
      if (m'.pc t).isPurge then none else some (x.after e t m' (x.m.pc t))
  | _ => none

lemma step_of_next (h : x.next e ev = some x') : Step e x ev x' := by
  unfold next at h
  split at h
  · obtain ⟨m', hm, rfl⟩ := Option.map_eq_some_iff.mp h
    exact .start (Except.toOption_eq_some.mp hm)
  · obtain ⟨m', hm, hx⟩ := Option.bind_eq_some_iff.mp h
    split_ifs at hx with hp
    obtain rfl := Option.some.inj hx
    refine .step (Except.toOption_eq_some.mp hm) fun ret y hpc => hp ?_
    rw [hpc]
    rfl
  · cases h

/-- On a single node nothing is lost. -/
lemma frugal_of_oneNode (ho : e.OneNode) (x : Race C) (ev : Event C) : x.Frugal e ev := by
  unfold Frugal
  split
  · rename_i c
    rintro r - before node after hrow ⟨n, hn, -⟩
    have hlen := ho c.node
    rw [hrow] at hlen
    have := List.length_pos_of_mem hn
    simp only [List.length_append, List.length_cons] at hlen
    omega
  · trivial

/-- Threads 1 and 2 fault on block 0. Both miss and allocate a page, and thread 2 loses. -/
def bothMiss : List (Event ℕ) :=
  let one := fun t n => List.replicate n (Event.thread (.user t) (.step plain))
  .thread (.user 1) (.start (.getpage 0 0)) :: .thread (.user 2) (.start (.getpage 0 0)) ::
    one 1 3 ++ one 2 3 ++ one 1 5 ++ one 2 7

theorem one_page_per_offset_bothMiss :
    ∃ x, Run (StepsFrugal smallEnv) (init smallEnv smallWorld) bothMiss x ∧ x.lost = [1] ∧
      (x.m.st.trees ⟨.rdx, 0, 0⟩).lookup 0 = some 0 ∧ OnePage smallEnv x := by
  have h : ((bothMiss.foldlM (next smallEnv) (init smallEnv smallWorld)).map fun x =>
      (x.lost, (x.m.st.trees ⟨.rdx, 0, 0⟩).lookup 0)) = some ([1], some 0) := by
    decide +kernel
  obtain ⟨x, hx, hr⟩ := Option.map_eq_some_iff.mp h
  obtain ⟨hret, hl⟩ := Prod.mk.inj hr
  have hone : smallEnv.OneNode := fun _ => le_rfl
  have hrun : Run (StepsFrugal smallEnv) (init smallEnv smallWorld) bothMiss x :=
    Run.of_foldlM (fun _ _ _ hs => ⟨frugal_of_oneNode hone _ _, step_of_next hs⟩) hx
  exact ⟨x, hrun, hret, hl, one_page_per_offset _ _ _ x hrun⟩

/-- On two nodes thread 2 has taken the pages 1 and 3, and gives back only 3. -/
theorem losing_fault_keeps_page :
    ¬ ∀ (e : Env ℕ) (w : World ℕ) (evs : List (Event ℕ)) (x : Race ℕ),
      Run (Step e) (init e w) evs x → OnePage e x := by
  intro hall
  have h : ((bothMiss.foldlM (next (twoCpuEnv.onTopology twoNodes))
      (init (twoCpuEnv.onTopology twoNodes) smallWorld)).map fun x =>
        (x.lost, x.m.st.fl 0)) = some ([1, 3], []) := by
    decide +kernel
  obtain ⟨x, hx, hr⟩ := Option.map_eq_some_iff.mp h
  obtain ⟨hlost, hfl⟩ := Prod.mk.inj hr
  have hone := (hall _ _ _ x (Run.of_foldlM (fun _ _ _ => step_of_next) hx)).returned (p := 1)
    (by rw [hlost]; simp)
  rw [show (twoCpuEnv.onTopology twoNodes).home 1 = 0 from by decide, hfl] at hone
  exact absurd hone List.not_mem_nil

end Race

end FastMap
