import FastMap.Lib.LockTable
import FastMap.Sync
import FastMap.Threads

/-!
# Page locks

Which pages a thread treats as locked by itself, and that it alone does. The lock of a page is
taken by `trylock_tp` and given back by `unlock_tp` and `free_page_lock`; nothing else touches it.
There is one gap: `perma_getpage` does not look at the result of the attempt to lock a page that
it has just allocated.
-/

namespace FastMap

variable {C : Type*}

/-- The pages that a thread treats as locked by itself. -/
def Pc.locks : Pc → Multiset PageId
  | .idle => 0
  | .get _ .lookup => 0
  | .get _ .alloc => 0
  | .get _ (.fresh _) => 0
  | .get _ (.lock _) => 0
  | .get _ (.insert p) => {p}
  | .get _ (.rollback p) => {p}
  | .get _ (.enqueue p) => {p}
  | .get _ (.io p) => {p}
  | .get _ (.valid p) => {p}
  | .get _ (.done p) => {p}
  | .get _ (.map p) => {p}
  | .mkwrite _ _ .lock => 0
  | .mkwrite _ p _ => {p}
  | .purge _ (.take _ _ pgs) => pgs
  | .purge _ (.delete _ _ pgs p) => p ::ₘ pgs
  | .purge _ (.unmap _ _ pgs p) => p ::ₘ pgs
  | .purge _ (.free pgs) => pgs
  | .evict (.take _) => 0
  | .evict (.untree _ p) => {p}
  | .evict (.scan c) => c.pgs
  | .evict (.grab c _) => c.pgs
  | .evict (.back c _) => c.pgs
  | .evict (.clear _ pgs) => pgs
  | .evict (.write _ pgs) => pgs
  | .evict (.insert _ done todo) => done + todo
  | .evict (.unlock todo) => todo
  | .sync _ (.fill _ h) => heapPages h
  | .sync _ (.min h pgs) => heapPages h + pgs
  | .sync _ (.pull hn h pgs) => hn.p ::ₘ (heapPages h + pgs)
  | .sync _ (.clear p h pgs) => p ::ₘ (heapPages h + pgs)
  | .sync _ (.remove p h pgs) => p ::ₘ (heapPages h + pgs)
  | .sync _ (.enqueue p h pgs) => p ::ₘ (heapPages h + pgs)
  | .sync _ (.write h pgs) => heapPages h + pgs
  | .sync _ (.unlock h todo) => heapPages h + todo

namespace State

variable {e : Env C} {s s' : State C} {p : PageId}

/-- The lock bits of all pages. -/
def lockBits (s : State C) (p : PageId) : Bool := (s.pages p).locked

/-! ### The lock bits through the page operations -/

lemma lockBits_of_update {t : TaggedPage C} (hp : s'.pages = Function.update s.pages p t)
    (ht : t.locked = (s.pages p).locked) : s'.lockBits = s.lockBits := by
  funext q
  simp only [lockBits, hp]
  by_cases hq : q = p
  · rw [hq, Function.update_self, ht]
  · rw [Function.update_of_ne hq]

lemma lockBits_set (s : State C) (p : PageId) (b : Bool) :
    (s.modifyPage p fun t => { t with locked := b }).lockBits =
      Function.update s.lockBits p b := by
  funext q
  by_cases hq : q = p
  · subst hq
    simp [lockBits, modifyPage]
  · simp [lockBits, modifyPage, hq]

@[simp] lemma lockBits_unlockTp (s : State C) (p : PageId) :
    (s.unlockTp p).lockBits = Function.update s.lockBits p false :=
  lockBits_set s p false

@[simp] lemma lockBits_remove (s : State C) (q : Queue) (p : PageId) :
    (s.remove q p).lockBits = s.lockBits :=
  lockBits_of_update (p := p) rfl rfl

@[simp] lemma lockBits_enqueue (s : State C) (q : Queue) (p : PageId) :
    (s.enqueue q p).2.lockBits = s.lockBits := by
  simp only [enqueue]
  split_ifs
  · rfl
  · exact lockBits_of_update (p := p) rfl rfl

@[simp] lemma lockBits_setDirty (s : State C) (p : PageId) (b : Bool) :
    (s.setDirty p b).lockBits = s.lockBits :=
  lockBits_of_update (p := p) rfl rfl

@[simp] lemma lockBits_insertPage (s : State C) (p : PageId) (b : Bool) :
    (s.insertPage p b).lockBits = s.lockBits := by
  cases b <;> simp [insertPage]

@[simp] lemma lockBits_treeErase (s : State C) (t : TreeId) (i : Pgoff) :
    (s.treeErase t i).lockBits = s.lockBits := rfl

@[simp] lemma lockBits_treeInsert (s : State C) (k : TreeKind) (v : PvdId) (i : Pgoff)
    (p : PageId) : (s.treeInsert e k v i p).lockBits = s.lockBits := rfl

@[simp] lemma lockBits_removeFromDirtyTree (s : State C) (p : PageId) :
    (s.removeFromDirtyTree e p).lockBits = s.lockBits := by
  simp only [removeFromDirtyTree]
  split <;> rfl

@[simp] lemma lockBits_writePages (s : State C) (v : PvdId) (pgs : List PageId) :
    (s.writePages e v pgs).lockBits = s.lockBits := rfl

@[simp] lemma lockBits_freePageLock (s : State C) (p : PageId) :
    (s.freePageLock p).lockBits = Function.update s.lockBits p false := by
  have h : (s.freeClear p).lockBits = s.lockBits := lockBits_of_update (p := p) rfl rfl
  change ((s.freeClear p).unlockTp p).lockBits = _
  rw [lockBits_unlockTp, h]

@[simp] lemma lockBits_setPte (s : State C) (vma : VmaId) (a : ℕ) (x : Pte) :
    (s.setPte vma a x).lockBits = s.lockBits := rfl

lemma lockBits_foldl {α : Type*} {f : State C → α → State C}
    (hf : ∀ s a, (f s a).lockBits = s.lockBits) (l : List α) (s : State C) :
    (l.foldl f s).lockBits = s.lockBits := by
  induction l generalizing s with
  | nil => rfl
  | cons a l ih => rw [List.foldl_cons, ih, hf]

@[simp] lemma lockBits_clearMappings (s : State C) (p : PageId) :
    (s.clearMappings p).lockBits = s.lockBits := by
  refine lockBits_foldl (fun s i => ?_) _ s
  dsimp only
  split_ifs
  · simp only [wrprotect]
    split
    · split_ifs <;> rfl
    · rfl
  · rfl

@[simp] lemma lockBits_removeMappings (s : State C) (p : PageId) :
    (s.removeMappings p).lockBits = s.lockBits := by
  refine lockBits_foldl (fun s i => ?_) _ s
  dsimp only
  split_ifs
  · have hz : ∀ r, (s.zapPage p r).lockBits = s.lockBits := by
      intro r
      simp only [zapPage]
      split
      · split_ifs <;> rfl
      · rfl
    rw [← hz ((s.pages p).rmap i)]
    exact lockBits_of_update (p := p) rfl rfl
  · rfl

@[simp] lemma lockBits_dmapDoPageIo (s : State C) (v : PvdId) (i : Pgoff) (p : PageId)
    (r : ReadResult C) : (s.dmapDoPageIo v i p r).lockBits = s.lockBits := by
  have hread : ∀ d, (s.readPage d i p r).lockBits = s.lockBits := by
    intro d
    cases r <;> exact lockBits_of_update (p := p) rfl rfl
  have hfake : (s.readOrFake v i p r).lockBits = s.lockBits := by
    simp only [readOrFake]
    split
    · split_ifs
      · exact hread _
      · rfl
    · exact hread _
  simp only [dmapDoPageIo]
  refine Eq.trans (lockBits_of_update (p := p) rfl rfl) ?_
  split_ifs
  · rfl
  · exact hfake

lemma lockBits_allocPageLock (s : State C) (node : ℕ) (i : Pgoff) (v : PvdId) :
    (s.allocPageLock e node i v).2.lockBits = s.lockBits := by
  have h : (s.scanNodes e (e.numaDv node) none).2.lockBits = s.lockBits :=
    scanNodes_rule (R := fun s s' => s'.lockBits = s.lockBits) (fun _ => rfl)
      (fun h h' => h'.trans h) (fun _ _ p _ => lockBits_of_update (p := p) rfl rfl) e s _ _
  simp only [allocPageLock]
  split
  · simp_all
  · rename_i p t ht
    rw [ht] at h
    rw [← h]
    exact lockBits_of_update (p := p) rfl rfl

lemma lockBits_dmapAddOrUpdateRmap {vmf : VmFault} {cpu : ℕ}
    (h : s.dmapAddOrUpdateRmap vmf p cpu = .ok s') : s'.lockBits = s.lockBits := by
  simp only [dmapAddOrUpdateRmap] at h
  split at h
  · rw [Except.ok.inj h]
  · split at h
    · exact absurd h (by simp)
    · split at h
      · exact absurd h (by simp)
      · rw [← Except.ok.inj h]
        exact lockBits_of_update (p := p) rfl rfl

section dequeue

variable {cond : State C → PageId → Bool × State C} {K : State C → PageId → Prop}

/-- A condition that locks the page it accepts. -/
lemma lockStep_cond (hc : Locks cond K) (s : State C) (p : PageId) (h : Multiset PageId) :
    cond s p = (false, s) ∨
      ∃ s', cond s p = (true, s') ∧ LockStep s.lockBits h s'.lockBits (p ::ₘ h) := by
  rcases hc s p with ht | ⟨ht, -, hl, -⟩
  · exact Or.inl ht
  · refine Or.inr ⟨_, ht, ?_⟩
    rw [lockBits_set]
    exact .take hl

lemma lockStep_dequeueIf (hc : Locks cond K) (s : State C) (q : Queue) (h : Multiset PageId) :
    (∃ s', s.dequeueIf q cond = (none, s') ∧ s'.lockBits = s.lockBits) ∨
    ∃ p s', s.dequeueIf q cond = (some p, s') ∧
      LockStep s.lockBits h s'.lockBits (p ::ₘ h) := by
  simp only [dequeueIf]
  split_ifs
  · exact Or.inl ⟨s, rfl, rfl⟩
  · split
    · exact Or.inl ⟨s, rfl, rfl⟩
    · rename_i p _ _
      rcases lockStep_cond hc s p h with ht | ⟨s', ht, hl⟩
      · rw [ht]
        exact Or.inl ⟨_, rfl, rfl⟩
      · rw [ht]
        exact Or.inr ⟨p, _, rfl, by rw [lockBits_remove]; exact hl⟩

lemma lockStep_removeIf (hc : Locks cond K) (s : State C) (q : Queue) (p : PageId)
    (h : Multiset PageId) : s.removeIf q p cond = (false, s) ∨
      ∃ s', s.removeIf q p cond = (true, s') ∧ LockStep s.lockBits h s'.lockBits (p ::ₘ h) := by
  simp only [removeIf]
  rcases lockStep_cond hc s p h with ht | ⟨s', ht, hl⟩
  · rw [ht]
    exact Or.inl rfl
  · rw [ht]
    exact Or.inr ⟨_, rfl, by rw [lockBits_remove]; exact hl⟩

end dequeue

/-! ### Every step -/

variable {pc' : Pc} {c : Choice C}

lemma LockStep.of_eq {locked locked' : PageId → Bool} {h h' : Multiset PageId}
    (hl : locked' = locked) (hh : h' = h) : LockStep locked h locked' h' := by
  rw [hl, hh]
  exact .keep

lemma coe_concat (l : List PageId) (p : PageId) :
    ((l ++ [p] : List PageId) : Multiset PageId) = p ::ₘ l :=
  Multiset.coe_eq_coe.mpr (List.perm_append_singleton p l)

/-- `perma_getpage`, when the page it has just allocated can be locked. -/
lemma lockStep_stepGet {r : Req} {x : GetPc}
    (hf : ∀ p, x = .fresh p → (s.pages p).inUse = true ∧ (s.pages p).locked = false)
    (hs : s.stepGet e c r x = .ok (s', pc')) :
    LockStep s.lockBits (Pc.get r x).locks s'.lockBits pc'.locks := by
  cases x with
  | lookup =>
    simp only [stepGet] at hs
    split at hs
    all_goals
      obtain ⟨rfl, rfl⟩ := Prod.mk.inj (Except.ok.inj hs)
      exact .keep
  | alloc =>
    have hl := lockBits_allocPageLock (e := e) s c.node r.vmf.pgoff r.pvd
    simp only [stepGet] at hs
    split at hs
    all_goals
      rename_i ht
      obtain ⟨rfl, rfl⟩ := Prod.mk.inj (Except.ok.inj hs)
      rw [ht] at hl
      exact LockStep.of_eq hl rfl
  | fresh p =>
    obtain ⟨rfl, rfl⟩ := Prod.mk.inj (Except.ok.inj hs)
    obtain ⟨hu, hl⟩ := hf p rfl
    rw [trylockTp_eq hu hl, lockBits_set]
    exact .take hl
  | insert p =>
    simp only [stepGet, fmapRadixInsert] at hs
    split at hs
    all_goals
      rename_i ht
      obtain ⟨-, rfl⟩ := Prod.mk.inj ht
      obtain ⟨rfl, rfl⟩ := Prod.mk.inj (Except.ok.inj hs)
      exact .keep
  | rollback p =>
    obtain ⟨rfl, rfl⟩ := Prod.mk.inj (Except.ok.inj hs)
    rw [lockBits_freePageLock]
    exact .give rfl
  | enqueue p =>
    obtain ⟨rfl, rfl⟩ := Prod.mk.inj (Except.ok.inj hs)
    exact LockStep.of_eq (lockBits_insertPage s p false) rfl
  | io p =>
    obtain ⟨rfl, rfl⟩ := Prod.mk.inj (Except.ok.inj hs)
    exact LockStep.of_eq (lockBits_dmapDoPageIo s _ _ p _) rfl
  | lock p =>
    simp only [stepGet] at hs
    rcases s.trylockTp_cases p ulongMax with ⟨k, hk, ht⟩ | ⟨-, hl, -, ht⟩
    · rw [ht] at hs
      split at hs
      · rename_i heq
        exact absurd (Prod.mk.inj heq).1 hk
      · rename_i heq
        obtain ⟨-, rfl⟩ := Prod.mk.inj heq
        obtain ⟨rfl, rfl⟩ := Prod.mk.inj (Except.ok.inj hs)
        exact .keep
    · rw [ht] at hs
      obtain ⟨rfl, rfl⟩ := Prod.mk.inj (Except.ok.inj hs)
      rw [lockBits_set]
      exact .take hl
  | valid p =>
    simp only [stepGet] at hs
    split_ifs at hs
    obtain ⟨rfl, rfl⟩ := Prod.mk.inj (Except.ok.inj hs)
    exact .keep
  | done p =>
    simp only [stepGet] at hs
    obtain ⟨t, hr, hs⟩ := Except.map_eq_ok.mp hs
    obtain ⟨rfl, rfl⟩ := Prod.mk.inj hs
    exact LockStep.of_eq (lockBits_dmapAddOrUpdateRmap hr) rfl
  | map p =>
    obtain ⟨rfl, rfl⟩ := Prod.mk.inj (Except.ok.inj hs)
    simp only [finishFault, lockBits_unlockTp]
    split_ifs
    · exact .give rfl
    · exact .give rfl

lemma lockStep_stepMkwrite {r : Req} {p : PageId} {x : MkPc}
    (hs : s.stepMkwrite e r p x = .ok (s', pc')) :
    LockStep s.lockBits (Pc.mkwrite r p x).locks s'.lockBits pc'.locks := by
  cases x with
  | lock =>
    simp only [stepMkwrite] at hs
    rcases s.trylockTp_cases p r.vmf.pgoff with ⟨k, hk, ht⟩ | ⟨-, hl, -, ht⟩
    · rw [ht] at hs
      split at hs
      · rename_i heq
        exact absurd (Prod.mk.inj heq).1 hk
      all_goals
        rename_i heq
        obtain ⟨-, rfl⟩ := Prod.mk.inj heq
        obtain ⟨rfl, rfl⟩ := Prod.mk.inj (Except.ok.inj hs)
        exact .keep
    · rw [ht] at hs
      obtain ⟨rfl, rfl⟩ := Prod.mk.inj (Except.ok.inj hs)
      rw [lockBits_set]
      exact .take hl
  | dirty =>
    simp only [stepMkwrite] at hs
    split_ifs at hs
    · obtain ⟨rfl, rfl⟩ := Prod.mk.inj (Except.ok.inj hs)
      exact .keep
    · obtain ⟨rfl, rfl⟩ := Prod.mk.inj (Except.ok.inj hs)
      exact LockStep.of_eq (lockBits_setDirty s p true) rfl
  | insert =>
    obtain ⟨rfl, rfl⟩ := Prod.mk.inj (Except.ok.inj hs)
    exact .keep
  | remove =>
    obtain ⟨rfl, rfl⟩ := Prod.mk.inj (Except.ok.inj hs)
    exact LockStep.of_eq (lockBits_remove s _ p) rfl
  | enqueue =>
    obtain ⟨rfl, rfl⟩ := Prod.mk.inj (Except.ok.inj hs)
    exact LockStep.of_eq (lockBits_enqueue s _ p) rfl
  | map =>
    obtain ⟨rfl, rfl⟩ := Prod.mk.inj (Except.ok.inj hs)
    simp only [finishMkwrite, lockBits_unlockTp]
    split
    · split_ifs
      · exact .give rfl
      · exact .give rfl
    · exact .give rfl

lemma lockStep_stepPurge {ret : Option Req} {x : PurgePc}
    (hs : s.stepPurge e ret x = .ok (s', pc')) :
    LockStep s.lockBits (Pc.purge ret x).locks s'.lockBits pc'.locks := by
  cases x with
  | take qid n pgs =>
    cases n with
    | zero =>
      obtain ⟨rfl, rfl⟩ := Prod.mk.inj (Except.ok.inj hs)
      exact .keep
    | succ n =>
      simp only [stepPurge] at hs
      rcases lockStep_dequeueIf locks_deq s (.clean qid) pgs with ⟨t, ht, hl⟩ | ⟨p, t, ht, hl⟩
      · rw [ht] at hs
        obtain ⟨rfl, rfl⟩ := Prod.mk.inj (Except.ok.inj hs)
        exact LockStep.of_eq hl rfl
      · rw [ht] at hs
        obtain ⟨rfl, rfl⟩ := Prod.mk.inj (Except.ok.inj hs)
        exact hl
  | delete qid n pgs p =>
    simp only [stepPurge] at hs
    split at hs
    · exact absurd hs (by simp)
    · obtain ⟨rfl, rfl⟩ := Prod.mk.inj (Except.ok.inj hs)
      exact .keep
  | unmap qid n pgs p =>
    obtain ⟨rfl, rfl⟩ := Prod.mk.inj (Except.ok.inj hs)
    refine LockStep.of_eq (lockBits_removeMappings s p) ?_
    exact coe_concat pgs p
  | free pgs =>
    cases pgs with
    | nil =>
      obtain ⟨rfl, rfl⟩ := Prod.mk.inj (Except.ok.inj hs)
      cases ret <;> exact .keep
    | cons p pgs =>
      obtain ⟨rfl, rfl⟩ := Prod.mk.inj (Except.ok.inj hs)
      rw [lockBits_freePageLock]
      exact .give (Multiset.cons_coe p pgs).symm

lemma lockStep_stepEvict {x : EvictPc} (hs : s.stepEvict e x = .ok (s', pc')) :
    LockStep s.lockBits (Pc.evict x).locks s'.lockBits pc'.locks := by
  cases x with
  | take id =>
    simp only [stepEvict] at hs
    rcases lockStep_dequeueIf locks_evDeq s (.dirty id) 0 with ⟨t, ht, hl⟩ | ⟨p, t, ht, hl⟩
    · rw [ht] at hs
      obtain ⟨rfl, rfl⟩ := Prod.mk.inj (Except.ok.inj hs)
      exact LockStep.of_eq hl rfl
    · rw [ht] at hs
      obtain ⟨rfl, rfl⟩ := Prod.mk.inj (Except.ok.inj hs)
      exact hl
  | untree id p =>
    simp only [stepEvict] at hs
    split at hs
    · exact absurd hs (by simp)
    · obtain ⟨rfl, rfl⟩ := Prod.mk.inj (Except.ok.inj hs)
      exact LockStep.of_eq (lockBits_removeFromDirtyTree s p) rfl
  | scan c =>
    simp only [stepEvict] at hs
    split_ifs at hs
    · obtain ⟨rfl, rfl⟩ := Prod.mk.inj (Except.ok.inj hs)
      exact .keep
    · split at hs
      all_goals
        obtain ⟨rfl, rfl⟩ := Prod.mk.inj (Except.ok.inj hs)
        exact .keep
  | grab c q =>
    simp only [stepEvict] at hs
    rcases lockStep_removeIf locks_evDeq s (.dirty c.id) q c.pgs with ht | ⟨t, ht, hl⟩
    · rw [ht] at hs
      obtain ⟨rfl, rfl⟩ := Prod.mk.inj (Except.ok.inj hs)
      exact .keep
    · rw [ht] at hs
      obtain ⟨rfl, rfl⟩ := Prod.mk.inj (Except.ok.inj hs)
      rw [show (Pc.evict (.scan (c.next (c.pgs ++ [q])))).locks = q ::ₘ c.pgs from coe_concat _ q]
      exact hl
  | back c q =>
    obtain ⟨rfl, rfl⟩ := Prod.mk.inj (Except.ok.inj hs)
    exact .keep
  | clear v pgs =>
    obtain ⟨rfl, rfl⟩ := Prod.mk.inj (Except.ok.inj hs)
    exact LockStep.of_eq (lockBits_foldl lockBits_clearMappings pgs s) rfl
  | write v pgs =>
    obtain ⟨rfl, rfl⟩ := Prod.mk.inj (Except.ok.inj hs)
    exact LockStep.of_eq (lockBits_writePages s v pgs) (by simp [Pc.locks])
  | insert v done todo =>
    cases todo with
    | nil =>
      obtain ⟨rfl, rfl⟩ := Prod.mk.inj (Except.ok.inj hs)
      exact LockStep.of_eq rfl (by simp [Pc.locks])
    | cons p todo =>
      obtain ⟨rfl, rfl⟩ := Prod.mk.inj (Except.ok.inj hs)
      exact LockStep.of_eq (lockBits_insertPage s p true) (by simp [Pc.locks])
  | unlock todo =>
    cases todo with
    | nil =>
      obtain ⟨rfl, rfl⟩ := Prod.mk.inj (Except.ok.inj hs)
      exact .keep
    | cons p todo =>
      obtain ⟨rfl, rfl⟩ := Prod.mk.inj (Except.ok.inj hs)
      rw [lockBits_unlockTp]
      exact .give (Multiset.cons_coe p todo).symm

/-- A tree was empty, or its first page was locked by somebody, or it is in the heap. -/
lemma lockStep_pullOnce {v : PvdId} {cpu : ℕ} {h h' : MinHeap} {b : Option Bool}
    (hs : s.pullOnce v cpu h = .ok (b, s', h')) (l : Multiset PageId) :
    LockStep s.lockBits (heapPages h + l) s'.lockBits (heapPages h' + l) := by
  simp only [pullOnce] at hs
  split at hs
  · obtain ⟨-, rfl, rfl⟩ : _ ∧ s = s' ∧ h = h' := by simpa using hs
    exact .keep
  · rename_i k p _
    rcases s.trylockTp_cases p ulongMax with ⟨r, hr, ht⟩ | ⟨-, hl, -, ht⟩
    · rw [ht] at hs
      split at hs
      · rename_i heq
        exact absurd (Prod.mk.inj heq).1 hr
      · rename_i heq
        obtain ⟨-, rfl⟩ := Prod.mk.inj heq
        obtain ⟨-, rfl, rfl⟩ : _ ∧ s = s' ∧ h = h' := by simpa using hs
        exact .keep
    · rw [ht] at hs
      split at hs
      · rename_i heq
        obtain ⟨-, rfl⟩ := Prod.mk.inj heq
        split at hs
        · exact absurd hs (by simp)
        rename_i h₁ hi
        obtain ⟨-, rfl, rfl⟩ : _ ∧ _ = s' ∧ h₁ = h' := by simpa using hs
        have hp : heapPages h₁ = p ::ₘ heapPages h := by
          rw [heapPages, heapPages_insert hi, Multiset.map_cons]
          rfl
        rw [hp, Multiset.cons_add, lockBits_treeErase, lockBits_set]
        exact .take hl
      · rename_i hne heq
        obtain ⟨h0, -⟩ := Prod.mk.inj heq
        exact absurd h0.symm hne

lemma locks_startCleanup (a : SyncArgs) (p : PageId) (h : MinHeap) (pgs : List PageId) :
    (startCleanup a p h pgs).locks = p ::ₘ (heapPages h + pgs) := by
  simp only [startCleanup]
  split <;> rfl

lemma lockStep_stepSync {a : SyncArgs} {x : SyncPc} (hs : s.stepSync e a x = .ok (s', pc')) :
    LockStep s.lockBits (Pc.sync a x).locks s'.lockBits pc'.locks := by
  cases x with
  | fill cpus h =>
    cases cpus with
    | nil =>
      obtain ⟨rfl, rfl⟩ := Prod.mk.inj (Except.ok.inj hs)
      exact LockStep.of_eq rfl (by simp [Pc.locks])
    | cons cpu cpus =>
      obtain ⟨b, h', hp, rfl⟩ := stepSync_fill_cons hs
      have hl := lockStep_pullOnce hp 0
      rwa [add_zero, add_zero] at hl
  | min h pgs =>
    simp only [stepSync] at hs
    split_ifs at hs with hz hn
    · obtain ⟨rfl, rfl⟩ := Prod.mk.inj (Except.ok.inj hs)
      refine LockStep.of_eq rfl ?_
      simp [Pc.locks, hn, heapPages, BinHeap.elems, hz]
    · obtain ⟨rfl, rfl⟩ := Prod.mk.inj (Except.ok.inj hs)
      exact .keep
    · rcases hd : minHeapDeleteMin h with ⟨hn, h'⟩
      rw [hd] at hs
      obtain ⟨rfl, rfl⟩ := Prod.mk.inj (Except.ok.inj hs)
      refine LockStep.of_eq rfl ?_
      simp only [Pc.locks]
      rw [heapPages_eq_cons hz hd, Multiset.cons_add]
  | pull hn h pgs =>
    obtain ⟨b, h', hp, rfl⟩ := stepSync_pull hs
    have hl := lockStep_pullOnce hp (hn.p ::ₘ pgs)
    rw [Multiset.add_cons, Multiset.add_cons] at hl
    split_ifs
    · exact hl
    · rw [locks_startCleanup]
      exact hl
  | clear p h pgs =>
    obtain ⟨rfl, rfl⟩ := Prod.mk.inj (Except.ok.inj hs)
    exact LockStep.of_eq (lockBits_clearMappings s p) rfl
  | remove p h pgs =>
    obtain ⟨rfl, rfl⟩ := Prod.mk.inj (Except.ok.inj hs)
    exact LockStep.of_eq (lockBits_remove s _ p) rfl
  | enqueue p h pgs =>
    have hpgs : heapPages h + ((pgs ++ [p] : List PageId) : Multiset PageId) =
        p ::ₘ (heapPages h + pgs) := by rw [coe_concat, Multiset.add_cons]
    simp only [stepSync] at hs
    split_ifs at hs
    all_goals
      obtain ⟨rfl, rfl⟩ := Prod.mk.inj (Except.ok.inj hs)
      exact LockStep.of_eq ((lockBits_setDirty _ p false).trans (lockBits_enqueue s _ p)) hpgs
  | write h pgs =>
    obtain ⟨rfl, rfl⟩ := Prod.mk.inj (Except.ok.inj hs)
    exact LockStep.of_eq (lockBits_writePages s a.pvd pgs) rfl
  | unlock h todo =>
    cases todo with
    | nil =>
      obtain ⟨rfl, rfl⟩ := Prod.mk.inj (Except.ok.inj hs)
      exact .keep
    | cons p todo =>
      obtain ⟨rfl, rfl⟩ := Prod.mk.inj (Except.ok.inj hs)
      rw [lockBits_unlockTp]
      refine .give ?_
      simp only [Pc.locks]
      rw [← Multiset.cons_coe, Multiset.add_cons]

/-- A thread takes and gives back the locks it holds, one at a time. -/
lemma lockStep_stepThread {pc : Pc}
    (hf : ∀ r p, pc = .get r (.fresh p) → (s.pages p).inUse = true ∧ (s.pages p).locked = false)
    (hs : s.stepThread e c pc = .ok (s', pc')) :
    LockStep s.lockBits pc.locks s'.lockBits pc'.locks := by
  cases pc with
  | idle => exact absurd hs (by simp [stepThread])
  | get r x => exact lockStep_stepGet (fun p hp => hf r p (by rw [hp])) hs
  | mkwrite r p x => exact lockStep_stepMkwrite hs
  | purge ret x => exact lockStep_stepPurge hs
  | evict x => exact lockStep_stepEvict hs
  | sync a x => exact lockStep_stepSync hs

lemma locks_start {t : Tid} {k : Task} {pc : Pc} (hs : s.start e t k = .ok pc) :
    pc.locks = 0 := by
  rcases start_inv hs with ⟨vma, i, v, -, -, rfl⟩ | ⟨vma, i, v, p, w, -, -, -, rfl⟩ |
    ⟨qid, -, rfl⟩ | ⟨id, -, -, rfl⟩ | ⟨cb, v, -, rfl⟩
  all_goals rfl

end State

namespace Machine

open State

variable {e : Env C} {m m' : Machine C}

lemma locks_put (m : Machine C) (t : Tid) (s' : State C) (pc' : Pc) (log : List (BlockWrite C)) :
    (fun u => ((m.put t s' pc' log).pc u).locks) =
      Function.update (fun u => (m.pc u).locks) t pc'.locks := by
  funext u
  by_cases hu : u = t
  · subst hu
    rw [put_pc_self, Function.update_self]
  · rw [put_pc_of_ne hu, Function.update_of_ne hu]

lemma lockTable_start (h : LockTable m.st.lockBits fun t => (m.pc t).locks) {t : Tid} {k : Task}
    {pc' : Pc} (hidle : m.pc t = .idle) (hs : m.st.start e t k = .ok pc') :
    LockTable m.st.lockBits fun u => ((m.put t m.st pc' m.log).pc u).locks := by
  have hlocks : pc'.locks = (m.pc t).locks := by
    rw [hidle, locks_start hs]
    rfl
  rw [locks_put, hlocks, Function.update_eq_self]
  exact h

end Machine

end FastMap
