import FastMap.PageWaits

/-!
# What goes wrong in a schedule

A page that is in use and not yet read belongs to the fault that has allocated it, so a fault never
spins on the `page_valid` of a page that it has found. With the invariants of the pages, the locks
and the page tables this leaves two ways for a step to go wrong: a fault finds no slot for its
reverse mapping, or its area has no `pve`.
-/

namespace FastMap

variable {C : Type*}

/-- The page that a fault has allocated and not yet read. -/
def Pc.loading : Pc → Option PageId
  | .get _ (.fresh p) => some p
  | .get _ (.insert p) => some p
  | .get _ (.rollback p) => some p
  | .get _ (.enqueue p) => some p
  | .get _ (.io p) => some p
  | _ => none

namespace State

variable {e : Env C} {s s' s'' : State C} {p q : PageId} {pc pc' : Pc}

/-- The page is in use and not valid. -/
def unread (s : State C) (p : PageId) : Bool := (s.pages p).inUse && !(s.pages p).pageValid

/-! ### The pages that are not valid through the page operations -/

lemma unread_of_update {t : TaggedPage C} (hp : s'.pages = Function.update s.pages p t)
    (hu : t.inUse = (s.pages p).inUse) (hv : t.pageValid = (s.pages p).pageValid) :
    s'.unread = s.unread := by
  funext q
  simp only [unread, hp]
  by_cases hq : q = p
  · rw [hq, Function.update_self, hu, hv]
  · rw [Function.update_of_ne hq]

@[simp] lemma unread_trylockTp (s : State C) (p : PageId) (i : Pgoff) :
    (s.trylockTp p i).2.unread = s.unread := by
  simp only [trylockTp]
  split_ifs
  · rfl
  · rfl
  · rfl
  · exact unread_of_update (p := p) rfl rfl rfl

@[simp] lemma unread_unlockTp (s : State C) (p : PageId) : (s.unlockTp p).unread = s.unread :=
  unread_of_update (p := p) rfl rfl rfl

@[simp] lemma unread_remove (s : State C) (q : Queue) (p : PageId) :
    (s.remove q p).unread = s.unread :=
  unread_of_update (p := p) rfl rfl rfl

@[simp] lemma unread_enqueue (s : State C) (q : Queue) (p : PageId) :
    (s.enqueue q p).2.unread = s.unread := by
  simp only [enqueue]
  split_ifs
  · rfl
  · exact unread_of_update (p := p) rfl rfl rfl

@[simp] lemma unread_setDirty (s : State C) (p : PageId) (b : Bool) :
    (s.setDirty p b).unread = s.unread :=
  unread_of_update (p := p) rfl rfl rfl

@[simp] lemma unread_insertPage (s : State C) (p : PageId) (b : Bool) :
    (s.insertPage p b).unread = s.unread := by
  cases b <;> simp [insertPage]

@[simp] lemma unread_treeErase (s : State C) (t : TreeId) (i : Pgoff) :
    (s.treeErase t i).unread = s.unread := rfl

@[simp] lemma unread_treeInsert (s : State C) (k : TreeKind) (v : PvdId) (i : Pgoff)
    (p : PageId) : (s.treeInsert e k v i p).unread = s.unread := rfl

@[simp] lemma unread_removeFromDirtyTree (s : State C) (p : PageId) :
    (s.removeFromDirtyTree e p).unread = s.unread := by
  simp only [removeFromDirtyTree]
  split <;> rfl

@[simp] lemma unread_writePages (s : State C) (v : PvdId) (pgs : List PageId) :
    (s.writePages e v pgs).unread = s.unread := rfl

lemma unread_foldl {α : Type*} {f : State C → α → State C}
    (hf : ∀ s a, (f s a).unread = s.unread) (l : List α) (s : State C) :
    (l.foldl f s).unread = s.unread := by
  induction l generalizing s with
  | nil => rfl
  | cons a l ih => rw [List.foldl_cons, ih, hf]

@[simp] lemma unread_clearMappings (s : State C) (p : PageId) :
    (s.clearMappings p).unread = s.unread := by
  refine unread_foldl (fun s i => ?_) _ s
  dsimp only
  split_ifs
  · simp only [wrprotect]
    split
    · split_ifs <;> rfl
    · rfl
  · rfl

@[simp] lemma unread_removeMappings (s : State C) (p : PageId) :
    (s.removeMappings p).unread = s.unread := by
  refine unread_foldl (fun s i => ?_) _ s
  dsimp only
  split_ifs
  · have hz : ∀ r, (s.zapPage p r).unread = s.unread := by
      intro r
      simp only [zapPage]
      split
      · split_ifs <;> rfl
      · rfl
    rw [← hz ((s.pages p).rmap i)]
    exact unread_of_update (p := p) rfl rfl rfl
  · rfl

@[simp] lemma unread_finishFault (s : State C) (vmf : VmFault) (p : PageId) :
    (s.finishFault vmf p).unread = s.unread := by
  simp only [finishFault, unread_unlockTp]
  split_ifs <;> rfl

@[simp] lemma unread_finishMkwrite (s : State C) (vmf : VmFault) (p : PageId) :
    (s.finishMkwrite vmf p).unread = s.unread := by
  simp only [finishMkwrite, unread_unlockTp]
  split
  · split_ifs <;> rfl
  · rfl

lemma unread_dmapAddOrUpdateRmap {vmf : VmFault} {cpu : ℕ}
    (h : s.dmapAddOrUpdateRmap vmf p cpu = .ok s') : s'.unread = s.unread := by
  simp only [dmapAddOrUpdateRmap] at h
  split at h
  · rw [Except.ok.inj h]
  · split at h
    · exact absurd h (by simp)
    · split at h
      · exact absurd h (by simp)
      · rw [← Except.ok.inj h]
        exact unread_of_update (p := p) rfl rfl rfl

lemma unread_cond {cond : State C → PageId → Bool × State C} {K : State C → PageId → Prop}
    (hc : Locks cond K) (s : State C) (p : PageId) : (cond s p).2.unread = s.unread := by
  rcases hc s p with ht | ⟨ht, -⟩
  · rw [ht]
  · rw [ht]
    exact unread_of_update (p := p) rfl rfl rfl

lemma unread_dequeueIf {cond : State C → PageId → Bool × State C} {K : State C → PageId → Prop}
    (hc : Locks cond K) (s : State C) (q : Queue) : (s.dequeueIf q cond).2.unread = s.unread := by
  simp only [dequeueIf]
  split_ifs
  · rfl
  · split
    · rfl
    · rename_i p _ _
      have h := unread_cond hc s p
      split
      · rename_i heq
        rw [heq] at h
        exact (unread_remove _ q p).trans h
      · rename_i heq
        rw [heq] at h
        exact h

lemma unread_removeIf {cond : State C → PageId → Bool × State C} {K : State C → PageId → Prop}
    (hc : Locks cond K) (s : State C) (q : Queue) (p : PageId) :
    (s.removeIf q p cond).2.unread = s.unread := by
  have h := unread_cond hc s p
  simp only [removeIf]
  split
  · rename_i heq
    rw [heq] at h
    exact (unread_remove _ q p).trans h
  · rename_i heq
    rw [heq] at h
    exact h

lemma unread_pullOnce {v : PvdId} {cpu : ℕ} {h h' : MinHeap} {b : Option Bool}
    (hs : s.pullOnce v cpu h = .ok (b, s', h')) : s'.unread = s.unread := by
  simp only [pullOnce] at hs
  split at hs
  · obtain ⟨-, rfl, -⟩ : _ ∧ s = s' ∧ _ := by simpa using hs
    rfl
  · rename_i k p _
    have ht := unread_trylockTp s p ulongMax
    split at hs
    · rename_i s₁ heq
      rw [heq] at ht
      split at hs
      · exact absurd hs (by simp)
      · obtain ⟨-, rfl, -⟩ : _ ∧ _ = s' ∧ _ := by simpa using hs
        exact ht
    · rename_i s₁ heq
      rw [heq] at ht
      obtain ⟨-, rfl, -⟩ : _ ∧ _ = s' ∧ _ := by simpa using hs
      exact ht

/-- A page that is freed is not in use. -/
lemma unread_freePageLock (h : (s.freePageLock p).unread q = true) :
    q ≠ p ∧ s.unread q = true := by
  by_cases hq : q = p
  · subst hq
    simp [unread, freePageLock, freeLink, unlockTp, freeClear, modifyPage] at h
  · simpa [unread, freePageLock, freeLink, unlockTp, freeClear, modifyPage, hq] using h

/-- A page that has been read is valid. -/
lemma unread_dmapDoPageIo {v : PvdId} {i : Pgoff} {r : ReadResult C}
    (h : (s.dmapDoPageIo v i p r).unread q = true) : q ≠ p ∧ s.unread q = true := by
  have hread : ∀ d, (s.readPage d i p r).unread = s.unread := by
    intro d
    cases r <;> exact unread_of_update (p := p) rfl rfl rfl
  have hfake : (s.readOrFake v i p r).unread = s.unread := by
    simp only [readOrFake]
    split
    · split_ifs
      · exact hread _
      · rfl
    · exact hread _
  have hq : q ≠ p := by
    rintro rfl
    simp [unread, dmapDoPageIo, modifyPage] at h
  refine ⟨hq, ?_⟩
  simp only [dmapDoPageIo] at h
  split_ifs at h
  · simpa [unread, modifyPage, hq] using h
  · rw [← hfake]
    simpa [unread, modifyPage, hq] using h

/-- A page that is handed out is the only one that may have become unread. -/
lemma unread_allocPageLock {node : ℕ} {i : Pgoff} {v : PvdId}
    (h : (s.allocPageLock e node i v).2.unread q = true) :
    s.unread q = true ∨ (s.allocPageLock e node i v).1 = some q := by
  have hscan : (s.scanNodes e (e.numaDv node) none).2.unread = s.unread :=
    scanNodes_rule (R := fun s s' => s'.unread = s.unread) (fun _ => rfl)
      (fun h h' => h'.trans h) (fun _ _ p _ => unread_of_update (p := p) rfl rfl rfl) e s _ _
  simp only [allocPageLock] at h ⊢
  split at h
  · rename_i s₁ heq
    rw [heq] at hscan
    exact Or.inl (by rwa [← hscan])
  · rename_i p s₁ heq
    rw [heq] at hscan
    by_cases hq : q = p
    · exact Or.inr (by rw [hq])
    · refine Or.inl ?_
      rw [← hscan]
      simpa [unread, modifyPage, hq] using h

/-! ### Who reads a page -/

/-- An unread page stays with the fault that has allocated it. -/
structure LoadsFor (s : State C) (pc : Pc) (s' : State C) (pc' : Pc) : Prop where
  unread {q : PageId} : s'.unread q = true → s.unread q = true ∨ pc'.loading = some q
  loading {q : PageId} : pc.loading = some q → s'.unread q = true → pc'.loading = some q

lemma loads_of_eq (hu : s'.unread = s.unread) (hl : pc.loading = none ∨ pc'.loading = pc.loading) :
    LoadsFor s pc s' pc' where
  unread h := Or.inl (by rwa [← hu])
  loading h _ := by
    rcases hl with hl | hl
    · rw [hl] at h
      simp at h
    · rwa [hl]

lemma loads_stepGet {c : Choice C} {r : Req} {x : GetPc}
    (hs : s.stepGet e c r x = .ok (s', pc')) : LoadsFor s (.get r x) s' pc' := by
  cases x with
  | lookup =>
    simp only [stepGet] at hs
    split at hs
    all_goals
      obtain ⟨rfl, rfl⟩ := Prod.mk.inj (Except.ok.inj hs)
      exact loads_of_eq rfl (Or.inl rfl)
  | alloc =>
    have ha : ∀ q, (s.allocPageLock e c.node r.vmf.pgoff r.pvd).2.unread q = true →
        s.unread q = true ∨ (s.allocPageLock e c.node r.vmf.pgoff r.pvd).1 = some q :=
      fun q => unread_allocPageLock
    simp only [stepGet] at hs
    split at hs
    all_goals
      rename_i heq
      rw [heq] at ha
      obtain ⟨rfl, rfl⟩ := Prod.mk.inj (Except.ok.inj hs)
    · exact ⟨fun hq => Or.inl ((ha _ hq).resolve_right (by simp)),
        fun h => by simp [Pc.loading] at h⟩
    · exact ⟨fun hq => (ha _ hq).imp_right id, fun h => by simp [Pc.loading] at h⟩
  | fresh p =>
    obtain ⟨rfl, rfl⟩ := Prod.mk.inj (Except.ok.inj hs)
    exact loads_of_eq (unread_trylockTp _ _ _) (Or.inr rfl)
  | insert p =>
    simp only [stepGet, fmapRadixInsert] at hs
    split at hs
    all_goals
      rename_i heq
      obtain ⟨-, rfl⟩ := Prod.mk.inj heq
      obtain ⟨rfl, rfl⟩ := Prod.mk.inj (Except.ok.inj hs)
      exact loads_of_eq rfl (Or.inr rfl)
  | rollback p =>
    obtain ⟨rfl, rfl⟩ := Prod.mk.inj (Except.ok.inj hs)
    refine ⟨fun hq => Or.inl (unread_freePageLock hq).2, fun {q} h hq => ?_⟩
    exact absurd (Option.some.inj h).symm (unread_freePageLock hq).1
  | enqueue p =>
    obtain ⟨rfl, rfl⟩ := Prod.mk.inj (Except.ok.inj hs)
    exact loads_of_eq (unread_insertPage _ _ _) (Or.inr rfl)
  | io p =>
    obtain ⟨rfl, rfl⟩ := Prod.mk.inj (Except.ok.inj hs)
    refine ⟨fun hq => Or.inl (unread_dmapDoPageIo hq).2, fun {q} h hq => ?_⟩
    exact absurd (Option.some.inj h).symm (unread_dmapDoPageIo hq).1
  | lock p =>
    have hl := unread_trylockTp s p ulongMax
    simp only [stepGet] at hs
    split at hs
    all_goals
      rename_i heq
      rw [heq] at hl
      obtain ⟨rfl, rfl⟩ := Prod.mk.inj (Except.ok.inj hs)
      exact loads_of_eq hl (Or.inl rfl)
  | valid p =>
    simp only [stepGet] at hs
    split_ifs at hs
    obtain ⟨rfl, rfl⟩ := Prod.mk.inj (Except.ok.inj hs)
    exact loads_of_eq rfl (Or.inl rfl)
  | done p =>
    simp only [stepGet] at hs
    obtain ⟨s₁, hr, hs⟩ := Except.map_eq_ok.mp hs
    obtain ⟨rfl, rfl⟩ := Prod.mk.inj hs
    exact loads_of_eq (unread_dmapAddOrUpdateRmap hr) (Or.inl rfl)
  | map p =>
    obtain ⟨rfl, rfl⟩ := Prod.mk.inj (Except.ok.inj hs)
    exact loads_of_eq (unread_finishFault _ _ _) (Or.inl rfl)

lemma unread_stepMkwrite {r : Req} {p : PageId} {x : MkPc}
    (hs : s.stepMkwrite e r p x = .ok (s', pc')) : s'.unread = s.unread := by
  cases x with
  | lock =>
    have hl := unread_trylockTp s p r.vmf.pgoff
    simp only [stepMkwrite] at hs
    split at hs
    all_goals
      rename_i heq
      rw [heq] at hl
      rwa [← (Prod.mk.inj (Except.ok.inj hs)).1]
  | dirty =>
    simp only [stepMkwrite] at hs
    split_ifs at hs
    all_goals
      obtain ⟨rfl, rfl⟩ := Prod.mk.inj (Except.ok.inj hs)
      simp
  | insert | remove | enqueue | map =>
    obtain ⟨rfl, rfl⟩ := Prod.mk.inj (Except.ok.inj hs)
    simp

lemma unread_stepPurge {ret : Option Req} {x : PurgePc}
    (hs : s.stepPurge e ret x = .ok (s', pc')) (hq : s'.unread q = true) : s.unread q = true := by
  cases x with
  | take qid n pgs =>
    cases n with
    | zero => rwa [← (Prod.mk.inj (Except.ok.inj hs)).1] at hq
    | succ n =>
      have hd := unread_dequeueIf locks_deq s (.clean qid)
      simp only [stepPurge] at hs
      split at hs
      all_goals
        rename_i heq
        rw [heq] at hd
        rw [← (Prod.mk.inj (Except.ok.inj hs)).1] at hq
        rwa [← hd]
  | delete qid n pgs p =>
    simp only [stepPurge] at hs
    split at hs
    · exact absurd hs (by simp)
    · rwa [← (Prod.mk.inj (Except.ok.inj hs)).1] at hq
  | unmap qid n pgs p =>
    rwa [← (Prod.mk.inj (Except.ok.inj hs)).1, unread_removeMappings] at hq
  | free pgs =>
    cases pgs with
    | nil => rwa [← (Prod.mk.inj (Except.ok.inj hs)).1] at hq
    | cons p pgs =>
      rw [← (Prod.mk.inj (Except.ok.inj hs)).1] at hq
      exact (unread_freePageLock hq).2

lemma unread_stepEvict {x : EvictPc} (hs : s.stepEvict e x = .ok (s', pc')) :
    s'.unread = s.unread := by
  cases x with
  | take id =>
    have hd := unread_dequeueIf locks_evDeq s (.dirty id)
    simp only [stepEvict] at hs
    split at hs
    all_goals
      rename_i heq
      rw [heq] at hd
      rwa [← (Prod.mk.inj (Except.ok.inj hs)).1]
  | untree id p =>
    simp only [stepEvict] at hs
    split at hs
    · exact absurd hs (by simp)
    · obtain ⟨rfl, rfl⟩ := Prod.mk.inj (Except.ok.inj hs)
      simp
  | scan c =>
    simp only [stepEvict] at hs
    split_ifs at hs
    · rw [← (Prod.mk.inj (Except.ok.inj hs)).1]
    · split at hs
      all_goals
        obtain ⟨rfl, rfl⟩ := Prod.mk.inj (Except.ok.inj hs)
        rfl
  | grab c q =>
    have hd := unread_removeIf locks_evDeq s (.dirty c.id) q
    simp only [stepEvict] at hs
    split at hs
    all_goals
      rename_i heq
      rw [heq] at hd
      rwa [← (Prod.mk.inj (Except.ok.inj hs)).1]
  | clear v pgs =>
    obtain ⟨rfl, rfl⟩ := Prod.mk.inj (Except.ok.inj hs)
    exact unread_foldl unread_clearMappings pgs s
  | insert v done todo =>
    cases todo
    all_goals
      obtain ⟨rfl, rfl⟩ := Prod.mk.inj (Except.ok.inj hs)
      simp
  | unlock todo =>
    cases todo
    all_goals
      obtain ⟨rfl, rfl⟩ := Prod.mk.inj (Except.ok.inj hs)
      simp
  | back c q | write v pgs =>
    obtain ⟨rfl, rfl⟩ := Prod.mk.inj (Except.ok.inj hs)
    rfl

lemma unread_stepSync {a : SyncArgs} {x : SyncPc} (hs : s.stepSync e a x = .ok (s', pc')) :
    s'.unread = s.unread := by
  cases x with
  | fill cpus h =>
    cases cpus with
    | nil => rw [← (Prod.mk.inj (Except.ok.inj hs)).1]
    | cons cpu cpus =>
      obtain ⟨b, h', hpull, -⟩ := stepSync_fill_cons hs
      exact unread_pullOnce hpull
  | min h pgs =>
    simp only [stepSync] at hs
    split_ifs at hs
    all_goals rw [← (Prod.mk.inj (Except.ok.inj hs)).1]
  | pull n h pgs =>
    obtain ⟨b, h', hpull, -⟩ := stepSync_pull hs
    exact unread_pullOnce hpull
  | enqueue p h pgs =>
    simp only [stepSync] at hs
    split_ifs at hs
    all_goals
      obtain ⟨rfl, rfl⟩ := Prod.mk.inj (Except.ok.inj hs)
      simp
  | unlock h todo =>
    cases todo
    all_goals
      obtain ⟨rfl, rfl⟩ := Prod.mk.inj (Except.ok.inj hs)
      simp
  | clear p h pgs | remove p h pgs | write h pgs =>
    obtain ⟨rfl, rfl⟩ := Prod.mk.inj (Except.ok.inj hs)
    simp

lemma loads_stepThread {c : Choice C} (hs : s.stepThread e c pc = .ok (s', pc')) :
    LoadsFor s pc s' pc' := by
  cases pc with
  | idle => exact absurd hs (by simp [stepThread])
  | get r x => exact loads_stepGet hs
  | mkwrite r p x => exact loads_of_eq (unread_stepMkwrite hs) (Or.inl rfl)
  | purge ret x =>
    exact ⟨fun hq => Or.inl (unread_stepPurge hs hq), fun h => by simp [Pc.loading] at h⟩
  | evict x => exact loads_of_eq (unread_stepEvict hs) (Or.inl rfl)
  | sync a x => exact loads_of_eq (unread_stepSync hs) (Or.inl rfl)

end State

/-! ### The heap of `write_dirty_pages` -/

/-- The heap has at most one page for each tree that it has looked at. -/
def Pc.HeapFits (n : ℕ) : Pc → Prop
  | .sync _ (.fill cpus h) => h.size + cpus.length ≤ n
  | .sync _ (.min h _) => h.size ≤ n
  | .sync _ (.pull _ h _) => h.size + 1 ≤ n
  | .sync _ (.clear _ h _) => h.size ≤ n
  | .sync _ (.remove _ h _) => h.size ≤ n
  | .sync _ (.enqueue _ h _) => h.size ≤ n
  | .sync _ (.write h _) => h.size ≤ n
  | .sync _ (.unlock h _) => h.size ≤ n
  | _ => True

namespace State

variable {e : Env C} {s s' : State C} {pc pc' : Pc}

lemma size_minHeapInsert {h h' : MinHeap} {n : HeapNode} (hi : minHeapInsert h n = .ok h') :
    h'.size = h.size + 1 := by
  simp only [minHeapInsert] at hi
  split_ifs at hi
  obtain rfl := Except.ok.inj hi
  rfl

lemma size_pullOnce {v : PvdId} {cpu : ℕ} {h h' : MinHeap} {b : Option Bool}
    (hs : s.pullOnce v cpu h = .ok (b, s', h')) :
    h'.size ≤ h.size + 1 ∧ (b = some false → h' = h) := by
  simp only [pullOnce] at hs
  split at hs
  · obtain ⟨rfl, -, rfl⟩ : none = b ∧ _ ∧ h = h' := by simpa using hs
    exact ⟨Nat.le_succ _, by simp⟩
  · split at hs
    · split at hs
      · exact absurd hs (by simp)
      · rename_i hi
        obtain ⟨rfl, -, rfl⟩ : some true = b ∧ _ ∧ _ = h' := by simpa using hs
        exact ⟨(size_minHeapInsert hi).le, by simp⟩
    · obtain ⟨-, -, rfl⟩ : _ ∧ _ ∧ h = h' := by simpa using hs
      exact ⟨Nat.le_succ _, fun _ => rfl⟩

lemma heapFits_startCleanup {k : ℕ} (a : SyncArgs) (p : PageId) {h : MinHeap} (pgs : List PageId)
    (hk : h.size ≤ k) : (startCleanup a p h pgs).HeapFits k := by
  unfold startCleanup
  split <;> exact hk

lemma heapFits_stepSync {k : ℕ} {a : SyncArgs} {x : SyncPc} (hk : (Pc.sync a x).HeapFits k)
    (hs : s.stepSync e a x = .ok (s', pc')) : pc'.HeapFits k := by
  cases x with
  | fill cpus h =>
    cases cpus with
    | nil =>
      obtain ⟨-, rfl⟩ := Prod.mk.inj (Except.ok.inj hs)
      exact hk
    | cons cpu cpus =>
      obtain ⟨b, h', hpull, rfl⟩ := stepSync_fill_cons hs
      obtain ⟨hle, hsame⟩ := size_pullOnce hpull
      simp only [Pc.HeapFits, List.length_cons] at hk ⊢
      split_ifs with hb
      · rw [hsame hb]
        exact hk
      · omega
  | min h pgs =>
    simp only [stepSync] at hs
    split_ifs at hs with h0
    · obtain ⟨-, rfl⟩ := Prod.mk.inj (Except.ok.inj hs)
      trivial
    · obtain ⟨-, rfl⟩ := Prod.mk.inj (Except.ok.inj hs)
      exact hk
    · obtain ⟨-, rfl⟩ := Prod.mk.inj (Except.ok.inj hs)
      simp only [Pc.HeapFits, minHeapDeleteMin, BinHeap.size_deleteMin] at hk ⊢
      omega
  | pull n h pgs =>
    obtain ⟨b, h', hpull, rfl⟩ := stepSync_pull hs
    obtain ⟨hle, hsame⟩ := size_pullOnce hpull
    split_ifs with hb
    · rw [hsame hb]
      exact hk
    · exact heapFits_startCleanup a n.p pgs (hle.trans hk)
  | enqueue p h pgs =>
    simp only [stepSync] at hs
    split_ifs at hs
    all_goals
      obtain ⟨-, rfl⟩ := Prod.mk.inj (Except.ok.inj hs)
      exact hk
  | unlock h todo =>
    cases todo
    all_goals
      obtain ⟨-, rfl⟩ := Prod.mk.inj (Except.ok.inj hs)
      exact hk
  | clear p h pgs | remove p h pgs | write h pgs =>
    obtain ⟨-, rfl⟩ := Prod.mk.inj (Except.ok.inj hs)
    exact hk

lemma heapFits_stepThread {k : ℕ} {c : Choice C} (hk : pc.HeapFits k)
    (hs : s.stepThread e c pc = .ok (s', pc')) : pc'.HeapFits k := by
  by_cases hsync : pc.Syncs
  · obtain ⟨a, x, rfl⟩ := hsync
    exact heapFits_stepSync hk hs
  · have hsync' := not_syncs_stepThread hs hsync
    cases pc' with
    | sync a x => exact absurd ⟨a, x, rfl⟩ hsync'
    | _ => trivial

lemma heapFits_start {t : Tid} {k : Task} (hs : s.start e t k = .ok pc) :
    pc.HeapFits e.ncpus := by
  rcases start_inv hs with ⟨vma, i, v, -, -, rfl⟩ | ⟨vma, i, v, p, w, -, -, -, rfl⟩ |
    ⟨qid, -, rfl⟩ | ⟨id, -, -, rfl⟩ | ⟨cb, v, -, rfl⟩
  case inr.inr.inr.inr => simp [Pc.HeapFits, minHeapCreate]
  all_goals trivial

/-! ### The steps that go wrong -/

/-- There is room in the heap for the first page of a tree. -/
lemma pullOnce_ne_error {v : PvdId} {cpu : ℕ} {h : MinHeap} (hh : h.size < maxCpus) (x : Halt) :
    s.pullOnce v cpu h ≠ .error x := by
  intro hx
  simp only [pullOnce] at hx
  split at hx
  · simp at hx
  · split at hx
    · rw [minHeapInsert, if_neg (by omega)] at hx
      simp at hx
    · simp at hx

lemma stepSync_ne_error {a : SyncArgs} {y : SyncPc} (hk : (Pc.sync a y).HeapFits maxCpus)
    (x : Halt) : s.stepSync e a y ≠ .error x := by
  intro hx
  cases y with
  | fill cpus h =>
    cases cpus with
    | nil => simp [stepSync] at hx
    | cons cpu cpus =>
      simp only [stepSync] at hx
      split at hx
      · rename_i heq
        exact pullOnce_ne_error (by simp only [Pc.HeapFits, List.length_cons] at hk; omega) _ heq
      all_goals simp at hx
  | min h pgs =>
    simp only [stepSync] at hx
    split_ifs at hx
  | pull n h pgs =>
    simp only [stepSync] at hx
    split at hx
    · rename_i heq
      exact pullOnce_ne_error hk _ heq
    all_goals simp at hx
  | enqueue p h pgs =>
    simp only [stepSync] at hx
    split_ifs at hx
  | unlock h todo => cases todo <;> simp [stepSync] at hx
  | clear p h pgs | remove p h pgs | write h pgs => simp [stepSync] at hx

end State

namespace Machine

open State

variable {e : Env C} {s₀ : State C} {m m' : Machine C} {t : Tid} {p : PageId}
  {ls : List (Tid × Act C)} {l : Tid × Act C}

/-- An unread page is in the hands of the fault that will read it, and the heaps have room. -/
structure Loading (e : Env C) (m : Machine C) : Prop where
  unread {p : PageId} : m.st.unread p = true → ∃ t, (m.pc t).loading = some p
  heap (t : Tid) : (m.pc t).HeapFits e.ncpus

lemma loading_quiescent (h : ∀ p, s₀.unread p = false) : Loading e (quiescent s₀) where
  unread {p} hp := absurd ((h p).symm.trans hp) Bool.false_ne_true
  heap _ := trivial

lemma Loading.put (h : Loading e m) {s' : State C} {pc' : Pc} {log : List (BlockWrite C)}
    (hl : LoadsFor m.st (m.pc t) s' pc') (hk : pc'.HeapFits e.ncpus) :
    Loading e (m.put t s' pc' log) where
  unread {p} hp := by
    rcases hl.unread hp with hp' | hp'
    · obtain ⟨u, hu⟩ := h.unread hp'
      by_cases hut : u = t
      · subst hut
        exact ⟨u, by rw [put_pc_self]; exact hl.loading hu hp⟩
      · exact ⟨u, by rwa [put_pc_of_ne hut]⟩
    · exact ⟨t, by rwa [put_pc_self]⟩
  heap u := by
    by_cases hut : u = t
    · subst hut
      rwa [put_pc_self]
    · rw [put_pc_of_ne hut]
      exact h.heap u

lemma Loading.step (h : Loading e m) (hs : Steps e m l m') : Loading e m' := by
  rcases steps_cases hs with ⟨k, pc', -, hidle, hk, rfl⟩ | ⟨c, s', pc', -, hk, rfl⟩
  · exact h.put (loads_of_eq rfl (Or.inl (by rw [hidle]; rfl))) (heapFits_start hk)
  · exact h.put (loads_stepThread hk) (heapFits_stepThread (h.heap l.1) hk)

lemma holds_of_loading {pc : Pc} (h : pc.loading = some p) : pc.Holds p := by
  unfold Pc.loading at h
  split at h
  case h_1 => exact Or.inr h
  case h_6 => simp at h
  all_goals
    obtain rfl := Option.some.inj h
    exact Or.inl (by simp [Pc.locks])

/-- A page that another call has locked is valid. -/
lemma Sound.valid_of_locks (h : Sound e m) (hl : Loading e m) (hp : p ∈ (m.pc t).locks)
    (ht : (m.pc t).loading = none) : (m.st.pages p).pageValid = true := by
  by_contra hv
  have hu : m.st.unread p = true := by
    simpa [State.unread, h.inv.inUse_of_holds (Or.inl hp)] using hv
  obtain ⟨u, hu⟩ := hl.unread hu
  obtain rfl := h.inv.exclusive (holds_of_loading hu) (Or.inl hp)
  rw [ht] at hu
  simp at hu

/-- A page of the radix tree belongs to a file. -/
lemma pvd_ne_none {s : State C} (hr : (s.view e p).tree .rdx = true) : (s.pages p).pvd ≠ none := by
  obtain ⟨v, hv, -⟩ := view_tree.mp hr
  rw [hv]
  simp

/-- What a step of a call goes wrong at. -/
lemma Sound.error_cases (h : Sound e m) (hl : Loading e m) (hn : e.ncpus ≤ maxCpus)
    (ht : m.pc t ≠ .idle) {c : Choice C} {x : Halt}
    (hx : m.st.stepThread e c (m.pc t) = .error x) :
    ∃ r p, m.pc t = .get r (.done p) ∧ m.st.dmapAddOrUpdateRmap r.vmf p c.cpu = .error x := by
  -- a page that the thread holds is at the stage that its program point says
  have hat : ∀ p, p ∈ (m.pc t).locks → At e p (m.Moved p) ((m.pc t).stage p) (m.st.view e p) :=
    fun p hp => ((h.inv.page p).held (Or.inl hp)).1
  have hvalid : ∀ p, p ∈ (m.pc t).locks → (m.pc t).loading = none →
      (m.st.pages p).pageValid = true := fun p hp hno => h.valid_of_locks hl hp hno
  have hheap := hl.heap t
  cases hpc : m.pc t with
  | idle => exact absurd hpc ht
  | get r y =>
    rw [hpc] at hx hvalid
    cases y with
    | lookup | alloc | insert p | lock p =>
      simp only [stepThread, stepGet] at hx
      split at hx <;> simp at hx
    | valid p =>
      simp only [stepThread, stepGet] at hx
      rw [if_pos (hvalid p (by simp [Pc.locks]) rfl)] at hx
      simp at hx
    | done p =>
      refine ⟨r, p, rfl, ?_⟩
      simp only [stepThread, stepGet] at hx
      cases hr : m.st.dmapAddOrUpdateRmap r.vmf p c.cpu with
      | error z =>
        rw [hr] at hx
        simpa [Except.map] using hx
      | ok s₁ =>
        rw [hr] at hx
        simp [Except.map] at hx
    | fresh p | rollback p | enqueue p | io p | map p => simp [stepThread, stepGet] at hx
  | mkwrite r p y =>
    rw [hpc] at hx hat
    cases y with
    | lock =>
      simp only [stepThread, stepMkwrite] at hx
      split at hx <;> simp at hx
    | dirty =>
      simp only [stepThread, stepMkwrite] at hx
      split_ifs at hx with hd hb
      have hclean := (hat p (by simp [Pc.locks])).bufferId
      rw [view_page] at hclean
      rw [Bool.not_eq_true] at hd
      simp [Pc.stage, hd, Links.bufferId] at hclean
      exact absurd hclean hb
    | insert | remove | enqueue | map => simp [stepThread, stepMkwrite] at hx
  | purge ret y =>
    rw [hpc] at hx hat
    cases y with
    | take qid n pgs =>
      cases n with
      | zero => simp [stepThread, stepPurge] at hx
      | succ n =>
        simp only [stepThread, stepPurge] at hx
        split at hx <;> simp at hx
    | delete qid n pgs p =>
      have hrdx := (hat p (by simp [Pc.locks])).rdx
      simp only [Pc.stage, if_true] at hrdx
      simp only [stepThread, stepPurge] at hx
      split at hx
      · rename_i hnone
        exact absurd hnone (pvd_ne_none (by simpa using hrdx))
      · simp at hx
    | unmap qid n pgs p => simp [stepThread, stepPurge] at hx
    | free pgs => cases pgs <;> simp [stepThread, stepPurge] at hx
  | evict y =>
    rw [hpc] at hx hat
    cases y with
    | take id =>
      simp only [stepThread, stepEvict] at hx
      split at hx <;> simp at hx
    | untree id p =>
      have hrdx := (hat p (by simp [Pc.locks])).rdx
      simp only [stepThread, stepEvict] at hx
      split at hx
      · rename_i hnone
        exact absurd hnone (pvd_ne_none (by simpa [Pc.stage] using hrdx))
      · simp at hx
    | scan d =>
      simp only [stepThread, stepEvict] at hx
      split_ifs at hx
      split at hx <;> simp at hx
    | grab d q =>
      simp only [stepThread, stepEvict] at hx
      split at hx <;> simp at hx
    | insert v done todo => cases todo <;> simp [stepThread, stepEvict] at hx
    | unlock todo => cases todo <;> simp [stepThread, stepEvict] at hx
    | back d q | clear v pgs | write v pgs => simp [stepThread, stepEvict] at hx
  | sync a y =>
    rw [hpc] at hx hheap
    have hfits : (Pc.sync a y).HeapFits maxCpus := by
      cases y <;> exact hheap.trans hn
    exact absurd hx (stepSync_ne_error hfits x)

end Machine

end FastMap
