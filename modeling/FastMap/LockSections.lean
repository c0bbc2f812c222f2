import FastMap.SpinLocks
import FastMap.Schedules

/-!
# The locks of the steps

The steps of `Threads` are the sections that `SpinLocks` lists for the calls. `State.sections` gives
each step its operations on locks, with what the step finds in the state. The locks guard what the
steps change: whatever differs after a step is guarded by a lock that the step has taken. The last
steps of a fault are the kernel's, which has locks of its own.
-/

namespace FastMap

variable {C : Type*}

open LockOp LockOps

namespace State

/-! ### What the locks guard -/

/-- Two states agree on what a lock guards. The entries of a page table `i` are those that `ptl`
sends to `i`. -/
def Agrees (ptl : VmaId × ℕ → ℕ) (s s' : State C) : Lock → Prop
  | .fifoLock q => s'.queues q = s.queues q
  | .treeLock t => s'.trees t = s.trees t
  | .flLock cpu => s'.fl cpu = s.fl cpu
  | .tpLockGuard p => (s'.pages p).locked = (s.pages p).locked ∧
      (s'.pages p).inUse = (s.pages p).inUse
  -- the slots of a page that is not in use are reset by whoever allocates or frees it
  | .rmapLock p => (s.pages p).inUse = true → (s'.pages p).inUse = true →
      (s'.pages p).rmap = (s.pages p).rmap
  | .ptl i => ∀ a, ptl a = i → s'.pte a = s.pte a
  -- no slot joins the list; which list a slot leaves is not in the state
  | .pcpuMappedLock x cpu => ((s'.pves x).pcpuMapped cpu).Sublist ((s.pves x).pcpuMapped cpu)
  | _ => True

/-- Whatever differs between two states is guarded by a lock that the operations take. -/
def Guarded (ptl : VmaId × ℕ → ℕ) (ops : LockOps) (s s' : State C) : Prop :=
  ∀ l, l ∉ taken ops → s.Agrees ptl s' l

variable {ptl : VmaId × ℕ → ℕ} {ops ops' : LockOps} {e : Env C} {s s' s'' : State C} {p : PageId}
  {q : Queue}

lemma agrees_refl (s : State C) (l : Lock) : s.Agrees ptl s l := by
  cases l <;> simp [Agrees]

lemma guarded_refl (s : State C) : Guarded ptl ops s s := fun l _ => agrees_refl s l

/-- What no lock guards may change. -/
lemma guarded_of_eq (hp : s'.pages = s.pages) (hq : s'.queues = s.queues)
    (ht : s'.trees = s.trees) (hf : s'.fl = s.fl) (hm : s'.pte = s.pte) (hv : s'.pves = s.pves) :
    Guarded ptl ops s s' := by
  intro l _
  cases l <;> simp [Agrees, hp, hq, ht, hf, hm, hv]

lemma Guarded.mono (h : Guarded ptl ops s s') (ho : ∀ l ∈ taken ops, l ∈ taken ops') :
    Guarded ptl ops' s s' :=
  fun l hl => h l fun hl' => hl (ho l hl')

/-- Two operations one after the other. A page that is in use before and after them is in use in
between. -/
lemma Guarded.trans (h : Guarded ptl ops s s')
    (hu : ∀ p, (s.pages p).inUse = true → (s''.pages p).inUse = true → (s'.pages p).inUse = true)
    (h' : Guarded ptl ops s' s'') : Guarded ptl ops s s'' := by
  intro l hl
  have h₁ := h l hl
  have h₂ := h' l hl
  cases l with
  | tpLockGuard p => exact ⟨h₂.1.trans h₁.1, h₂.2.trans h₁.2⟩
  | rmapLock p =>
    intro hp hp'
    exact (h₂ (hu p hp hp') hp').trans (h₁ hp (hu p hp hp'))
  | ptl i => exact fun a ha => (h₂ a ha).trans (h₁ a ha)
  | pcpuMappedLock x cpu => exact List.Sublist.trans h₂ h₁
  | fifoLock _ | treeLock _ | flLock _ => exact Eq.trans h₂ h₁
  | rawMutex | mmapSem _ | bufferLock | inoPvdLock => trivial

/-! ### The parts of the state -/

lemma guarded_queues {f : Queue → Fifo} (h : ∀ l, .fifoLock l ∉ taken ops → f l = s.queues l) :
    Guarded ptl ops s { s with queues := f } := by
  intro l hl
  cases l with
  | fifoLock q => exact h q hl
  | _ => simp [Agrees]

lemma guarded_trees {f : TreeId → KeyMap Pgoff PageId}
    (h : ∀ t, .treeLock t ∉ taken ops → f t = s.trees t) :
    Guarded ptl ops s { s with trees := f } := by
  intro l hl
  cases l with
  | treeLock t => exact h t hl
  | _ => simp [Agrees]

lemma guarded_fl {f : ℕ → List PageId} (h : ∀ cpu, .flLock cpu ∉ taken ops → f cpu = s.fl cpu) :
    Guarded ptl ops s { s with fl := f } := by
  intro l hl
  cases l with
  | flLock cpu => exact h cpu hl
  | _ => simp [Agrees]

lemma guarded_pte {f : VmaId × ℕ → Pte} (h : ∀ a, .ptl (ptl a) ∉ taken ops → f a = s.pte a) :
    Guarded ptl ops s { s with pte := f } := by
  intro l hl
  cases l with
  | ptl i => exact fun a ha => h a (by rw [ha]; exact hl)
  | _ => simp [Agrees]

/-- Assignment to fields of one page. -/
lemma guarded_modifyPage {f : TaggedPage C → TaggedPage C}
    (hl : .tpLockGuard p ∉ taken ops → (f (s.pages p)).locked = (s.pages p).locked ∧
      (f (s.pages p)).inUse = (s.pages p).inUse)
    (hr : .rmapLock p ∉ taken ops → (s.pages p).inUse = true → (f (s.pages p)).inUse = true →
      (f (s.pages p)).rmap = (s.pages p).rmap) : Guarded ptl ops s (s.modifyPage p f) := by
  intro l hmem
  cases l with
  | tpLockGuard q =>
    by_cases hq : q = p
    · subst hq
      simpa [Agrees, modifyPage] using hl hmem
    · simp [Agrees, modifyPage, hq]
  | rmapLock q =>
    by_cases hq : q = p
    · subst hq
      simpa [Agrees, modifyPage] using hr hmem
    · simp [Agrees, modifyPage, hq]
  | _ => simp [Agrees, modifyPage]

/-- Assignment to fields that no lock of the driver guards. -/
lemma guarded_field {f : TaggedPage C → TaggedPage C}
    (hl : (f (s.pages p)).locked = (s.pages p).locked)
    (hu : (f (s.pages p)).inUse = (s.pages p).inUse)
    (hr : (f (s.pages p)).rmap = (s.pages p).rmap) : Guarded ptl ops s (s.modifyPage p f) :=
  guarded_modifyPage (fun _ => ⟨hl, hu⟩) fun _ _ _ => hr

lemma inUse_modifyPage {f : TaggedPage C → TaggedPage C}
    (hu : (f (s.pages p)).inUse = (s.pages p).inUse) (q : PageId) :
    ((s.modifyPage p f).pages q).inUse = (s.pages q).inUse := by
  by_cases hq : q = p
  · subst hq
    simpa [modifyPage] using hu
  · simp [modifyPage, hq]

/-- The last of several operations is an assignment that leaves `in_use` alone. -/
lemma Guarded.field {f : TaggedPage C → TaggedPage C} (h : Guarded ptl ops s s')
    (hl : (f (s'.pages p)).locked = (s'.pages p).locked)
    (hu : (f (s'.pages p)).inUse = (s'.pages p).inUse)
    (hr : (f (s'.pages p)).rmap = (s'.pages p).rmap) : Guarded ptl ops s (s'.modifyPage p f) :=
  h.trans (fun q _ hq => by rwa [inUse_modifyPage hu] at hq) (guarded_field hl hu hr)

/-! ### Page locks -/

lemma guarded_lock (hp : .tpLockGuard p ∈ taken ops) (b : Bool) :
    Guarded ptl ops s (s.modifyPage p fun t => { t with locked := b }) :=
  guarded_modifyPage (fun hn => absurd hp hn) fun _ _ _ => rfl

variable (ptl) in
lemma guarded_trylockTp (s : State C) (p : PageId) (i : Pgoff) :
    Guarded ptl (LockOps.trylockTp p) s (s.trylockTp p i).2 := by
  rcases s.trylockTp_cases p i with ⟨r, -, h⟩ | ⟨-, -, -, h⟩
  · rw [h]
    exact guarded_refl s
  · rw [h]
    exact guarded_lock (by simp [LockOps.trylockTp]) true

lemma guarded_unlockTp (s : State C) (p : PageId) :
    Guarded ptl (LockOps.unlockTp p) s (s.unlockTp p) :=
  guarded_lock (by simp [LockOps.unlockTp]) false

/-! ### Queues -/

lemma guarded_modifyQueue (hq : .fifoLock q ∈ taken ops) (f : Fifo → Fifo) :
    Guarded ptl ops s (s.modifyQueue q f) := by
  apply guarded_queues
  intro l hl
  rw [Function.update_of_ne]
  rintro rfl
  exact hl hq

/-- A page leaves its queue. -/
lemma Placed.guarded_listDelInit (h : s.Placed e) (hq : .fifoLock q ∈ taken ops)
    (hp : p ∈ (s.queues q).buffer) : Guarded ptl ops s (s.listDelInit p) := by
  apply guarded_queues
  intro l hl
  have hno : p ∉ (s.queues l).buffer := by
    intro hp'
    rw [h.queue_one hp hp'] at hq
    exact hl hq
  rw [List.erase_of_not_mem hno]

lemma Placed.guarded_remove (h : s.Placed e) (hq : .fifoLock q ∈ taken ops)
    (hp : p ∈ (s.queues q).buffer) : Guarded ptl ops s (s.remove q p) :=
  Guarded.field (f := fun t => { t with bufferId := .biNone })
    ((h.guarded_listDelInit hq hp).trans (fun _ hu _ => hu) (guarded_modifyQueue hq _)) rfl rfl rfl

lemma guarded_enqueue (hq : .fifoLock q ∈ taken ops) :
    Guarded ptl ops s (s.enqueue q p).2 := by
  simp only [enqueue]
  split_ifs
  · exact guarded_of_eq rfl rfl rfl rfl rfl rfl
  · exact Guarded.field (f := fun t => { t with bufferId := q.bufferId })
      (guarded_modifyQueue hq _) rfl rfl rfl

lemma Placed.guarded_rotate (h : s.Placed e) (hq : .fifoLock q ∈ taken ops)
    (hp : p ∈ (s.queues q).buffer) : Guarded ptl ops s (s.rotate q p) :=
  (h.guarded_listDelInit hq hp).trans (fun _ hu _ => hu) (guarded_modifyQueue hq _)

section takeIf

variable {cond : State C → PageId → Bool × State C} {K : State C → PageId → Prop}

/-- `dequeue_if`, where `tried` is the page that the condition locks, if it locks one. -/
lemma Placed.guarded_dequeueIf (h : s.Placed e) (hc : Locks cond K) {tried : Option PageId}
    (ht : ∀ p, (s.queues q).size ≠ 0 → (s.queues q).buffer.head? = some p →
      (cond s p).1 = true → tried = some p) :
    Guarded ptl (takeIf q tried) s (s.dequeueIf q cond).2 := by
  have hq : .fifoLock q ∈ taken (takeIf q tried) := by simp [takeIf]
  simp only [dequeueIf]
  split_ifs with hz
  · exact guarded_refl s
  · cases hb : (s.queues q).buffer with
    | nil => exact guarded_refl s
    | cons p rest =>
      have hp : p ∈ (s.queues q).buffer := by simp [hb]
      rcases hc s p with hf | ⟨htrue, -, -, -⟩
      · simp only [hf]
        exact h.guarded_rotate hq hp
      · obtain rfl : tried = some p := ht p hz (by rw [hb]; rfl) (by rw [htrue])
        have hg : .tpLockGuard p ∈ taken (takeIf q (some p)) := by simp [takeIf, LockOps.trylockTp]
        have hm := h.moves_modifyPage p (f := fun t => { t with locked := true }) rfl rfl
        simp only [htrue]
        refine (guarded_lock hg true).trans (fun r hr _ => ?_) (hm.placed.guarded_remove hq hp)
        rwa [inUse_modifyPage rfl]

variable (ptl) in
/-- `remove_if` on a page that is in the queue if the condition locks it. -/
lemma Placed.guarded_removeIf (h : s.Placed e) (hc : Locks cond K)
    (hp : (cond s p).1 = true → p ∈ (s.queues q).buffer) :
    Guarded ptl (takeIf q (some p)) s (s.removeIf q p cond).2 := by
  have hq : .fifoLock q ∈ taken (takeIf q (some p)) := by simp [takeIf]
  have hg : .tpLockGuard p ∈ taken (takeIf q (some p)) := by simp [takeIf, LockOps.trylockTp]
  simp only [removeIf]
  rcases hc s p with hf | ⟨htrue, -, -, -⟩
  · simp only [hf]
    exact guarded_refl s
  · have hmem := hp (by rw [htrue])
    have hm := h.moves_modifyPage p (f := fun t => { t with locked := true }) rfl rfl
    simp only [htrue]
    refine (guarded_lock hg true).trans (fun r hr _ => ?_) (hm.placed.guarded_remove hq hmem)
    rwa [inUse_modifyPage rfl]

end takeIf

/-! ### Trees -/

lemma guarded_treeInsert {k : TreeKind} {v : PvdId} {i : Pgoff}
    (ht : .treeLock ⟨k, v, i % e.ncpus⟩ ∈ taken ops) :
    Guarded ptl ops s (s.treeInsert e k v i p) := by
  apply guarded_trees
  intro t hl
  rw [Function.update_of_ne]
  rintro rfl
  exact hl ht

lemma guarded_treeErase {t : TreeId} (ht : .treeLock t ∈ taken ops) (i : Pgoff) :
    Guarded ptl ops s (s.treeErase t i) := by
  apply guarded_trees
  intro t' hl
  rw [Function.update_of_ne]
  rintro rfl
  exact hl ht

/-! ### Free lists -/

/-- The lists that `takeFree` looks at. -/
def searched (s : State C) : List ℕ → List ℕ
  | [] => []
  | cpu :: cpus => cpu :: if (s.fl cpu).isEmpty then s.searched cpus else []

/-- The lists that `alloc_page_lock` looks at. -/
def searchedNodes (e : Env C) (s : State C) : List ℕ → List ℕ
  | [] => []
  | node :: nodes =>
    s.searched (e.cpumaskOfNode node) ++
      (s.takeFree (e.cpumaskOfNode node)).2.searchedNodes e nodes

lemma guarded_takeFree {cpus : List ℕ} (h : ∀ cpu ∈ s.searched cpus, .flLock cpu ∈ taken ops) :
    Guarded ptl ops s (s.takeFree cpus).2 := by
  induction cpus with
  | nil => exact guarded_refl s
  | cons cpu cpus ih =>
    simp only [searched, List.mem_cons] at h
    simp only [takeFree]
    split
    · rename_i hl
      simp only [hl, List.isEmpty_nil, if_true] at h
      exact ih fun c hc => h c (.inr hc)
    · refine Guarded.field (f := fun t => { t with cpuid := cpu }) (guarded_fl fun c hc => ?_)
        rfl rfl rfl
      rw [Function.update_of_ne]
      rintro rfl
      exact hc (h c (.inl rfl))

lemma inUse_takeFree (s : State C) (cpus : List ℕ) (p : PageId) :
    ((s.takeFree cpus).2.pages p).inUse = (s.pages p).inUse := by
  induction cpus with
  | nil => rfl
  | cons cpu cpus ih =>
    simp only [takeFree]
    split
    · exact ih
    · exact inUse_modifyPage (f := fun t => { t with cpuid := cpu }) rfl p

variable (ptl) in
lemma guarded_scanNodes {nodes : List ℕ} (found : Option PageId)
    (h : ∀ cpu ∈ s.searchedNodes e nodes, .flLock cpu ∈ taken ops) :
    Guarded ptl ops s (s.scanNodes e nodes found).2 ∧
      ∀ p, ((s.scanNodes e nodes found).2.pages p).inUse = (s.pages p).inUse := by
  induction nodes generalizing s found with
  | nil => exact ⟨guarded_refl s, fun _ => rfl⟩
  | cons node nodes ih =>
    simp only [searchedNodes, List.mem_append] at h
    simp only [scanNodes]
    split
    · rename_i hc
      rw [hc] at h
      exact ih _ fun cpu hcpu => h cpu (.inr hcpu)
    · obtain ⟨hg, hu⟩ := ih (s := (s.takeFree (e.cpumaskOfNode node)).2)
        (s.takeFree (e.cpumaskOfNode node)).1 fun cpu hcpu => h cpu (.inr hcpu)
      have hsame := inUse_takeFree s (e.cpumaskOfNode node)
      refine ⟨(guarded_takeFree fun cpu hcpu => h cpu (.inl hcpu)).trans (fun p hp _ => ?_) hg,
        fun p => (hu p).trans (hsame p)⟩
      rw [hsame]
      exact hp

variable (ptl) in
/-- `alloc_page_lock`, when the page that it hands out is not in use. -/
lemma guarded_allocPageLock (e : Env C) (s : State C) (node : ℕ) (i : Pgoff) (v : PvdId)
    (hfree : ∀ p, (s.allocPageLock e node i v).1 = some p → (s.pages p).inUse = false) :
    Guarded ptl (LockOps.allocPageLock (s.searchedNodes e (e.numaDv node))
      (s.allocPageLock e node i v).1) s (s.allocPageLock e node i v).2 := by
  have hcpus : ∀ found, ∀ cpu ∈ s.searchedNodes e (e.numaDv node), .flLock cpu ∈
      taken (LockOps.allocPageLock (s.searchedNodes e (e.numaDv node)) found) := by
    intro found cpu hcpu
    simp [LockOps.allocPageLock, mem_taken_flatMap, hcpu]
  simp only [allocPageLock] at hfree ⊢
  rcases hr : s.scanNodes e (e.numaDv node) none with ⟨_ | p, s₁⟩
  · obtain ⟨hg, -⟩ := guarded_scanNodes ptl none (hcpus none)
    rwa [hr] at hg
  · obtain ⟨hg, hu⟩ := guarded_scanNodes ptl none (hcpus (some p))
    rw [hr] at hg hu hfree
    have hp : (s₁.pages p).inUse = false := (hu p).trans (hfree p rfl)
    have hguard : .tpLockGuard p ∈
        taken (LockOps.allocPageLock (s.searchedNodes e (e.numaDv node)) (some p)) := by
      simp [LockOps.allocPageLock]
    dsimp only at hg hu hfree ⊢
    refine hg.trans (fun q hq _ => (hu q).trans hq) ?_
    apply guarded_modifyPage
    · exact fun hn => absurd hguard hn
    · exact fun _ hused => absurd (hp.symm.trans hused) Bool.false_ne_true

lemma guarded_freePageLock {r : PageRef} (hp : r.page = p) (hcpu : r.cpuid = (s.pages p).cpuid) :
    Guarded ptl (LockOps.freePageLock r) s (s.freePageLock p) := by
  have hguard : .tpLockGuard p ∈ taken (LockOps.freePageLock r) := by
    simp [LockOps.freePageLock, hp]
  have hclear : Guarded ptl (LockOps.freePageLock r) s (s.freeClear p) :=
    guarded_modifyPage (fun hn => absurd hguard hn) fun _ _ hu => absurd hu (by simp)
  refine (hclear.trans (fun q _ hq => ?_) (guarded_lock hguard false)).trans (fun _ _ hq => hq)
    (guarded_fl fun cpu hn => ?_)
  · rwa [inUse_modifyPage rfl] at hq
  · rw [Function.update_of_ne]
    · rfl
    · rintro rfl
      exact hn (by simp [LockOps.freePageLock, hcpu])

/-! ### Mappings -/

/-- The slot of a page as the walks and the lists see it. An area that has a slot has an entry. -/
def slotRef (ptl : VmaId × ℕ → ℕ) (s : State C) (p : PageId) (r : PrVmaRmap) : SlotRef where
  ptl := (s.mapping p (r.vma, r.vaddr)).map fun _ => ptl (r.vma, r.vaddr)
  pve := (s.infos (s.vmas r.vma).info).pve.getD 0
  cpu := r.cpu

/-- The fields of a page in the state. A page that a list or a tree holds has a pvd. -/
def pageRef (ptl : VmaId × ℕ → ℕ) (s : State C) (p : PageId) : PageRef where
  page := p
  pvd := (s.pages p).pvd.getD 0
  index := (s.pages p).index
  cpuid := (s.pages p).cpuid
  slots := (((List.finRange maxRmapsPerPage).map (s.pages p).rmap).filter (·.valid)).map
    (s.slotRef ptl p)

@[simp] lemma pageRef_page (s : State C) (p : PageId) : (s.pageRef ptl p).page = p := rfl

lemma slotRef_mem {i : Fin maxRmapsPerPage} (hv : ((s.pages p).rmap i).valid = true) :
    s.slotRef ptl p ((s.pages p).rmap i) ∈ (s.pageRef ptl p).slots := by
  simp only [pageRef, List.mem_map, List.mem_filter]
  exact ⟨_, ⟨⟨i, List.mem_finRange i, rfl⟩, hv⟩, rfl⟩

/-- The walk for a slot takes the lock of the page table in which it finds the entry. -/
lemma ptl_mem_walk {r : PrVmaRmap} {w : Bool} (hw : s.mapping p (r.vma, r.vaddr) = some w) :
    .ptl (ptl (r.vma, r.vaddr)) ∈ taken (walk (s.slotRef ptl p r)) := by
  simp [walk, slotRef, hw]

/-- The loops over the slots of a page go on as long as they find slots that were there, and entries
that were there. -/
structure Fewer (p : PageId) (s s' : State C) : Prop where
  slot {i : Fin maxRmapsPerPage} : ((s'.pages p).rmap i).valid = true →
    (s'.pages p).rmap i = (s.pages p).rmap i
  entry {a : VmaId × ℕ} : (s'.mapping p a).isSome → (s.mapping p a).isSome
  inUse (q : PageId) : (s'.pages q).inUse = (s.pages q).inUse

lemma fewer_refl (p : PageId) (s : State C) : Fewer p s s := ⟨fun _ => rfl, id, fun _ => rfl⟩

/-- A loop over the slots whose turns are guarded. -/
lemma guarded_foldl_slots {f : State C → Fin maxRmapsPerPage → State C}
    (hf : ∀ s' i, Fewer p s s' → ((s'.pages p).rmap i).valid = true →
      Guarded ptl ops s' (f s' i) ∧ Fewer p s (f s' i))
    (hskip : ∀ s' i, ((s'.pages p).rmap i).valid ≠ true → f s' i = s')
    (l : List (Fin maxRmapsPerPage)) :
    Guarded ptl ops s (l.foldl f s) ∧ Fewer p s (l.foldl f s) := by
  refine List.foldlRecOn l f (motive := fun s' => Guarded ptl ops s s' ∧ Fewer p s s')
    ⟨guarded_refl s, fewer_refl p s⟩ fun s' ⟨hg, hs'⟩ i _ => ?_
  by_cases hv : ((s'.pages p).rmap i).valid = true
  · obtain ⟨hg', hs''⟩ := hf s' i hs' hv
    exact ⟨hg.trans (fun q hq _ => (hs'.inUse q).trans hq) hg', hs''⟩
  · rw [hskip s' i hv]
    exact ⟨hg, hs'⟩

/-- The entry of a slot is changed under the lock of its page table. -/
lemma guarded_setPte {r : PrVmaRmap} {x : Pte} (hl : .ptl (ptl (r.vma, r.vaddr)) ∈ taken ops) :
    Guarded ptl ops s (s.setPte r.vma r.vaddr x) := by
  apply guarded_pte
  intro a ha
  rw [Function.update_of_ne]
  rintro rfl
  exact ha hl

lemma mapping_setPte_of_ne {r : PrVmaRmap} {x : Pte} {a : VmaId × ℕ} (ha : a ≠ (r.vma, r.vaddr)) :
    (s.setPte r.vma r.vaddr x).mapping p a = s.mapping p a := by
  simp [mapping, setPte, ha]

/-- A slot leaves its list. -/
lemma guarded_unlinkRmap (s : State C) (p : PageId) (i : Fin maxRmapsPerPage) :
    Guarded ptl ops s (s.unlinkRmap p i) := by
  intro l _
  cases l with
  | pcpuMappedLock x cpu => exact List.erase_sublist
  | _ => simp [Agrees, unlinkRmap]

/-- A slot joins a list. -/
lemma guarded_linkRmap {x : PveId} {cpu : ℕ} {i : Fin maxRmapsPerPage}
    (hx : .pcpuMappedLock x cpu ∈ taken ops) : Guarded ptl ops s (s.linkRmap x cpu p i) := by
  intro l hl
  cases l with
  | pcpuMappedLock y d =>
    by_cases hy : y = x
    · have hd : d ≠ cpu := by
        rintro rfl
        rw [hy] at hl
        exact hl hx
      subst hy
      simp [Agrees, linkRmap, hd]
    · simp [Agrees, linkRmap, hy]
  | _ => simp [Agrees, linkRmap]

section slots

variable (hl : ∀ i, ((s.pages p).rmap i).valid = true →
  (s.mapping p (((s.pages p).rmap i).vma, ((s.pages p).rmap i).vaddr)).isSome →
    .ptl (ptl (((s.pages p).rmap i).vma, ((s.pages p).rmap i).vaddr)) ∈ taken ops)

include hl

lemma guarded_clearMappings_of :
    Guarded ptl ops s (s.clearMappings p) ∧ Fewer p s (s.clearMappings p) := by
  refine guarded_foldl_slots (fun s' i hs' hv => ?_) (fun s' i hv => if_neg hv) _
  have hslot := hs'.slot hv
  simp only [hv, if_true, wrprotect]
  split
  · rename_i q w hpte
    split_ifs with hq
    · subst hq
      have hm : s'.mapping q (((s'.pages q).rmap i).vma, ((s'.pages q).rmap i).vaddr) = some w := by
        simp [mapping, hpte]
      refine ⟨guarded_setPte ?_, hs'.slot, fun {a} ha => hs'.entry ?_, hs'.inUse⟩
      · rw [hslot]
        refine hl i (by rw [← hslot]; exact hv) ?_
        rw [← hslot]
        exact hs'.entry (by rw [hm]; rfl)
      · by_cases haa : a = (((s'.pages q).rmap i).vma, ((s'.pages q).rmap i).vaddr)
        · rw [haa, hm]
          rfl
        · rwa [mapping_setPte_of_ne haa] at ha
    · exact ⟨guarded_refl s', hs'⟩
  · exact ⟨guarded_refl s', hs'⟩

/-- The entry of a slot goes. -/
lemma guarded_zapPage {i : Fin maxRmapsPerPage} (hs' : Fewer p s s')
    (hv : ((s'.pages p).rmap i).valid = true) :
    Guarded ptl ops s' (s'.zapPage p ((s'.pages p).rmap i)) ∧
      (s'.zapPage p ((s'.pages p).rmap i)).pages = s'.pages ∧
      ∀ a, ((s'.zapPage p ((s'.pages p).rmap i)).mapping p a).isSome → (s'.mapping p a).isSome := by
  have hslot := hs'.slot hv
  simp only [zapPage]
  split
  · rename_i q w hpte
    split_ifs with hq
    · subst hq
      refine ⟨guarded_setPte ?_, rfl, fun a ha => ?_⟩
      · rw [hslot]
        refine hl i (by rw [← hslot]; exact hv) ?_
        rw [← hslot]
        exact hs'.entry (by simp [mapping, hpte])
      · by_cases haa : a = (((s'.pages q).rmap i).vma, ((s'.pages q).rmap i).vaddr)
        · simp [mapping, setPte, haa] at ha
        · rwa [mapping_setPte_of_ne haa] at ha
    · exact ⟨guarded_refl s', rfl, fun _ => id⟩
  · exact ⟨guarded_refl s', rfl, fun _ => id⟩

lemma guarded_removeMappings_of (hr : .rmapLock p ∈ taken ops) :
    Guarded ptl ops s (s.removeMappings p) := by
  refine (guarded_foldl_slots (fun s' i hs' hv => ?_) (fun s' i hv => if_neg hv) _).1
  obtain ⟨hg, hpages, hentry⟩ := guarded_zapPage hl hs' hv
  simp only [hv, if_true]
  -- the slot becomes invalid, and then leaves its list
  set s₁ := s'.zapPage p ((s'.pages p).rmap i) with hs₁
  have hset : Guarded ptl ops s₁
      (s₁.setRmap p i { (s'.pages p).rmap i with valid := false }) :=
    guarded_modifyPage (fun _ => ⟨rfl, rfl⟩) fun hn => absurd hr hn
  have hused : ∀ q, ((s₁.setRmap p i { (s'.pages p).rmap i with valid := false }).pages q).inUse =
      (s₁.pages q).inUse := inUse_modifyPage rfl
  refine ⟨(hg.trans (fun q hq _ => by rwa [hpages]) hset).trans (fun q hq _ => ?_)
    (guarded_unlinkRmap _ p i), fun {j} hj => ?_, fun ha => hs'.entry (hentry _ ha), fun q => ?_⟩
  · rwa [hused, hpages]
  · have hji : j ≠ i := by
      rintro rfl
      simp [unlinkRmap, setRmap, modifyPage] at hj
    have hsame : (((s₁.setRmap p i { (s'.pages p).rmap i with valid := false }).unlinkRmap p
        i).pages p).rmap j = (s'.pages p).rmap j := by
      simp [unlinkRmap, setRmap, modifyPage, hji, hpages]
    rw [hsame] at hj ⊢
    exact hs'.slot hj
  · exact (hused q).trans ((congrArg (fun f => (f q).inUse) hpages).trans (hs'.inUse q))

end slots

variable (ptl) in
lemma ptl_mem_slots {i : Fin maxRmapsPerPage} (hv : ((s.pages p).rmap i).valid = true)
    (hm : (s.mapping p (((s.pages p).rmap i).vma, ((s.pages p).rmap i).vaddr)).isSome) :
    ∃ x ∈ (s.pageRef ptl p).slots,
      .ptl (ptl (((s.pages p).rmap i).vma, ((s.pages p).rmap i).vaddr)) ∈ taken (walk x) := by
  obtain ⟨w, hw⟩ := Option.isSome_iff_exists.mp hm
  exact ⟨_, slotRef_mem hv, ptl_mem_walk hw⟩

lemma guarded_removeMappings (s : State C) (p : PageId) :
    Guarded ptl (LockOps.removeMappings (s.pageRef ptl p)) s (s.removeMappings p) := by
  refine guarded_removeMappings_of (fun i hv hm => ?_) (by simp [LockOps.removeMappings])
  obtain ⟨x, hx, hl⟩ := ptl_mem_slots ptl hv hm
  simp only [LockOps.removeMappings, taken_critical, List.mem_cons, mem_taken_flatMap]
  exact .inr ⟨x, hx, by simp [unmapSlot, hl]⟩

lemma ptl_mem_clearMappings {i : Fin maxRmapsPerPage} (hv : ((s.pages p).rmap i).valid = true)
    (hm : (s.mapping p (((s.pages p).rmap i).vma, ((s.pages p).rmap i).vaddr)).isSome) :
    .ptl (ptl (((s.pages p).rmap i).vma, ((s.pages p).rmap i).vaddr)) ∈
      taken (LockOps.clearMappings (s.pageRef ptl p)) := by
  obtain ⟨x, hx, hl⟩ := ptl_mem_slots ptl hv hm
  simp only [LockOps.clearMappings, taken_critical, List.mem_cons, mem_taken_flatMap]
  exact .inr ⟨x, hx, hl⟩

lemma guarded_clearMappings (s : State C) (p : PageId) :
    Guarded ptl (LockOps.clearMappings (s.pageRef ptl p)) s (s.clearMappings p) :=
  (guarded_clearMappings_of fun _ => ptl_mem_clearMappings).1

/-- What `clear_mappings` of one page leaves for that of the next one. -/
structure Unprotected (e : Env C) (s s' : State C) : Prop where
  placed : s'.Placed e
  pages : s'.pages = s.pages
  mapping (q : PageId) (a : VmaId × ℕ) : (s'.mapping q a).isSome = (s.mapping q a).isSome

lemma Unprotected.clearMappings (h : Unprotected e s s') (p : PageId) :
    Unprotected e s (s'.clearMappings p) := by
  have hm := h.placed.moves_clearMappings (p := p)
  rw [PageView.wrprotected_eq] at hm
  refine ⟨hm.placed, funext fun q => ?_, fun q a => ?_⟩
  · by_cases hq : q = p
    · rw [hq, hm.pages_self, ← h.pages]
      rfl
    · rw [show (s'.clearMappings p).pages q = s'.pages q from
        congrArg PageView.page (hm.view_of_ne hq), h.pages]
  · rw [← h.mapping q a]
    by_cases hq : q = p
    · subst hq
      rw [show (s'.clearMappings q).mapping q a = (s'.view e q).wrprotected.pte a from
        congrFun (congrArg PageView.pte hm.view_self) a, PageView.wrprotected_pte]
      split_ifs
      · rw [Option.isSome_map]
        rfl
      · rfl
    · rw [show (s'.clearMappings p).mapping q a = s'.mapping q a from
        congrFun (congrArg PageView.pte (hm.view_of_ne hq)) a]

/-- The pages of a batch, one after the other. -/
lemma Placed.guarded_foldl_clearMappings (h : s.Placed e) (pgs : List PageId) :
    Guarded ptl ((pgs.map (s.pageRef ptl)).flatMap LockOps.clearMappings) s
      (pgs.foldl clearMappings s) := by
  refine (List.foldlRecOn pgs clearMappings (motive := fun s' =>
    Guarded ptl ((pgs.map (s.pageRef ptl)).flatMap LockOps.clearMappings) s s' ∧
      Unprotected e s s') ⟨guarded_refl s, h, rfl, fun _ _ => rfl⟩ ?_).1
  rintro s' ⟨hg, hs'⟩ p hp
  refine ⟨hg.trans (fun q hq _ => by rwa [hs'.pages]) (guarded_clearMappings_of ?_).1,
    hs'.clearMappings p⟩
  rw [hs'.pages]
  intro i hv hm
  rw [hs'.mapping] at hm
  rw [List.flatMap_map, mem_taken_flatMap]
  exact ⟨p, hp, ptl_mem_clearMappings hv hm⟩

/-- The list that `dmap_add_or_update_rmap` puts a new slot on. -/
def newSlot (s : State C) (vmf : VmFault) (p : PageId) (cpu : ℕ) : Option (PveId × ℕ) :=
  match findRmap (s.pages p) vmf.vma with
  | some _ => none
  | none => (s.infos (s.vmas vmf.vma).info).pve.map fun x => (x, cpu)

lemma guarded_dmapAddOrUpdateRmap {vmf : VmFault} {cpu : ℕ}
    (h : s.dmapAddOrUpdateRmap vmf p cpu = .ok s') :
    Guarded ptl (LockOps.dmapAddOrUpdateRmap p (s.newSlot vmf p cpu)) s s' := by
  simp only [dmapAddOrUpdateRmap] at h
  split at h
  · obtain rfl := Except.ok.inj h
    exact guarded_refl s
  · rename_i hfind
    split at h
    · exact absurd h (by simp)
    · rename_i i _
      split at h
      · exact absurd h (by simp)
      · rename_i x hx
        obtain rfl := Except.ok.inj h
        have hnew : s.newSlot vmf p cpu = some (x, cpu) := by simp [newSlot, hfind, hx]
        have hset : Guarded ptl (LockOps.dmapAddOrUpdateRmap p (s.newSlot vmf p cpu)) s
            (s.setRmap p i ⟨true, vmf.vma, vmf.address, cpu⟩) :=
          guarded_modifyPage (fun _ => ⟨rfl, rfl⟩) fun hn =>
            absurd (by simp [LockOps.dmapAddOrUpdateRmap]) hn
        refine hset.trans (fun q _ hq => hq) (guarded_linkRmap ?_)
        simp [LockOps.dmapAddOrUpdateRmap, hnew]

/-! ### The sections of a step -/

/-- The page that `dequeue_if` tries. -/
def head (s : State C) (q : Queue) : Option PageId :=
  if (s.queues q).size = 0 then none else (s.queues q).buffer.head?

/-- The page that `deq` tries to lock. -/
def deqHead (s : State C) (qid : ℕ) : Option PageId :=
  (s.head (.clean qid)).filter fun p =>
    (s.pages p).pvd.elim false fun v => !(s.pvds v).duringUnlink

section sections

variable (e : Env C) (ptl : VmaId × ℕ → ℕ) (s : State C)

/-- `perma_getpage` -/
def getSections (c : Choice C) (r : Req) : GetPc → LockOps
  | .alloc => LockOps.allocPageLock (s.searchedNodes e (e.numaDv c.node))
      (s.allocPageLock e c.node r.vmf.pgoff r.pvd).1
  | .fresh p | .lock p => LockOps.trylockTp p
  | .insert _ => LockOps.fmapRadixInsert e.ncpus r.pvd r.vmf.pgoff
  | .rollback p => LockOps.freePageLock (s.pageRef ptl p)
  | .enqueue p => LockOps.insertPage (s.pageRef ptl p)
  | .done p => LockOps.dmapAddOrUpdateRmap p (s.newSlot r.vmf p c.cpu)
  | .lookup | .io _ | .valid _ | .map _ => []

/-- `perma_page_mkwrite` -/
def mkwriteSections (r : Req) (p : PageId) : MkPc → LockOps
  | .lock => LockOps.trylockTp p
  | .insert => onTree e.ncpus .dirty r.pvd (s.pages p).index
  | .remove => critical (.fifoLock (cleanQueue (s.pages p).index)) []
  | .enqueue => critical (.fifoLock (dirtyQueue (s.pages p).index)) []
  | .dirty | .map => []

/-- `try_purge_pages_fast` -/
def purgeSections : PurgePc → LockOps
  | .take qid (_ + 1) _ => takeIf (.clean qid) (s.deqHead qid)
  | .delete _ _ _ p => onTree e.ncpus .rdx (s.pageRef ptl p).pvd (s.pageRef ptl p).index
  | .unmap _ _ _ p => LockOps.removeMappings (s.pageRef ptl p)
  | .free (p :: _) => LockOps.freePageLock (s.pageRef ptl p)
  | .take _ 0 _ | .free [] => []

/-- `evictor_thread` -/
def evictSections : EvictPc → LockOps
  | .take id => takeIf (.dirty id) (s.head (.dirty id))
  | .untree _ p => LockOps.removeFromDirtyTree e.ncpus (s.pageRef ptl p)
  | .scan c =>
    if c.iter = 0 ∨ 512 ≤ c.pgs.length ∨ (c.offset >>> 9) % evictorThreads ≠ c.id then []
    else onTree e.ncpus .dirty c.pvd c.offset
  | .grab c q => takeIf (.dirty c.id) (some q)
  | .back c _ => onTree e.ncpus .dirty c.pvd c.offset
  | .clear _ pgs => (pgs.map (s.pageRef ptl)).flatMap LockOps.clearMappings
  | .insert _ _ (p :: _) => LockOps.insertPage (s.pageRef ptl p)
  | .unlock (p :: _) => LockOps.unlockTp p
  | .write _ _ | .insert _ _ [] | .unlock [] => []

/-- One pass over a dirty tree. -/
def pullSections (v : PvdId) (cpu : ℕ) : LockOps :=
  critical (.treeLock ⟨.dirty, v, cpu⟩)
    (((s.trees ⟨.dirty, v, cpu⟩).first?.map Prod.snd).elim [] LockOps.trylockTp)

/-- `write_dirty_pages` -/
def syncSections (a : SyncArgs) : SyncPc → LockOps
  | .fill (cpu :: _) _ => s.pullSections a.pvd cpu
  | .pull hn _ _ => s.pullSections a.pvd hn.cpu
  | .clear p _ _ => LockOps.clearMappings (s.pageRef ptl p)
  | .remove p _ _ => critical (.fifoLock (dirtyQueue (s.pages p).index)) []
  | .enqueue p _ _ => critical (.fifoLock (cleanQueue (s.pages p).index)) []
  | .unlock _ (p :: _) => LockOps.unlockTp p
  | .fill [] _ | .min _ _ | .write _ _ | .unlock _ [] => []

/-- The operations on locks of the next step of a thread. -/
def sections (c : Choice C) : Pc → LockOps
  | .idle => []
  | .get r x => s.getSections e ptl c r x
  | .mkwrite r p x => s.mkwriteSections e r p x
  | .purge _ x => s.purgeSections e ptl x
  | .evict x => s.evictSections e ptl x
  | .sync a x => s.syncSections ptl a x

end sections

end State

/-- The next step is one of the kernel, at the end of a fault. -/
def Pc.ofKernel : Pc → Bool
  | .get _ (.map _) => true
  | .mkwrite _ _ .map => true
  | _ => false

namespace State

variable {ptl : VmaId × ℕ → ℕ} {ops : LockOps} {e : Env C} {s s' : State C} {p : PageId}

lemma guarded_pullOnce {v : PvdId} {cpu : ℕ} {h h' : MinHeap} {b : Option Bool}
    (hs : s.pullOnce v cpu h = .ok (b, s', h')) : Guarded ptl (s.pullSections v cpu) s s' := by
  have htree : .treeLock ⟨.dirty, v, cpu⟩ ∈ taken (s.pullSections v cpu) := by
    simp [pullSections]
  simp only [pullOnce] at hs
  split at hs
  · obtain ⟨-, rfl, -⟩ : _ ∧ s = s' ∧ _ := by simpa using hs
    exact guarded_refl s
  · rename_i k p hf
    have hlock : Guarded ptl (s.pullSections v cpu) s (s.trylockTp p ulongMax).2 := by
      refine (guarded_trylockTp ptl s p ulongMax).mono fun l hl => ?_
      simp [pullSections, hf, hl]
    have hused : ∀ q, ((s.trylockTp p ulongMax).2.pages q).inUse = (s.pages q).inUse := by
      intro q
      rcases s.trylockTp_cases p ulongMax with ⟨r, -, h⟩ | ⟨-, -, -, h⟩
      · rw [h]
      · rw [h]
        exact inUse_modifyPage (f := fun t => { t with locked := true }) rfl q
    split at hs
    all_goals
      rename_i heq
      rw [heq] at hlock hused
    · split at hs
      · exact absurd hs (by simp)
      · obtain ⟨-, rfl, -⟩ : _ ∧ _ = s' ∧ _ := by simpa using hs
        exact hlock.trans (fun q hq _ => (hused q).trans hq) (guarded_treeErase htree k)
    · obtain ⟨-, rfl, -⟩ : _ ∧ _ = s' ∧ _ := by simpa using hs
      exact hlock

lemma guarded_writeBlocks (s : State C) (ws : List (BlockWrite C)) :
    Guarded ptl ops s (s.writeBlocks ws) :=
  guarded_of_eq rfl rfl rfl rfl rfl rfl

/-- The device is read into the page. -/
lemma guarded_dmapDoPageIo (s : State C) (v : PvdId) (i : Pgoff) (p : PageId) (r : ReadResult C) :
    Guarded ptl ops s (s.dmapDoPageIo v i p r) := by
  have hread : ∀ d, Guarded ptl ops s (s.readPage d i p r) := fun d =>
    guarded_field (f := fun t =>
      { t with content := r.content (s.disk (d, i)) (s.pages p).content }) rfl rfl rfl
  have hfake : Guarded ptl ops s (s.readOrFake v i p r) := by
    simp only [readOrFake]
    split
    · split_ifs
      · exact hread _
      · exact guarded_of_eq rfl rfl rfl rfl rfl rfl
    · exact hread _
  simp only [dmapDoPageIo]
  refine Guarded.field (f := fun t => { t with pageValid := true }) ?_ rfl rfl rfl
  split_ifs
  · exact guarded_refl s
  · exact hfake

end State

namespace Machine

open State

variable {ptl : VmaId × ℕ → ℕ} {e : Env C} {m m' : Machine C} {s' : State C} {t : Tid} {pc' : Pc}
  {c : Choice C} {p q : PageId}

/-! ### Where the pages of a step are -/

/-- A write fault takes a page out of its clean queue. -/
lemma Inv.mem_cleanQueue (h : Inv e m) {r : Req} (hpc : m.pc t = .mkwrite r p .remove) :
    p ∈ (m.st.queues (cleanQueue (m.st.pages p).index)).buffer := by
  have hat := ((h.page p).held (t := t) (by rw [hpc]; exact .inl (by simp [Pc.locks]))).1
  rw [hpc] at hat
  exact (view_clean e _ _).mp hat.clean

/-- A sync takes a page out of its dirty queue. -/
lemma Inv.mem_dirtyQueue (h : Inv e m) {a : SyncArgs} {hp : MinHeap} {pgs : List PageId}
    (hpc : m.pc t = .sync a (.remove p hp pgs)) :
    p ∈ (m.st.queues (dirtyQueue (m.st.pages p).index)).buffer := by
  have hnodup := h.table.nodup t
  rw [hpc] at hnodup
  have hat := ((h.page p).held (t := t) (by rw [hpc]; exact .inl (by simp [Pc.locks]))).1
  rw [hpc] at hat
  simp only [Pc.stage, not_mem_of_hand hnodup, if_false] at hat
  exact (view_dirty e _ _).mp hat.dirty

/-- A page that an evictor has moved and can lock is in the queue of the evictor. -/
lemma Inv.mem_of_grab (h : Inv e m) {d : Scan} (hpc : m.pc t = .evict (.grab d q))
    (hlock : (m.st.evDeq q).1 = true) : q ∈ (m.st.queues (.dirty d.id)).buffer := by
  have htr : (m.pc t).transit = some (d, q) := by rw [hpc]; rfl
  obtain ⟨-, hi, hid⟩ := (h.thread t).transit htr
  have hmv : m.Moved q := ⟨t, d, htr⟩
  rcases locks_evDeq m.st q with hf | ⟨-, hu, hl, -⟩
  · rw [hf] at hlock
    exact absurd hlock Bool.false_ne_true
  · have hun := h.unheld_of_tree hl (h.rdx_of_tree (.inr hmv))
    have hat := ((h.page q).rest hun).at_of_inUse hu
    have hdirty : (m.st.pages q).isDirty = true := by simpa using hat.moved hmv
    have hmem := (view_dirty e _ _).mp (hat.dirty.trans hdirty)
    rwa [hi, dirtyQueue, hid] at hmem

/-! ### Every step -/

lemma Inv.guarded_stepGet (h : Inv e m) {r : Req} {x : GetPc} (hx : ∀ p, x ≠ .map p)
    (hs : m.st.stepGet e c r x = .ok (s', pc')) :
    Guarded ptl (m.st.getSections e ptl c r x) m.st s' := by
  cases x with
  | lookup =>
    simp only [State.stepGet] at hs
    split at hs <;> rw [← (Prod.mk.inj (Except.ok.inj hs)).1] <;> exact guarded_refl _
  | alloc =>
    have hg := guarded_allocPageLock ptl e m.st c.node r.vmf.pgoff r.pvd fun p hp => by
      rcases h.placed.allocPageLock_idle (fun q hf => (h.idle_of_free hf).1) c.node r.vmf.pgoff
        r.pvd with ⟨s₁, hs₁, -, -⟩ | ⟨q, s₁, hs₁, hf, -⟩
      · simp [hs₁] at hp
      · obtain rfl : q = p := by simpa [hs₁] using hp
        exact (h.idle_of_free hf).1.inUse
    simp only [State.stepGet] at hs
    split at hs
    all_goals
      rename_i heq
      rw [heq] at hg
      rw [← (Prod.mk.inj (Except.ok.inj hs)).1]
      simpa only [getSections, heq] using hg
  | fresh p =>
    rw [← (Prod.mk.inj (Except.ok.inj hs)).1]
    exact guarded_trylockTp _ _ _ _
  | insert p =>
    have hg : Guarded ptl (m.st.getSections e ptl c r (.insert p)) m.st
        (m.st.fmapRadixInsert e r.pvd r.vmf.pgoff p).2 :=
      guarded_treeInsert (by simp [getSections, LockOps.fmapRadixInsert, onTree])
    simp only [State.stepGet] at hs
    split at hs
    all_goals
      rename_i heq
      rw [heq] at hg
      rw [← (Prod.mk.inj (Except.ok.inj hs)).1]
      exact hg
  | rollback p =>
    rw [← (Prod.mk.inj (Except.ok.inj hs)).1]
    exact guarded_freePageLock rfl rfl
  | enqueue p =>
    rw [← (Prod.mk.inj (Except.ok.inj hs)).1]
    exact guarded_enqueue (by simp [getSections, LockOps.insertPage, pageRef])
  | io p =>
    rw [← (Prod.mk.inj (Except.ok.inj hs)).1]
    exact guarded_dmapDoPageIo _ _ _ _ _
  | lock p =>
    have hg := guarded_trylockTp ptl m.st p ulongMax
    simp only [State.stepGet] at hs
    split at hs
    all_goals
      rename_i heq
      rw [heq] at hg
      rw [← (Prod.mk.inj (Except.ok.inj hs)).1]
      exact hg
  | valid p =>
    simp only [State.stepGet] at hs
    split_ifs at hs
    rw [← (Prod.mk.inj (Except.ok.inj hs)).1]
    exact guarded_refl _
  | done p =>
    simp only [State.stepGet] at hs
    obtain ⟨s₁, hr, hs⟩ := Except.map_eq_ok.mp hs
    rw [← (Prod.mk.inj hs).1]
    exact guarded_dmapAddOrUpdateRmap hr
  | map p => exact absurd rfl (hx p)

lemma Inv.guarded_stepMkwrite (h : Inv e m) {r : Req} {x : MkPc} (hpc : m.pc t = .mkwrite r p x)
    (hx : x ≠ .map) (hs : m.st.stepMkwrite e r p x = .ok (s', pc')) :
    Guarded ptl (m.st.mkwriteSections e r p x) m.st s' := by
  cases x with
  | lock =>
    have hg := guarded_trylockTp ptl m.st p r.vmf.pgoff
    simp only [State.stepMkwrite] at hs
    split at hs
    all_goals
      rename_i heq
      rw [heq] at hg
      rw [← (Prod.mk.inj (Except.ok.inj hs)).1]
      exact hg
  | dirty =>
    simp only [State.stepMkwrite] at hs
    split_ifs at hs
    · rw [← (Prod.mk.inj (Except.ok.inj hs)).1]
      exact guarded_refl _
    · rw [← (Prod.mk.inj (Except.ok.inj hs)).1]
      exact guarded_field rfl rfl rfl
  | insert =>
    rw [← (Prod.mk.inj (Except.ok.inj hs)).1]
    exact guarded_treeInsert (by simp [mkwriteSections, onTree])
  | remove =>
    rw [← (Prod.mk.inj (Except.ok.inj hs)).1]
    exact h.placed.guarded_remove (by simp [mkwriteSections]) (h.mem_cleanQueue hpc)
  | enqueue =>
    rw [← (Prod.mk.inj (Except.ok.inj hs)).1]
    exact guarded_enqueue (by simp [mkwriteSections])
  | map => exact absurd rfl hx

lemma Inv.guarded_stepPurge (h : Inv e m) {ret : Option Req} {x : PurgePc}
    (hs : m.st.stepPurge e ret x = .ok (s', pc')) :
    Guarded ptl (m.st.purgeSections e ptl x) m.st s' := by
  cases x with
  | take qid n pgs =>
    cases n with
    | zero =>
      rw [← (Prod.mk.inj (Except.ok.inj hs)).1]
      exact guarded_refl _
    | succ n =>
      have hg : Guarded ptl (m.st.purgeSections e ptl (.take qid (n + 1) pgs)) m.st
          (m.st.dequeueIf (.clean qid) deq).2 := by
        refine h.placed.guarded_dequeueIf locks_deq fun p hz hp hd => ?_
        rw [deqHead, head, if_neg hz, hp, Option.filter_some, if_pos]
        simp only [deq] at hd
        split at hd
        · exact absurd hd Bool.false_ne_true
        · rename_i v hv
          split_ifs at hd with hu
          rw [hv]
          simpa using hu
      simp only [State.stepPurge] at hs
      split at hs
      all_goals
        rename_i heq
        rw [heq] at hg
        rw [← (Prod.mk.inj (Except.ok.inj hs)).1]
        exact hg
  | delete qid n pgs p =>
    simp only [State.stepPurge] at hs
    split at hs
    · exact absurd hs (by simp)
    · rename_i v hv
      rw [← (Prod.mk.inj (Except.ok.inj hs)).1]
      exact guarded_treeErase (by simp [purgeSections, onTree, pageRef, hv]) _
  | unmap qid n pgs p =>
    rw [← (Prod.mk.inj (Except.ok.inj hs)).1]
    exact guarded_removeMappings _ _
  | free pgs =>
    cases pgs with
    | nil =>
      rw [← (Prod.mk.inj (Except.ok.inj hs)).1]
      exact guarded_refl _
    | cons p pgs =>
      rw [← (Prod.mk.inj (Except.ok.inj hs)).1]
      exact guarded_freePageLock rfl rfl

lemma Inv.guarded_stepEvict (h : Inv e m) {x : EvictPc} (hpc : m.pc t = .evict x)
    (hs : m.st.stepEvict e x = .ok (s', pc')) :
    Guarded ptl (m.st.evictSections e ptl x) m.st s' := by
  cases x with
  | take id =>
    have hg : Guarded ptl (m.st.evictSections e ptl (.take id)) m.st
        (m.st.dequeueIf (.dirty id) evDeq).2 := by
      refine h.placed.guarded_dequeueIf locks_evDeq fun p hz hp _ => ?_
      rw [head, if_neg hz, hp]
    simp only [State.stepEvict] at hs
    split at hs
    all_goals
      rename_i heq
      rw [heq] at hg
      rw [← (Prod.mk.inj (Except.ok.inj hs)).1]
      exact hg
  | untree id p =>
    simp only [State.stepEvict] at hs
    split at hs
    · exact absurd hs (by simp)
    · rename_i v hv
      rw [← (Prod.mk.inj (Except.ok.inj hs)).1, State.removeFromDirtyTree, hv]
      refine guarded_treeErase ?_ _
      simp [evictSections, LockOps.removeFromDirtyTree, onTree, pageRef, hv]
  | scan d =>
    simp only [State.stepEvict] at hs
    split_ifs at hs with hstop
    · rw [← (Prod.mk.inj (Except.ok.inj hs)).1]
      exact guarded_refl _
    · split at hs
      · rw [← (Prod.mk.inj (Except.ok.inj hs)).1]
        exact guarded_refl _
      · rw [← (Prod.mk.inj (Except.ok.inj hs)).1]
        exact guarded_treeErase (by simp [evictSections, hstop, onTree]) _
  | grab d q =>
    have hg := h.placed.guarded_removeIf ptl (q := .dirty d.id) locks_evDeq
      fun hlock => h.mem_of_grab hpc hlock
    simp only [State.stepEvict] at hs
    split at hs
    all_goals
      rename_i heq
      rw [heq] at hg
      rw [← (Prod.mk.inj (Except.ok.inj hs)).1]
      exact hg
  | back d q =>
    obtain ⟨-, hi, -⟩ := (h.thread t).transit (c := d) (q := q) (by rw [hpc]; rfl)
    rw [← (Prod.mk.inj (Except.ok.inj hs)).1]
    exact guarded_treeInsert (by simp [evictSections, onTree, hi])
  | clear v pgs =>
    rw [← (Prod.mk.inj (Except.ok.inj hs)).1]
    exact h.placed.guarded_foldl_clearMappings pgs
  | write v pgs =>
    rw [← (Prod.mk.inj (Except.ok.inj hs)).1]
    exact guarded_writeBlocks _ _
  | insert v done todo =>
    cases todo with
    | nil =>
      rw [← (Prod.mk.inj (Except.ok.inj hs)).1]
      exact guarded_refl _
    | cons p todo =>
      rw [← (Prod.mk.inj (Except.ok.inj hs)).1]
      refine Guarded.field (f := fun t => { t with isDirty := false }) (guarded_enqueue ?_)
        rfl rfl rfl
      simp [evictSections, LockOps.insertPage, pageRef]
  | unlock todo =>
    cases todo with
    | nil =>
      rw [← (Prod.mk.inj (Except.ok.inj hs)).1]
      exact guarded_refl _
    | cons p todo =>
      rw [← (Prod.mk.inj (Except.ok.inj hs)).1]
      exact guarded_unlockTp _ _

lemma Inv.guarded_stepSync (h : Inv e m) {a : SyncArgs} {x : SyncPc} (hpc : m.pc t = .sync a x)
    (hs : m.st.stepSync e a x = .ok (s', pc')) :
    Guarded ptl (m.st.syncSections ptl a x) m.st s' := by
  cases x with
  | fill cpus hp =>
    cases cpus with
    | nil =>
      rw [← (Prod.mk.inj (Except.ok.inj hs)).1]
      exact guarded_refl _
    | cons cpu cpus =>
      obtain ⟨b, h', hpull, -⟩ := State.stepSync_fill_cons hs
      exact guarded_pullOnce hpull
  | min hp pgs =>
    simp only [State.stepSync] at hs
    split_ifs at hs
    all_goals
      rw [← (Prod.mk.inj (Except.ok.inj hs)).1]
      exact guarded_refl _
  | pull n hp pgs =>
    obtain ⟨b, h', hpull, -⟩ := State.stepSync_pull hs
    exact guarded_pullOnce hpull
  | clear p hp pgs =>
    rw [← (Prod.mk.inj (Except.ok.inj hs)).1]
    exact guarded_clearMappings _ _
  | remove p hp pgs =>
    rw [← (Prod.mk.inj (Except.ok.inj hs)).1]
    exact h.placed.guarded_remove (by simp [syncSections]) (h.mem_dirtyQueue hpc)
  | enqueue p hp pgs =>
    have hg : Guarded ptl (m.st.syncSections ptl a (.enqueue p hp pgs)) m.st
        ((m.st.enqueue (cleanQueue (m.st.pages p).index) p).2.setDirty p false) :=
      Guarded.field (f := fun t => { t with isDirty := false })
        (guarded_enqueue (by simp [syncSections])) rfl rfl rfl
    simp only [State.stepSync] at hs
    split_ifs at hs
    all_goals
      rw [← (Prod.mk.inj (Except.ok.inj hs)).1]
      exact hg
  | write hp pgs =>
    rw [← (Prod.mk.inj (Except.ok.inj hs)).1]
    exact guarded_writeBlocks _ _
  | unlock hp todo =>
    cases todo with
    | nil =>
      rw [← (Prod.mk.inj (Except.ok.inj hs)).1]
      exact guarded_refl _
    | cons p todo =>
      rw [← (Prod.mk.inj (Except.ok.inj hs)).1]
      exact guarded_unlockTp _ _

/-- Whatever a step of a thread changes is guarded by a lock that the step takes. -/
lemma Inv.guarded_stepThread (h : Inv e m) (hk : (m.pc t).ofKernel = false)
    (hs : m.st.stepThread e c (m.pc t) = .ok (s', pc')) :
    Guarded ptl (m.st.sections e ptl c (m.pc t)) m.st s' := by
  cases hpc : m.pc t with
  | idle =>
    rw [hpc] at hs
    exact absurd hs (by simp [State.stepThread])
  | get r x =>
    rw [hpc] at hs hk
    refine h.guarded_stepGet (fun p hp => ?_) hs
    rw [hp] at hk
    exact absurd hk (by simp [Pc.ofKernel])
  | mkwrite r p x =>
    rw [hpc] at hs hk
    refine h.guarded_stepMkwrite hpc (fun hx => ?_) hs
    rw [hx] at hk
    exact absurd hk (by simp [Pc.ofKernel])
  | purge ret x =>
    rw [hpc] at hs
    exact h.guarded_stepPurge hs
  | evict x =>
    rw [hpc] at hs
    exact h.guarded_stepEvict hpc hs
  | sync a x =>
    rw [hpc] at hs
    exact h.guarded_stepSync hpc hs

end Machine

end FastMap
