import FastMap.Capacity
import FastMap.Durability

/-!
# The size of the merge heap

`write_dirty_pages` keeps one page of every dirty tree in a heap whose array has `MAX_CPUS`
elements, while a pvd has a dirty tree for each online processor. This module follows the heap
through all points of the call. Other threads may do anything in between except to put a page in a
dirty tree of the pvd that is empty.
-/

namespace FastMap

variable {C : Type*}

/-- The heap at a point of `write_dirty_pages`. -/
def SyncPc.heap : SyncPc → MinHeap
  | .fill _ h => h
  | .min h _ => h
  | .pull _ h _ => h
  | .clear _ h _ => h
  | .remove _ h _ => h
  | .enqueue _ h _ => h
  | .write h _ => h
  | .unlock h _ => h

namespace State

/-- The node that a pass over one tree inserts in the heap, if the first page can be locked. -/
def toInsert (s : State C) (v : PvdId) (cpu : ℕ) : Option HeapNode :=
  match (s.trees ⟨.dirty, v, cpu⟩).first? with
  | none => none
  | some (_, p) =>
    if (s.trylockTp p ulongMax).1 = 0 then some ⟨cpu, (s.pages p).index, p⟩ else none

/-- The node that the next step inserts. -/
def insertion (s : State C) (v : PvdId) : SyncPc → Option HeapNode
  | .fill (cpu :: _) _ => s.toInsert v cpu
  | .pull hn _ _ => s.toInsert v hn.cpu
  | _ => none

/-- A dirty tree of the pvd that is empty stays so. -/
def Interferes (v : PvdId) (s s' : State C) : Prop :=
  ∀ cpu, (s.trees ⟨.dirty, v, cpu⟩).first? = none → (s'.trees ⟨.dirty, v, cpu⟩).first? = none

/-- The points that a call reaches, started in `s₀`. -/
inductive SyncReaches (e : Env C) (a : SyncArgs) (s₀ : State C) : State C → Pc → Prop
  | start : SyncReaches e a s₀ s₀ (.sync a (.fill (List.range e.ncpus) minHeapCreate))
  | step {s s' : State C} {x : SyncPc} {pc : Pc} : SyncReaches e a s₀ s (.sync a x) →
      s.stepSync e a x = .ok (s', pc) → SyncReaches e a s₀ s' pc
  | other {s s' : State C} {pc : Pc} : SyncReaches e a s₀ s pc → Interferes a.pvd s s' →
      SyncReaches e a s₀ s' pc

/-- At every point the heap holds at most one page of each online processor, and an insertion writes
inside `heap_array`. -/
def HeapBounded (e : Env C) (a : SyncArgs) (s₀ : State C) : Prop :=
  ∀ s x, SyncReaches e a s₀ s (.sync a x) →
    (x.heap.elems.map HeapNode.cpu).Nodup ∧ (∀ n ∈ x.heap.elems, n.cpu < e.ncpus) ∧
    ∀ n ∈ s.insertion a.pvd x,
      ∀ i ∈ BinHeap.written HeapNode.offset n x.heap.size x.heap.size x.heap.arr, i < maxCpus

variable {e : Env C} {a : SyncArgs} {s s' s₀ : State C} {v : PvdId} {cpu : ℕ} {h : MinHeap}
  {n : HeapNode} {x : SyncPc} {pc : Pc} {B : Finset ℕ}

/-- The other elements of the array are as they were. -/
lemma arr_minHeapInsert {h' : MinHeap} (hs : minHeapInsert h n = .ok h') {j : ℕ}
    (hj : j ∉ BinHeap.written HeapNode.offset n h.size h.size h.arr) : h'.arr j = h.arr j := by
  unfold minHeapInsert at hs
  split_ifs at hs
  rw [← Except.ok.inj hs]
  exact BinHeap.siftUp_of_not_mem_written HeapNode.offset hj

/-! ### One pass over a tree -/

/-- A pass that inserts nothing changes nothing. -/
lemma pullOnce_of_none (hn : s.toInsert v cpu = none) (h : MinHeap) :
    ∃ r, r ≠ some true ∧ s.pullOnce v cpu h = .ok (r, s, h) := by
  cases hf : (s.trees ⟨.dirty, v, cpu⟩).first? with
  | none => exact ⟨none, by simp, by simp only [pullOnce, hf]⟩
  | some kp =>
    obtain ⟨k, p⟩ := kp
    rcases s.trylockTp_cases p ulongMax with ⟨r, hr, ht⟩ | ⟨-, -, -, ht⟩
    · refine ⟨some false, by simp, ?_⟩
      simp only [pullOnce, hf, ht]
    · simp [toInsert, hf, ht] at hn

/-- A pass that inserts a node takes its page out of the tree. -/
lemma pullOnce_of_some (hn : s.toInsert v cpu = some n) (h : MinHeap) :
    n.cpu = cpu ∧ (s.trees ⟨.dirty, v, cpu⟩).first? ≠ none ∧
    (maxCpus ≤ h.size → s.pullOnce v cpu h = .error .heapOverflow) ∧
    (h.size < maxCpus → ∃ s', s.pullOnce v cpu h =
        .ok (some true, s', h.insert HeapNode.offset n) ∧
      ∀ c, c ≠ cpu → s'.trees ⟨.dirty, v, c⟩ = s.trees ⟨.dirty, v, c⟩) := by
  cases hf : (s.trees ⟨.dirty, v, cpu⟩).first? with
  | none => simp [toInsert, hf] at hn
  | some kp =>
    obtain ⟨k, p⟩ := kp
    rcases s.trylockTp_cases p ulongMax with ⟨r, hr, ht⟩ | ⟨-, -, -, ht⟩
    · simp [toInsert, hf, ht, hr] at hn
    · obtain rfl : (⟨cpu, (s.pages p).index, p⟩ : HeapNode) = n := by
        simpa [toInsert, hf, ht] using hn
      have hindex : ((s.modifyPage p fun t => { t with locked := true }).pages p).index =
          (s.pages p).index := by simp [modifyPage]
      refine ⟨rfl, by simp, ?_, ?_⟩
      · intro hfull
        simp only [pullOnce, hf, ht, minHeapInsert, if_pos hfull]
      · intro hlt
        refine ⟨_, by
          simp only [pullOnce, hf, ht, minHeapInsert, if_neg (not_le.mpr hlt), hindex]
          rfl, ?_⟩
        intro c hc
        simp [treeErase, modifyPage, hc]

/-- The node is from a tree that is still to be looked at and is not in the heap. -/
lemma insertion_scans (hn : s.insertion v x = some n) :
    (s.trees ⟨.dirty, v, n.cpu⟩).first? ≠ none ∧
      n.cpu ::ₘ x.heap.elems.map HeapNode.cpu ≤ x.scans := by
  cases x with
  | fill cpus h =>
    cases cpus with
    | nil => simp [insertion] at hn
    | cons cpu cpus =>
      obtain ⟨hcpu, hf, -⟩ := pullOnce_of_some (n := n) hn h
      rw [hcpu]
      refine ⟨hf, ?_⟩
      have hscans : (SyncPc.fill (cpu :: cpus) h).scans =
          cpu ::ₘ ((cpus : Multiset ℕ) + h.elems.map HeapNode.cpu) := by
        simp only [SyncPc.scans, ← Multiset.cons_coe, Multiset.cons_add]
      rw [hscans]
      exact Multiset.cons_le_cons cpu (Multiset.le_add_left _ _)
  | pull hp h pgs =>
    obtain ⟨hcpu, hf, -⟩ := pullOnce_of_some (n := n) hn h
    rw [hcpu]
    exact ⟨hf, le_refl _⟩
  | min h pgs | clear p h pgs | remove p h pgs | enqueue p h pgs | write h pgs | unlock h pgs =>
    simp [insertion] at hn

/-- What one step does to the heap and the trees. -/
structure Scans (a : SyncArgs) (s s' : State C) (x y : SyncPc) : Prop where
  scans_le : y.scans ≤ x.scans
  elems {n : HeapNode} : n ∈ y.heap.elems → n ∈ x.heap.elems ∨ s.insertion a.pvd x = some n
  interferes : Interferes a.pvd s s'

lemma scans_of_trees {y : SyncPc} (ht : s'.trees = s.trees) (hscans : y.scans = x.scans)
    (hheap : ∀ n ∈ y.heap.elems, n ∈ x.heap.elems) : Scans a s s' x y :=
  ⟨hscans.le, fun hn => Or.inl (hheap _ hn), fun cpu hf => by rw [ht]; exact hf⟩

/-- How a pass over a tree ends. -/
lemma pullOnce_cases {r : Option Bool} {h' : MinHeap}
    (hp : s.pullOnce v cpu h = .ok (r, s', h')) :
    (r ≠ some true ∧ s' = s ∧ h' = h) ∨
    (r = some true ∧ ∃ n, s.toInsert v cpu = some n ∧ n.cpu = cpu ∧
      h'.elems = n ::ₘ h.elems ∧ Interferes v s s') := by
  cases hn : s.toInsert v cpu with
  | none =>
    obtain ⟨r', hr', hp'⟩ := pullOnce_of_none hn h
    rw [hp'] at hp
    simp only [Except.ok.injEq, Prod.mk.injEq] at hp
    obtain ⟨rfl, rfl, rfl⟩ := hp
    exact Or.inl ⟨hr', rfl, rfl⟩
  | some n =>
    obtain ⟨hcpu, hf, hfull, hroom⟩ := pullOnce_of_some hn h
    rcases lt_or_ge h.size maxCpus with hlt | hge
    · obtain ⟨s₁, hp', htrees⟩ := hroom hlt
      rw [hp'] at hp
      simp only [Except.ok.injEq, Prod.mk.injEq] at hp
      obtain ⟨rfl, rfl, rfl⟩ := hp
      refine Or.inr ⟨rfl, n, rfl, hcpu, BinHeap.elems_insert _ _ _, ?_⟩
      intro c hc
      rw [htrees c]
      · exact hc
      · rintro rfl
        exact hf hc
    · rw [hfull hge] at hp
      exact absurd hp (by simp)

/-- A pass that inserts a node. -/
lemma mem_elems_insert {h' : MinHeap} {y : SyncPc} (hx : x.heap = h) (hy : y.heap = h')
    (helems : h'.elems = n ::ₘ h.elems) (hn : s.insertion v x = some n) {m : HeapNode}
    (hm : m ∈ y.heap.elems) : m ∈ x.heap.elems ∨ s.insertion v x = some m := by
  rw [hy, helems, Multiset.mem_cons] at hm
  rcases hm with rfl | hm
  · exact Or.inr hn
  · rw [hx]
    exact Or.inl hm

/-- The loop over the processors at the start. -/
lemma scans_fill {cpus : List ℕ} {y : SyncPc}
    (hs : s.stepSync e a (.fill (cpu :: cpus) h) = .ok (s', .sync a y)) :
    Scans a s s' (.fill (cpu :: cpus) h) y := by
  obtain ⟨b, h₁, hpull, hy⟩ := stepSync_fill_cons hs
  obtain rfl : y = _ := (Pc.sync.inj hy).2
  rcases pullOnce_cases hpull with ⟨-, rfl, rfl⟩ | ⟨rfl, n, hn, hcpu, helems, hint⟩
  · split_ifs
    · exact scans_of_trees rfl rfl fun _ hn => hn
    · refine ⟨?_, Or.inl, fun _ hf => hf⟩
      simp only [SyncPc.scans, ← Multiset.cons_coe, Multiset.cons_add]
      exact Multiset.le_cons_self _ _
  · rw [if_neg (by simp)]
    refine ⟨?_, mem_elems_insert (x := .fill (cpu :: cpus) h) (y := .fill cpus h₁) rfl rfl helems
      hn, hint⟩
    simp only [SyncPc.scans, helems, Multiset.map_cons, hcpu, ← Multiset.cons_coe,
      Multiset.cons_add, Multiset.add_cons]
    exact le_refl _

/-- Where the cleanup of a page starts, the heap is the one it is given. -/
lemma heap_startCleanup {p : PageId} {pgs : List PageId} {y : SyncPc}
    (hs : startCleanup a p h pgs = .sync a y) :
    y.heap = h ∧ y.scans = h.elems.map HeapNode.cpu := by
  unfold startCleanup at hs
  cases hcb : a.cb with
  | fsync =>
    simp only [hcb, Pc.sync.injEq, true_and] at hs
    subst hs
    exact ⟨rfl, rfl⟩
  | release =>
    simp only [hcb, Pc.sync.injEq, true_and] at hs
    subst hs
    exact ⟨rfl, rfl⟩

/-- A pass over the tree of the page that has left the heap. -/
lemma scans_pull {pgs : List PageId} {y : SyncPc}
    (hs : s.stepSync e a (.pull n h pgs) = .ok (s', .sync a y)) :
    Scans a s s' (.pull n h pgs) y := by
  obtain ⟨b, h₁, hpull, hy⟩ := stepSync_pull hs
  rcases pullOnce_cases hpull with ⟨-, rfl, rfl⟩ | ⟨rfl, n', hn, hcpu, helems, hint⟩
  · split_ifs at hy
    · obtain rfl : y = _ := (Pc.sync.inj hy).2
      exact scans_of_trees rfl rfl fun _ hn => hn
    · obtain ⟨hheap, hscans⟩ := heap_startCleanup hy.symm
      refine ⟨?_, ?_, fun _ hf => hf⟩
      · rw [hscans]
        exact Multiset.le_cons_self _ _
      · intro m hm
        rw [hheap] at hm
        exact Or.inl hm
  · rw [if_neg (by simp)] at hy
    obtain ⟨hheap, hscans⟩ := heap_startCleanup hy.symm
    refine ⟨?_, mem_elems_insert (x := .pull n h pgs) rfl hheap helems hn, hint⟩
    rw [hscans, helems, Multiset.map_cons, hcpu]
    exact le_refl _

lemma scans_stepSync_of_ok {y : SyncPc} (hs : s.stepSync e a x = .ok (s', .sync a y)) :
    Scans a s s' x y := by
  cases x with
  | fill cpus h =>
    cases cpus with
    | nil =>
      simp only [stepSync, Except.ok.injEq, Prod.mk.injEq, Pc.sync.injEq, true_and] at hs
      obtain ⟨rfl, rfl⟩ := hs
      exact scans_of_trees rfl (by simp [SyncPc.scans]) fun _ hn => hn
    | cons cpu cpus => exact scans_fill hs
  | min h pgs =>
    simp only [stepSync] at hs
    split_ifs at hs with hz hnil
    · simp at hs
    · simp only [Except.ok.injEq, Prod.mk.injEq, Pc.sync.injEq, true_and] at hs
      obtain ⟨rfl, rfl⟩ := hs
      exact scans_of_trees rfl rfl fun _ hn => hn
    · cases hd : minHeapDeleteMin h with
      | mk hn h₁ =>
        simp only [hd, Except.ok.injEq, Prod.mk.injEq, Pc.sync.injEq, true_and] at hs
        obtain ⟨rfl, rfl⟩ := hs
        have helems := heapPages_deleteMin hz hd
        apply scans_of_trees rfl
        · simp only [SyncPc.scans, helems, Multiset.map_cons]
        · intro m hm
          rw [SyncPc.heap, helems]
          exact Multiset.mem_cons_of_mem hm
  | pull n h pgs => exact scans_pull hs
  | clear p h pgs =>
    simp only [stepSync, Except.ok.injEq, Prod.mk.injEq, Pc.sync.injEq, true_and] at hs
    obtain ⟨rfl, rfl⟩ := hs
    exact scans_of_trees (sameTags_clearMappings s p).trees rfl fun _ hn => hn
  | remove p h pgs =>
    simp only [stepSync, Except.ok.injEq, Prod.mk.injEq, Pc.sync.injEq, true_and] at hs
    obtain ⟨rfl, rfl⟩ := hs
    exact scans_of_trees rfl rfl fun _ hn => hn
  | enqueue p h pgs =>
    have htrees : ((s.enqueue (cleanQueue (s.pages p).index) p).2.setDirty p false).trees =
        s.trees := by
      simp only [enqueue]
      split_ifs <;> rfl
    simp only [stepSync] at hs
    split_ifs at hs
    all_goals
      simp only [Except.ok.injEq, Prod.mk.injEq, Pc.sync.injEq, true_and] at hs
      obtain ⟨rfl, rfl⟩ := hs
      exact scans_of_trees htrees rfl fun _ hn => hn
  | write h pgs =>
    simp only [stepSync, Except.ok.injEq, Prod.mk.injEq, Pc.sync.injEq, true_and] at hs
    obtain ⟨rfl, rfl⟩ := hs
    exact scans_of_trees rfl rfl fun _ hn => hn
  | unlock h todo =>
    cases todo
    all_goals
      simp only [stepSync, Except.ok.injEq, Prod.mk.injEq, Pc.sync.injEq, true_and] at hs
      obtain ⟨rfl, rfl⟩ := hs
      exact scans_of_trees rfl rfl fun _ hn => hn

/-! ### Enough room -/

/-- Only the trees of the processors `B` have pages, and the heap holds pages of theirs. -/
structure Scanning (e : Env C) (v : PvdId) (B : Finset ℕ) (s : State C) (x : SyncPc) : Prop where
  empty {cpu : ℕ} : cpu < e.ncpus → cpu ∉ B → (s.trees ⟨.dirty, v, cpu⟩).first? = none
  nodup : x.scans.Nodup
  lt {cpu : ℕ} : cpu ∈ x.scans → cpu < e.ncpus
  heap {n : HeapNode} : n ∈ x.heap.elems → n.cpu ∈ B

namespace Scanning

lemma insertion_mem (hx : Scanning e v B s x) (hn : s.insertion v x = some n) : n.cpu ∈ B := by
  obtain ⟨hf, hle⟩ := insertion_scans hn
  by_contra hmem
  exact hf (hx.empty (hx.lt (Multiset.mem_of_le hle (Multiset.mem_cons_self _ _))) hmem)

lemma step {y : SyncPc} (hx : Scanning e a.pvd B s x) (hs : Scans a s s' x y) :
    Scanning e a.pvd B s' y := by
  constructor
  · intro cpu hcpu hmem
    exact hs.interferes cpu (hx.empty hcpu hmem)
  · exact Multiset.nodup_of_le hs.scans_le hx.nodup
  · intro cpu hcpu
    exact hx.lt (Multiset.mem_of_le hs.scans_le hcpu)
  · intro n hn
    rcases hs.elems hn with hn | hn
    · exact hx.heap hn
    · exact hx.insertion_mem hn

/-- The heap and the node that joins it have different processors of `B`. -/
lemma size_lt (hx : Scanning e v B s x) (hn : s.insertion v x = some n) : x.heap.size < B.card := by
  have hnodup := Multiset.nodup_of_le (insertion_scans hn).2 hx.nodup
  have hsub : n.cpu ::ₘ x.heap.elems.map HeapNode.cpu ≤ B.val := by
    apply (Multiset.le_iff_subset hnodup).mpr
    intro c hc
    rcases Multiset.mem_cons.mp hc with rfl | hc
    · exact hx.insertion_mem hn
    · obtain ⟨m, hm, rfl⟩ := Multiset.mem_map.mp hc
      exact hx.heap hm
  have hcard := Multiset.card_le_card hsub
  simp only [Multiset.card_cons, Multiset.card_map, BinHeap.elems, Multiset.card_range] at hcard
  exact hcard

/-- The heap is a part of what is still to be looked at. -/
lemma heap_le (x : SyncPc) : x.heap.elems.map HeapNode.cpu ≤ x.scans := by
  cases x with
  | fill cpus h => exact Multiset.le_add_left _ _
  | pull n h pgs => exact Multiset.le_cons_self _ _
  | min h pgs | clear p h pgs | remove p h pgs | enqueue p h pgs | write h pgs | unlock h pgs =>
    exact le_refl _

end Scanning

lemma scanning_start (e : Env C) (s : State C) (v : PvdId) :
    Scanning e v (s.busyCpus e v) s (.fill (List.range e.ncpus) minHeapCreate) := by
  have helems : minHeapCreate.elems = 0 := rfl
  constructor
  · intro cpu hcpu hmem
    rw [← KeyMap.size_eq_zero]
    by_contra hne
    exact hmem (Finset.mem_filter.mpr ⟨Finset.mem_range.mpr hcpu, hne⟩)
  · simpa [SyncPc.scans, helems] using List.nodup_range
  · simp [SyncPc.scans, helems]
  · intro n hn
    rw [SyncPc.heap, helems] at hn
    exact absurd hn (Multiset.notMem_zero n)

/-- At every point of a call. -/
lemma SyncReaches.scanning (hr : SyncReaches e a s₀ s pc) :
    ∀ x, pc = .sync a x → Scanning e a.pvd (s₀.busyCpus e a.pvd) s x := by
  induction hr with
  | start =>
    intro x hx
    obtain rfl := (Pc.sync.inj hx).2
    exact scanning_start e s₀ a.pvd
  | step _ hs ih =>
    intro y hy
    subst hy
    exact (ih _ rfl).step (scans_stepSync_of_ok hs)
  | other _ hi ih =>
    intro x hx
    have hscan := ih x hx
    exact { hscan with empty := fun hcpu hmem => hi _ (hscan.empty hcpu hmem) }

/-! ### No room -/

/-- All pages can be locked. -/
def unlockAll (s : State C) : State C :=
  { s with pages := fun p => { s.pages p with inUse := true, locked := false } }

lemma toInsert_unlockAll (hf : (s.trees ⟨.dirty, v, cpu⟩).size ≠ 0) :
    ∃ n, s.unlockAll.toInsert v cpu = some n := by
  cases hfirst : (s.trees ⟨.dirty, v, cpu⟩).first? with
  | none => exact absurd (KeyMap.size_eq_zero.mpr hfirst) hf
  | some kp =>
    refine ⟨⟨cpu, (s.pages kp.2).index, kp.2⟩, ?_⟩
    simp [toInsert, hfirst, trylockTp, unlockAll]

/-- A call that takes pages from more than `MAX_CPUS` trees comes to an insertion with a full
heap. -/
lemma SyncReaches.overflow {cpus : List ℕ}
    (hr : SyncReaches e a s₀ s (.sync a (.fill cpus h))) (hnodup : cpus.Nodup)
    (hcount : maxCpus < h.size +
      (cpus.filter fun cpu => (s.trees ⟨.dirty, a.pvd, cpu⟩).size ≠ 0).length)
    (hle : h.size ≤ maxCpus) :
    ∃ s x n, SyncReaches e a s₀ s (.sync a x) ∧ s.insertion a.pvd x = some n ∧
      maxCpus ≤ x.heap.size := by
  induction cpus generalizing s h with
  | nil => exact absurd hcount (by simpa using hle)
  | cons cpu cpus ih =>
    obtain ⟨hcpu, hnodup⟩ := List.nodup_cons.mp hnodup
    by_cases hz : (s.trees ⟨.dirty, a.pvd, cpu⟩).size = 0
    · -- an empty tree is passed over
      have hfirst := KeyMap.size_eq_zero.mp hz
      have hstep : s.stepSync e a (.fill (cpu :: cpus) h) = .ok (s, .sync a (.fill cpus h)) := by
        simp only [stepSync, pullOnce, hfirst]
      apply ih (hr.step hstep) hnodup _ hle
      simpa [hz] using hcount
    · have hr' : SyncReaches e a s₀ s.unlockAll (.sync a (.fill (cpu :: cpus) h)) :=
        hr.other fun _ hf => hf
      obtain ⟨n, hn⟩ := toInsert_unlockAll hz
      rcases hle.lt_or_eq with hlt | heq
      · obtain ⟨-, -, -, hroom⟩ := pullOnce_of_some hn h
        obtain ⟨s', hp, htrees⟩ := hroom hlt
        have hstep : s.unlockAll.stepSync e a (.fill (cpu :: cpus) h) =
            .ok (s', .sync a (.fill cpus (h.insert HeapNode.offset n))) := by
          simp only [stepSync, hp]
        apply ih (hr'.step hstep) hnodup _ hlt
        have hsame : (cpus.filter fun c => (s'.trees ⟨.dirty, a.pvd, c⟩).size ≠ 0) =
            cpus.filter fun c => (s.trees ⟨.dirty, a.pvd, c⟩).size ≠ 0 := by
          apply List.filter_congr
          intro c hc
          rw [htrees c]
          · rfl
          · rintro rfl
            exact hcpu hc
        rw [hsame, BinHeap.size_insert]
        simpa [hz, Nat.add_assoc, Nat.add_comm 1] using hcount
      · exact ⟨_, _, n, hr', hn, heq.ge⟩

lemma HeapBounded.card_le (hb : HeapBounded e a s₀) : (s₀.busyCpus e a.pvd).card ≤ maxCpus := by
  by_contra hlt
  rw [not_le] at hlt
  have hcount : maxCpus < minHeapCreate.size +
      ((List.range e.ncpus).filter fun cpu => (s₀.trees ⟨.dirty, a.pvd, cpu⟩).size ≠ 0).length := by
    have hsize : minHeapCreate.size = 0 := rfl
    rw [hsize, Nat.zero_add]
    exact hlt
  obtain ⟨s, x, n, hr, hn, hfull⟩ :=
    (SyncReaches.start (e := e) (a := a)).overflow List.nodup_range hcount (Nat.zero_le _)
  have hwritten := (hb s x hr).2.2 n hn
  rw [BinHeap.written_lt_iff] at hwritten
  exact absurd hfull (not_le.mpr hwritten)

/-- The heap stays within its array if and only if at most `MAX_CPUS` processors have a dirty tree
of the pvd that is not empty when the call is made. -/
theorem heapBounded_iff (e : Env C) (a : SyncArgs) (s₀ : State C) :
    HeapBounded e a s₀ ↔ (s₀.busyCpus e a.pvd).card ≤ maxCpus := by
  constructor
  · exact HeapBounded.card_le
  · intro hcard s x hr
    have hscan := hr.scanning x rfl
    have hle := Scanning.heap_le x
    refine ⟨Multiset.nodup_of_le hle hscan.nodup, ?_, ?_⟩
    · intro n hn
      exact hscan.lt (Multiset.mem_of_le hle (Multiset.mem_map_of_mem HeapNode.cpu hn))
    · intro n hn
      rw [BinHeap.written_lt_iff]
      exact (hscan.size_lt hn).trans_le hcard

/-- A machine with 65 processors. -/
def wideEnv : Env ℕ :=
  { smallEnv with ncpus := 65, ncpus_pos := by decide, bufSize := 65, bufSize_lt := by decide }

/-- Page `i` of a file is dirty, for each `i < 65`. -/
def wideDirty : State ℕ :=
  { initParams wideEnv smallWorld with
    pages := fun p =>
      { TaggedPage.init 0 with
        index := p, pvd := some 0, isDirty := true, bufferId := .biDirty, inUse := true }
    trees := fun t =>
      if t.pvd = 0 ∧ t.cpu < 65 then KeyMap.empty.insertNew t.cpu t.cpu else .empty }

/-- The page of the last tree does not fit in the heap. -/
theorem no_room_for_65 : ¬ ∀ (e : Env ℕ) (a : SyncArgs) (s₀ : State ℕ), e.ncpus ≤ 128 →
    HeapBounded e a s₀ := by
  intro hall
  have hcard := (hall wideEnv ⟨.fsync, 0⟩ wideDirty (by decide)).card_le
  revert hcard
  decide +kernel

/-! ### Room for a step -/

/-- The next step of a thread finds room in the array that it writes: a slot in the page that a
fault maps, and a place in the heap of a write-back. -/
def RoomFor (s : State C) : Pc → Prop
  | .get r (.done p) => s.HasSlot r.vmf.vma p
  | .sync a x => ∀ n ∈ s.insertion a.pvd x, x.heap.size < maxCpus
  | _ => True

/-- A step of a write-back overruns the heap when it is to insert a node in a full one. -/
lemma overruns_stepSync_iff :
    Overruns (s.stepSync e a x) ↔ ∃ n, s.insertion a.pvd x = some n ∧ maxCpus ≤ x.heap.size := by
  have hpull : ∀ cpu (h : MinHeap), Overruns (s.pullOnce a.pvd cpu h) ↔
      ∃ n, s.toInsert a.pvd cpu = some n ∧ maxCpus ≤ h.size := by
    intro cpu h
    cases hn : s.toInsert a.pvd cpu with
    | none =>
      obtain ⟨r, -, hp⟩ := pullOnce_of_none hn h
      simp [hp]
    | some n =>
      obtain ⟨-, -, hfull, hroom⟩ := pullOnce_of_some hn h
      rcases lt_or_ge h.size maxCpus with hlt | hge
      · obtain ⟨s', hp, -⟩ := hroom hlt
        simp [hp, hlt]
      · simp [hfull hge, Overruns, hge]
  -- what a pass is followed by does not fail
  have hthen : ∀ {cpu h} {r : Except Halt (State C × Pc)},
      (∀ y, s.pullOnce a.pvd cpu h = .error y → r = .error y) →
      (∀ z, s.pullOnce a.pvd cpu h = .ok z → ∃ w, r = .ok w) →
      (Overruns r ↔ Overruns (s.pullOnce a.pvd cpu h)) := by
    intro cpu h r herr hok
    cases hp : s.pullOnce a.pvd cpu h with
    | error y => simp [herr y hp, Overruns]
    | ok z =>
      obtain ⟨w, hw⟩ := hok z hp
      simp [hw]
  cases x with
  | fill cpus h =>
    cases cpus with
    | nil => simp [stepSync, insertion]
    | cons cpu cpus =>
      refine (hthen ?_ ?_).trans (hpull cpu h)
      · intro y hy
        simp only [stepSync, hy]
      · rintro ⟨b, t, h'⟩ hz
        simp only [stepSync, hz]
        split <;> simp_all
  | pull n h pgs =>
    refine (hthen ?_ ?_).trans (hpull n.cpu h)
    · intro y hy
      simp only [stepSync, hy]
    · rintro ⟨b, t, h'⟩ hz
      simp only [stepSync, hz]
      split <;> simp_all
  | min h pgs =>
    simp only [stepSync, insertion]
    split_ifs <;> simp
  | enqueue p h pgs =>
    simp only [stepSync, insertion]
    split_ifs <;> simp
  | unlock h todo => cases todo <;> simp [stepSync, insertion]
  | clear p h pgs | remove p h pgs | write h pgs => simp [stepSync, insertion]

/-- A step overruns an array exactly when it does not find room there. -/
lemma overruns_stepThread_iff {c : Choice C} :
    Overruns (s.stepThread e c pc) ↔ ¬ s.RoomFor pc := by
  cases pc with
  | idle => simp [stepThread, RoomFor, Overruns]
  | get r y =>
    cases y with
    | lookup | alloc | insert p | lock p =>
      simp only [stepThread, stepGet, RoomFor, not_true_eq_false, iff_false]
      split <;> exact not_overruns_ok _
    | valid p =>
      simp only [stepThread, stepGet, RoomFor, not_true_eq_false, iff_false]
      split_ifs
      · exact not_overruns_ok _
      · exact not_overruns_error (by simp) (by simp)
    | done p =>
      simp only [stepThread, stepGet, RoomFor]
      rw [← @dmapAddOrUpdateRmap_overflow_iff _ _ _ _ c.cpu]
      cases hr : s.dmapAddOrUpdateRmap r.vmf p c.cpu with
      | error x =>
        rcases dmapAddOrUpdateRmap_error hr with rfl | rfl <;> simp [Overruns, Except.map]
      | ok t => simp [Except.map]
    | fresh p | rollback p | enqueue p | io p | map p => simp [stepThread, stepGet, RoomFor]
  | mkwrite r p y =>
    simp only [stepThread, RoomFor, not_true_eq_false, iff_false]
    cases y with
    | lock =>
      simp only [stepMkwrite]
      split <;> exact not_overruns_ok _
    | dirty =>
      simp only [stepMkwrite]
      split_ifs
      · exact not_overruns_ok _
      · exact not_overruns_error (by simp) (by simp)
      · exact not_overruns_ok _
    | insert | remove | enqueue | map => exact not_overruns_ok _
  | purge ret y =>
    simp only [stepThread, RoomFor, not_true_eq_false, iff_false]
    cases y with
    | take qid n pgs =>
      cases n with
      | zero => exact not_overruns_ok _
      | succ n =>
        simp only [stepPurge]
        split <;> exact not_overruns_ok _
    | delete qid n pgs p =>
      simp only [stepPurge]
      split
      · exact not_overruns_error (by simp) (by simp)
      · exact not_overruns_ok _
    | unmap qid n pgs p => exact not_overruns_ok _
    | free pgs => cases pgs <;> exact not_overruns_ok _
  | evict y =>
    simp only [stepThread, RoomFor, not_true_eq_false, iff_false]
    cases y with
    | take id | grab d q =>
      simp only [stepEvict]
      split <;> exact not_overruns_ok _
    | untree id p =>
      simp only [stepEvict]
      split
      · exact not_overruns_error (by simp) (by simp)
      · exact not_overruns_ok _
    | scan d =>
      simp only [stepEvict]
      split_ifs
      · exact not_overruns_ok _
      · split <;> exact not_overruns_ok _
    | insert v done todo => cases todo <;> exact not_overruns_ok _
    | unlock todo => cases todo <;> exact not_overruns_ok _
    | back d q | clear v pgs | write v pgs => exact not_overruns_ok _
  | sync a y =>
    simp only [stepThread, RoomFor, overruns_stepSync_iff]
    simp

end State

namespace Machine

variable {e : Env C} {m m' : Machine C} {l : Tid × Act C}

/-- A step at which nobody waits for the page that is allocated, and which finds room in the array
that it writes. -/
def StepsInRoom (e : Env C) (m : Machine C) (l : Tid × Act C) (m' : Machine C) : Prop :=
  m.st.RoomFor (m.pc l.1) ∧ StepsUnclaimed e m l m'

/-- A step that goes through has found room. -/
lemma StepsUnclaimed.inRoom (hs : StepsUnclaimed e m l m') : StepsInRoom e m l m' := by
  refine ⟨?_, hs⟩
  rcases steps_cases hs.2 with ⟨k, pc', -, hidle, -, -⟩ | ⟨c, s', pc', -, hst, -⟩
  · rw [hidle]
    trivial
  · by_contra hno
    have hover := (State.overruns_stepThread_iff (e := e) (c := c)).mpr hno
    rw [hst] at hover
    exact not_overruns_ok _ hover

end Machine

end FastMap
