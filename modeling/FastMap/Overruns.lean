import FastMap.Capacity

/-!
# Calls that overrun an array

`min_heap_insert` and `dmap_add_or_update_rmap` write outside their array without notice, and the
call goes on. Here it is followed past such a write. `heap_size` has the place of the node behind
`heap_array`: a heap of `MAX_CPUS` nodes forgets the next one, and `write_dirty_pages` returns with
a page that is dirty and in no dirty tree. A slot before the first one of a page is nobody's, and
the page is mapped without a slot. The records of dirtiness agree as long as the heap has room.
-/

namespace FastMap

variable {C : Type*}

/-! ### The page of the heap -/

/-- The page that `min_heap_create` gets, as a list of nodes. The first `MAX_CPUS` of them are
`heap_array`, and the `cpu` of the next one has the place of `heap_size`. -/
abbrev HeapPage := List HeapNode

namespace HeapPage

/-- The nodes of 24 bytes that a page has room for. -/
def pageNodes : ℕ := 170

def node (m : HeapPage) (i : ℕ) : HeapNode := m.getD i ⟨0, 0, 0⟩

/-- `heap_size` -/
def heapSize (m : HeapPage) : ℕ := (node m maxCpus).cpu

/-- Assignment to `heap_size`. -/
def setHeapSize (m : HeapPage) (n : ℕ) : HeapPage :=
  m.set maxCpus { node m maxCpus with cpu := n }

/-- `min_heap_create`. Behind `heap_size` the page keeps the `junk` that it held. -/
def create (junk : ℕ → HeapNode) : HeapPage :=
  setHeapSize ((List.range pageNodes).map fun i => if i < maxCpus then ⟨0, 0, 0⟩ else junk i) 0

/-- The loop of `min_heap_insert` and the assignments after it. -/
def siftUp (n : HeapNode) : ℕ → ℕ → HeapPage → HeapPage
  | 0, i, m => m.set i n
  | fuel + 1, i, m =>
    let q := node m (BinHeap.parent i)
    if i ≠ 0 ∧ n.offset < q.offset then siftUp n fuel (BinHeap.parent i) (m.set i q)
    else m.set i n

/-- `min_heap_insert`; the size is increased before the node is written. -/
def insert (m : HeapPage) (n : HeapNode) : HeapPage :=
  siftUp n (heapSize m) (heapSize m) (setHeapSize m (heapSize m + 1))

/-- `swap(heap_array[i], heap_array[j])` -/
def swap (m : HeapPage) (i j : ℕ) : HeapPage := (m.set i (node m j)).set j (node m i)

/-- `min_heap_heapify`, which reads `heap_size` anew in each call. The index doubles from call to
call and stays below an `int`, so no more than 32 calls are nested. -/
def heapify : ℕ → ℕ → HeapPage → HeapPage
  | 0, _, m => m
  | fuel + 1, i, m =>
    let j := BinHeap.smallest HeapNode.offset (heapSize m) i (node m)
    if j ≠ i then heapify fuel j (swap m i j) else m

/-- `min_heap_delete_min` of a heap that is not empty. -/
def deleteMin (m : HeapPage) : HeapNode × HeapPage :=
  let n := heapSize m - 1
  let m' := setHeapSize m n
  (node m 0, heapify maxCpus 0 (m'.set 0 (node m' n)))

end HeapPage

namespace State

/-! ### The calls -/

/-- `pullTree` with the heap in its page. -/
def pullTreeUnchecked (s : State C) (v : PvdId) (cpu : ℕ) (m : HeapPage) :
    Except Halt (State C × HeapPage) :=
  match (s.trees ⟨.dirty, v, cpu⟩).first? with
  | none => .ok (s, m)
  | some (k, p) =>
    match s.trylockTp p ulongMax with
    | (0, s) =>
      .ok (s.treeErase ⟨.dirty, v, cpu⟩ k, HeapPage.insert m ⟨cpu, (s.pages p).index, p⟩)
    | _ => .error .spin

/-- The loop that takes one page from each dirty tree. -/
def fillHeapUnchecked (v : PvdId) :
    List ℕ → State C → HeapPage → Except Halt (State C × HeapPage)
  | [], s, m => .ok (s, m)
  | cpu :: cpus, s, m =>
    match s.pullTreeUnchecked v cpu m with
    | .error x => .error x
    | .ok (s, m) => fillHeapUnchecked v cpus s m

/-- The main loop of `write_dirty_pages`, for as many rounds as there is fuel. -/
def drainUnchecked (e : Env C) (cb : Cleanup) (v : PvdId) :
    ℕ → HeapPage → List PageId → State C → Except Halt (State C)
  | 0, _, _, _ => .error .spin
  | fuel + 1, m, pgs, s =>
    if HeapPage.heapSize m = 0 then .ok (if pgs = [] then s else s.flush e v pgs)
    else
      match HeapPage.deleteMin m with
      | (hn, m) =>
        match s.pullTreeUnchecked v hn.cpu m with
        | .error x => .error x
        | .ok (s, m) =>
          let s := pageCleanup cb s hn.p
          let pgs := pgs ++ [hn.p]
          if pgs.length = 512 then drainUnchecked e cb v fuel m [] (s.flush e v pgs)
          else drainUnchecked e cb v fuel m pgs s

/-- `write_dirty_pages` -/
def writeDirtyPagesUnchecked (e : Env C) (junk : ℕ → HeapNode) (fuel : ℕ) (cb : Cleanup)
    (s : State C) (v : PvdId) : Except Halt (State C) :=
  match fillHeapUnchecked v (List.range e.ncpus) s (HeapPage.create junk) with
  | .error x => .error x
  | .ok (s, m) => drainUnchecked e cb v fuel m [] s

/-- `raw_release` -/
def rawReleaseUnchecked (e : Env C) (junk : ℕ → HeapNode) (fuel : ℕ) (s : State C) (v : PvdId) :
    Except Halt (State C) :=
  match s.writeDirtyPagesUnchecked e junk fuel .release v with
  | .error x => .error x
  | .ok s => clearRadix e v rawReleasePage (s.treeSize e .rdx v) s

/-- A fault on a page that has no slot left. `rmap[-1]` lies in the padding in front of the record
of the page: the page is mapped, and in no slot of it. A page that has just been allocated has all
its slots, so the page is one that the radix tree has. -/
def mapUnrecorded (e : Env C) (s : State C) (vma : VmaId) (i : ℕ) (f : FaultEnv C) :
    Except Halt (State C) :=
  match s.vmaPvd vma, (s.infos (s.vmas vma).info).pve with
  | some v, some _ =>
    match findPage e v (s.vmFault vma i).pgoff f.attempts s with
    | .ok (p, true, t) => .ok (t.finishFault (s.vmFault vma i) p)
    | .ok (_, false, _) => .error .notIssued
    | .error x => .error x
  | _, _ => .error .nullDeref

/-- A read fault. -/
def faultUnchecked (e : Env C) (s : State C) (vma : VmaId) (i : ℕ) (f : FaultEnv C) :
    Except Halt (State C) :=
  match s.fault e vma i f with
  | .error .rmapOverflow => s.mapUnrecorded e vma i f
  | r => r

/-- A call, followed past a write outside an array; `junk` is what the page of the heap held, and
`fuel` the number of rounds of the main loop. -/
def execUnchecked (e : Env C) (junk : ℕ → HeapNode) (fuel : ℕ) (s : State C) :
    Op C → Except Halt (State C)
  | .fault vma i f => s.faultUnchecked e vma i f
  | .writeDirty cb v => s.writeDirtyPagesUnchecked e junk fuel cb v
  | .rawRelease v => s.rawReleaseUnchecked e junk fuel v
  | op => s.exec e op

/-- A call that returns, whatever it has overrun. -/
def Returns (e : Env C) (s : State C) (op : Op C) (s' : State C) : Prop :=
  s.issued e op = true ∧ ∃ junk fuel, s.execUnchecked e junk fuel op = .ok s'

/-- A write-back finds no more dirty trees with pages than the heap has room for. -/
def WriteFits (e : Env C) (s : State C) : Op C → Prop
  | .writeDirty _ v => s.SyncFits e v
  | .rawRelease v => s.SyncFits e v
  | _ => True

/-- A call that returns, and does not overrun the heap. -/
def ReturnsInRoom (e : Env C) (s : State C) (op : Op C) (s' : State C) : Prop :=
  s.WriteFits e op ∧ s.Returns e op s'

end State

/-! ### A heap with room -/

/-- The page holds the heap. -/
structure HeapPage.Holds (m : HeapPage) (h : MinHeap) : Prop where
  room : maxCpus < m.length
  size : HeapPage.heapSize m = h.size
  size_le : h.size ≤ maxCpus
  node : ∀ i < maxCpus, HeapPage.node m i = h.arr i

namespace HeapPage.Holds

open BinHeap (parent smallest)

variable {m : HeapPage} {h : MinHeap} {i k : ℕ}

/-- Assignment to an element of `heap_array`. -/
lemma set (hm : Holds m h) (hi : i < maxCpus) (x : HeapNode) :
    Holds (m.set i x) ⟨Function.update h.arr i x, h.size⟩ where
  room := by simpa using hm.room
  size := by
    rw [← hm.size]
    simp [heapSize, HeapPage.node, hi.ne]
  size_le := hm.size_le
  node j hj := by
    have hlen := hi.trans hm.room
    have hnode := hm.node j hj
    simp only [HeapPage.node, List.getD_eq_getElem?_getD, Function.update_apply] at hnode ⊢
    by_cases hji : j = i
    · subst hji
      simp [hlen]
    · rw [List.getElem?_set_ne (Ne.symm hji), if_neg hji, hnode]

lemma setHeapSize (hm : Holds m h) (hk : k ≤ maxCpus) :
    Holds (HeapPage.setHeapSize m k) ⟨h.arr, k⟩ where
  room := by simpa [HeapPage.setHeapSize] using hm.room
  size := by simp [heapSize, HeapPage.setHeapSize, HeapPage.node, hm.room]
  size_le := hk
  node j hj := by
    rw [← hm.node j hj]
    simp [HeapPage.setHeapSize, HeapPage.node, List.getElem?_set_ne hj.ne']

lemma create (junk : ℕ → HeapNode) : Holds (HeapPage.create junk) minHeapCreate := by
  have hlen : maxCpus < pageNodes := by decide
  have hmem : ∀ i < maxCpus, HeapPage.node ((List.range pageNodes).map fun i =>
      if i < maxCpus then ⟨0, 0, 0⟩ else junk i) i = ⟨0, 0, 0⟩ := by
    intro i hi
    simp [HeapPage.node, hi.trans hlen, hi]
  constructor
  · simpa [HeapPage.create, HeapPage.setHeapSize] using hlen
  · simp [HeapPage.create, heapSize, HeapPage.setHeapSize, HeapPage.node, hlen, minHeapCreate]
  · exact Nat.zero_le _
  · intro i hi
    rw [HeapPage.create]
    have := hmem i hi
    simp only [HeapPage.setHeapSize, HeapPage.node, List.getD_eq_getElem?_getD,
      List.getElem?_set_ne hi.ne'] at this ⊢
    exact this

lemma siftUp {fuel : ℕ} (hm : Holds m h) (hi : i < maxCpus) (n : HeapNode) :
    Holds (HeapPage.siftUp n fuel i m)
      ⟨BinHeap.siftUp HeapNode.offset n fuel i h.arr, h.size⟩ := by
  induction fuel generalizing i m h with
  | zero => exact hm.set hi n
  | succ fuel ih =>
    have hp : parent i < maxCpus := (show parent i ≤ i by unfold parent; omega).trans_lt hi
    simp only [HeapPage.siftUp, BinHeap.siftUp, hm.node _ hp]
    split_ifs
    · exact ih (hm.set hi _) hp
    · exact hm.set hi n

lemma insert (hm : Holds m h) (hlt : h.size < maxCpus) (n : HeapNode) :
    Holds (HeapPage.insert m n) (h.insert HeapNode.offset n) := by
  have hset := hm.setHeapSize (k := h.size + 1) hlt
  rw [HeapPage.insert, hm.size]
  exact hset.siftUp hlt n

lemma siftUp_of_le {fuel : ℕ} {n : HeapNode}
    (hle : (HeapPage.node m (parent i)).offset ≤ n.offset) :
    HeapPage.siftUp n fuel i m = m.set i n := by
  cases fuel with
  | zero => rfl
  | succ fuel => exact if_neg fun hc => hle.not_gt hc.2

/-- A full heap loses a node of processor `MAX_CPUS` that belongs at its end: the `cpu` of the node
takes the place of the size. -/
lemma insert_full (hm : Holds m h) (hfull : h.size = maxCpus) {n : HeapNode}
    (hcpu : n.cpu = maxCpus) (hmax : ∀ a ∈ h.elems, a.offset ≤ n.offset) : Holds (HeapPage.insert m n) h := by
  have hlt : parent maxCpus < maxCpus := by decide
  have hq : HeapPage.node (HeapPage.setHeapSize m (maxCpus + 1)) (parent maxCpus) =
      h.arr (parent maxCpus) := by
    rw [← hm.node _ hlt]
    simp [HeapPage.setHeapSize, HeapPage.node, List.getElem?_set_ne hlt.ne']
  have hle : (h.arr (parent maxCpus)).offset ≤ n.offset :=
    hmax _ (Multiset.mem_map_of_mem _ (Multiset.mem_range.mpr (hfull ▸ hlt)))
  have hins : HeapPage.insert m n = (HeapPage.setHeapSize m (maxCpus + 1)).set maxCpus n := by
    rw [HeapPage.insert, hm.size, hfull]
    exact siftUp_of_le (by rw [hq]; exact hle)
  rw [hins]
  constructor
  · simpa [HeapPage.setHeapSize] using hm.room
  · simp [heapSize, HeapPage.setHeapSize, HeapPage.node, hm.room, hcpu, hfull]
  · exact hm.size_le
  · intro j hj
    rw [← hm.node j hj]
    simp [HeapPage.setHeapSize, HeapPage.node, List.getElem?_set_ne hj.ne']

lemma swap (hm : Holds m h) (hi : i < maxCpus) (hk : k < maxCpus) :
    Holds (HeapPage.swap m i k) ⟨BinHeap.swap h.arr i k, h.size⟩ := by
  rw [HeapPage.swap, hm.node i hi, hm.node k hk]
  exact (hm.set hi _).set hk _

lemma smallest_eq (hm : Holds m h) (i : ℕ) :
    smallest HeapNode.offset (heapSize m) i (HeapPage.node m) =
      smallest HeapNode.offset h.size i h.arr := by
  rw [hm.size]
  exact BinHeap.smallest_congr HeapNode.offset hm.node hm.size_le

/-- A recursion that stays in the heap does not change the size that it reads. -/
lemma heapify {fuel fuel' : ℕ} (hm : Holds m h) (hf : h.size ≤ i + fuel)
    (hf' : h.size ≤ i + fuel') :
    Holds (HeapPage.heapify fuel i m)
      ⟨BinHeap.heapify HeapNode.offset h.size fuel' i h.arr, h.size⟩ := by
  induction fuel generalizing fuel' i m h with
  | zero =>
    have hself : smallest HeapNode.offset h.size i h.arr = i := by
      by_contra hne
      have := BinHeap.smallest_bounds h.arr hne
      omega
    cases fuel' with
    | zero => exact hm
    | succ fuel' =>
      simp only [HeapPage.heapify, BinHeap.heapify, hself, ne_eq, not_true_eq_false, if_false]
      exact hm
  | succ fuel ih =>
    simp only [HeapPage.heapify, hm.smallest_eq]
    by_cases hself : smallest HeapNode.offset h.size i h.arr = i
    · rw [if_neg (not_not.mpr hself)]
      cases fuel' with
      | zero => exact hm
      | succ fuel' =>
        simp only [BinHeap.heapify, hself, ne_eq, not_true_eq_false, if_false]
        exact hm
    · obtain ⟨hlt, hn⟩ := BinHeap.smallest_bounds h.arr hself
      have hle := hm.size_le
      rw [if_pos hself]
      cases fuel' with
      | zero => omega
      | succ fuel' =>
        simp only [BinHeap.heapify, ne_eq, hself, not_false_eq_true, if_true]
        exact ih (hm.swap (hlt.trans (hn.trans_le hle)) (hn.trans_le hle)) (by dsimp only; omega)
          (by dsimp only; omega)

lemma deleteMin (hm : Holds m h) (h0 : h.size ≠ 0) :
    (HeapPage.deleteMin m).1 = (minHeapDeleteMin h).1 ∧
      Holds (HeapPage.deleteMin m).2 (minHeapDeleteMin h).2 := by
  have hle := hm.size_le
  have hn : h.size - 1 < maxCpus := by omega
  have hzero : 0 < maxCpus := by decide
  have hset := hm.setHeapSize (k := h.size - 1) hn.le
  constructor
  · exact hm.node 0 hzero
  · have hlast := hset.set hzero (h.arr (h.size - 1))
    simp only [HeapPage.deleteMin, hm.size, hset.node _ hn]
    exact hlast.heapify (by dsimp only; omega) (by dsimp only; omega)

end HeapPage.Holds

namespace State

open HeapPage (Holds)

variable {e : Env C} {s s' t : State C} {v : PvdId} {cb : Cleanup} {m m' : HeapPage}
  {h h' : MinHeap} {fuel : ℕ}

lemma pullTreeUnchecked_ok (hm : m.Holds h) {cpu : ℕ} (hs : s.pullTree v cpu h = .ok (s', h')) :
    ∃ m', s.pullTreeUnchecked v cpu m = .ok (s', m') ∧ Holds m' h' := by
  simp only [pullTree] at hs
  split at hs
  · rename_i hfirst
    obtain ⟨rfl, rfl⟩ : s = s' ∧ h = h' := by simpa using hs
    exact ⟨m, by simp only [pullTreeUnchecked, hfirst], hm⟩
  · rename_i k p hfirst
    split at hs
    · rename_i s₁ hlock
      simp only [minHeapInsert] at hs
      by_cases hfull : maxCpus ≤ h.size
      · simp [hfull] at hs
      · simp only [if_neg hfull, Except.ok.injEq, Prod.mk.injEq] at hs
        obtain ⟨rfl, rfl⟩ := hs
        exact ⟨_, by simp only [pullTreeUnchecked, hfirst, hlock], hm.insert (not_le.mp hfull) _⟩
    · simp at hs

lemma fillHeapUnchecked_ok {cpus : List ℕ} (hm : m.Holds h)
    (hs : fillHeap v cpus s h = .ok (s', h')) :
    ∃ m', fillHeapUnchecked v cpus s m = .ok (s', m') ∧ Holds m' h' := by
  induction cpus generalizing s m h with
  | nil =>
    obtain ⟨rfl, rfl⟩ : s = s' ∧ h = h' := by simpa [fillHeap] using hs
    exact ⟨m, rfl, hm⟩
  | cons cpu cpus ih =>
    simp only [fillHeap] at hs
    split at hs
    · simp at hs
    · rename_i s₁ h₁ hp
      obtain ⟨m₁, hp₁, hm₁⟩ := pullTreeUnchecked_ok hm hp
      obtain ⟨m', hs', hm'⟩ := ih hm₁ hs
      exact ⟨m', by simp only [fillHeapUnchecked, hp₁, hs'], hm'⟩

lemma drainUnchecked_ok {pgs : List PageId} (hm : m.Holds h)
    (hs : drain e cb v fuel h pgs s = .ok s') : drainUnchecked e cb v fuel m pgs s = .ok s' := by
  induction fuel generalizing s m h pgs with
  | zero => simp [drain] at hs
  | succ fuel ih =>
    simp only [drain] at hs
    simp only [drainUnchecked, hm.size]
    by_cases h0 : h.size = 0
    · simpa only [if_pos h0] using hs
    · simp only [if_neg h0] at hs ⊢
      obtain ⟨hmin, hrest⟩ := hm.deleteMin h0
      rw [hmin]
      split at hs
      · simp at hs
      · rename_i s₁ h₁ hp
        obtain ⟨m₁, hp₁, hm₁⟩ := pullTreeUnchecked_ok hrest hp
        simp only [hp₁]
        split_ifs at hs ⊢
        · exact ih hm₁ hs
        · exact ih hm₁ hs

/-- A write-back that does not overrun the heap is what the functions on the page do. -/
lemma writeDirtyPagesUnchecked_ok (hs : s.writeDirtyPages e cb v = .ok s') (junk : ℕ → HeapNode) :
    s.writeDirtyPagesUnchecked e junk (s.treeSize e .dirty v + 1) cb v = .ok s' := by
  simp only [writeDirtyPages] at hs
  split at hs
  · simp at hs
  · rename_i t h hf
    obtain ⟨m, hf', hm⟩ := fillHeapUnchecked_ok (Holds.create junk) hf
    simp only [writeDirtyPagesUnchecked, hf']
    exact drainUnchecked_ok hm hs

lemma drainUnchecked_mono {pgs : List PageId} {fuel' : ℕ} (hle : fuel ≤ fuel')
    (hs : drainUnchecked e cb v fuel m pgs s = .ok s') :
    drainUnchecked e cb v fuel' m pgs s = .ok s' := by
  induction fuel generalizing fuel' s m pgs with
  | zero => simp [drainUnchecked] at hs
  | succ fuel ih =>
    obtain ⟨fuel', rfl⟩ : ∃ k, fuel' = k + 1 := ⟨fuel' - 1, by omega⟩
    have hle : fuel ≤ fuel' := by omega
    simp only [drainUnchecked] at hs ⊢
    by_cases h0 : HeapPage.heapSize m = 0
    · simpa only [if_pos h0] using hs
    · simp only [if_neg h0] at hs ⊢
      split at hs
      · simp at hs
      · split_ifs at hs ⊢
        · exact ih hle hs
        · exact ih hle hs

/-- More rounds than are needed do not matter. -/
lemma writeDirtyPagesUnchecked_unique {junk : ℕ → HeapNode} {fuel' : ℕ}
    (hs : s.writeDirtyPagesUnchecked e junk fuel cb v = .ok s')
    (ht : s.writeDirtyPagesUnchecked e junk fuel' cb v = .ok t) : s' = t := by
  simp only [writeDirtyPagesUnchecked] at hs ht
  split at hs
  · simp at hs
  · rename_i s₁ m hf
    rw [hf] at ht
    rcases le_total fuel fuel' with hle | hle
    · exact Except.ok.inj ((drainUnchecked_mono hle hs).symm.trans ht)
    · exact Except.ok.inj (hs.symm.trans (drainUnchecked_mono hle ht))

/-! ### Calls that fit -/

/-- Between calls, a write-back that finds room for the dirty trees is one of the calls that stay
within the heap. -/
lemma Quiet.writeDirtyPages_of_unchecked (hq : s.Quiet e) (hfits : s.SyncFits e v)
    {junk : ℕ → HeapNode} (hs : s.writeDirtyPagesUnchecked e junk fuel cb v = .ok s') :
    s.writeDirtyPages e cb v = .ok s' := by
  obtain ⟨t, ht⟩ := hq.writeDirtyPages_ok hfits cb
  rw [ht, writeDirtyPagesUnchecked_unique hs (writeDirtyPagesUnchecked_ok ht junk)]

/-- A page that is mapped without a slot stays what it was. -/
lemma Quiet.mapUnrecorded (hq : s.Quiet e) {vma : VmaId} {i : ℕ} {f : FaultEnv C}
    (hs : s.mapUnrecorded e vma i f = .ok s') : s'.Quiet e := by
  simp only [State.mapUnrecorded] at hs
  split at hs
  · split at hs
    · rename_i v _ _ _ p t hf
      obtain rfl : t.finishFault (s.vmFault vma i) p = s' := by simpa using hs
      obtain ⟨-, s₀, hrec, hcase⟩ := hq.inv.findPage hf
      obtain ⟨-, hres, -, -, -, hm⟩ := hcase.resolve_right (by simp)
      obtain ⟨y, hy, hsame, -⟩ := hm.placed.unlocks_finishFault (s.vmFault vma i) p
      rw [← view_page e t, hm.view_self] at hsame
      refine (hq.recycles hrec).resolves (hm.trans hy).resolves ?_
      rw [hsame]
      exact .of_resident ⟨hres.lt, hres.inUse, hres.free, hres.cpuid, hres.cached, hres.tree,
        hres.clean, hres.dirty, hres.bufferId⟩ rfl
    · simp at hs
    · simp at hs
  · simp at hs

lemma Quiet.returns (hq : s.Quiet e) {op : Op C} (hr : s.ReturnsInRoom e op s') : s'.Quiet e := by
  obtain ⟨hfits, hi, junk, fuel, hs⟩ := hr
  have hexec : s.exec e op = .ok s' → s'.Quiet e := fun hs => hq.step ⟨hi, hs⟩
  cases op with
  | fault vma i f =>
    simp only [execUnchecked, faultUnchecked] at hs
    split at hs
    · exact hq.mapUnrecorded hs
    · exact hq.fault hs
  | writeDirty cb v => exact hexec (hq.writeDirtyPages_of_unchecked hfits hs)
  | rawRelease v =>
    simp only [execUnchecked, rawReleaseUnchecked] at hs
    split at hs
    · simp at hs
    · rename_i t hw
      apply hexec
      simp only [exec, State.rawRelease, hq.writeDirtyPages_of_unchecked hfits hw]
      exact hs
  | mkwrite vma i => exact hexec hs
  | store vma i f => exact hexec hs
  | evictor id held => exact hexec hs
  | purge qid => exact hexec hs

/-- After every sequence of calls that return, where no write-back finds more dirty trees with pages
than the heap has room for, the three records of dirtiness agree; and a write-back that finds room
returns. -/
theorem dirty_records_agree (e : Env C) (w : World C) (ops : List (Op C)) (s : State C)
    (hr : Run (ReturnsInRoom e) (initParams e w) ops s) :
    s.DirtyRecordsAgree e ∧
      ∀ cb v, s.SyncFits e v → ∃ s', s.Returns e (.writeDirty cb v) s' := by
  have hq : s.Quiet e := hr.invariant (fun _ _ _ hq hs => hq.returns hs) (quiet_initParams e w)
  refine ⟨hq.dirtyRecordsAgree, fun cb v hfits => ?_⟩
  obtain ⟨s', hs⟩ := hq.writeDirtyPages_ok hfits cb
  exact ⟨s', rfl, _, _, writeDirtyPagesUnchecked_ok hs minHeapCreate.arr⟩

/-! ### One tree too many -/

section lost

variable {x : PageId → PageView C} {H : Multiset PageId} {pgs : List PageId} {p : PageId} {k : ℕ}

/-- No dirty page of the pvd is left in a tree. -/
def Taken (v : PvdId) (x : PageId → PageView C) (H : Multiset PageId) (pgs : List PageId) : Prop :=
  ∀ q, (x q).tree .dirty = true → (x q).page.pvd = some v → q ∈ pgs ∨ q ∈ H

lemma Draining.pullTree_of_taken (d : Draining e cb v x H pgs s) (ht : Taken v x H pgs) (cpu : ℕ)
    (h : MinHeap) : s.pullTree v cpu h = .ok (s, h) := by
  simp only [State.pullTree]
  cases hf : (s.trees ⟨.dirty, v, cpu⟩).first? with
  | none => rfl
  | some kq =>
    obtain ⟨k, q⟩ := kq
    have hlook := KeyMap.lookup_of_first? hf
    obtain ⟨-, hv, -⟩ := d.placed.tree_own hlook
    have htree := d.placed.tree_of_lookup hlook
    obtain ⟨hb, hh, hq⟩ := d.fresh htree
    rw [hq] at htree
    have hv' : (x q).page.pvd = some v := by
      rw [← hq]
      exact hv
    exact absurd (ht q htree hv') (not_or.mpr ⟨hb, hh⟩)

lemma Taken.rebase (ht : Taken v x H pgs) : Taken v (rebase cb x pgs) H [] := by
  intro q hd hv
  by_cases hq : q ∈ pgs
  · rw [State.rebase, if_pos hq, PageView.synced_eq] at hd
    simp [PageView.cleaned] at hd
  · rw [State.rebase, if_neg hq] at hd hv
    exact .inr ((ht q hd hv).resolve_left hq)

/-- The main loop, with a page that has left its tree and is not in the heap. -/
lemma Draining.drain_of_lost (hx : Distinct x)
    (d : Draining e cb v x (p ::ₘ heapPages h) pgs s)
    (ht : Taken v x (p ::ₘ heapPages h) pgs) (hf : h.size < fuel) :
    ∃ s', State.drain e cb v fuel h pgs s = .ok s' ∧ s'.view e p = (x p).heaped := by
  induction fuel generalizing x h pgs s with
  | zero => exact absurd hf (Nat.not_lt_zero _)
  | succ fuel ih =>
    have hp : p ∈ p ::ₘ heapPages h := Multiset.mem_cons_self _ _
    have hpg : p ∉ pgs := fun hmem => d.disjoint hmem hp
    simp only [State.drain]
    by_cases hz : h.size = 0
    · rw [if_pos hz]
      by_cases hn : pgs = []
      · exact ⟨s, by rw [if_pos hn], d.view_heap hp⟩
      · refine ⟨s.flush e v pgs, by rw [if_neg hn], ?_⟩
        rw [(d.flush hx).1.view_heap hp, rebase, if_neg hpg]
    · rw [if_neg hz]
      rcases hd : minHeapDeleteMin h with ⟨n, h₁⟩
      have hH := heapPages_eq_cons hz hd
      have hsize : h₁.size = h.size - 1 := congrArg (fun r => r.2.size) hd.symm
      have d₁ : Draining e cb v x (n.p ::ₘ p ::ₘ heapPages h₁) pgs s := by
        rw [Multiset.cons_swap, ← hH]
        exact d
      have hpull := d.pullTree_of_taken ht n.cpu h₁
      have ht₁ : Taken v x (p ::ₘ heapPages h₁) (pgs ++ [n.p]) := by
        intro q hq hv
        have := ht q hq hv
        rw [hH] at this
        simp only [Multiset.mem_cons, List.mem_append, List.mem_singleton] at this ⊢
        tauto
      have hd₁ := d₁.pageCleanup
      simp only [hpull]
      split_ifs
      · obtain ⟨s', hs', hv⟩ := ih hx.rebase (hd₁.flush hx).1 ht₁.rebase (by omega)
        refine ⟨s', hs', ?_⟩
        rw [hv, rebase, if_neg fun hmem => hd₁.disjoint hmem (Multiset.mem_cons_self _ _)]
      · exact ih hx hd₁ ht₁ (by omega)

/-- Every page of the buffer has the block of its number, and is dirty. -/
def AllDirty (e : Env C) (v : PvdId) (s : State C) : Prop :=
  ∀ p < e.numPages, (s.pages p).inUse = true ∧ (s.pages p).pvd = some v ∧
    (s.pages p).index = p ∧ (s.pages p).isDirty = true

instance : Decidable (AllDirty e v s) :=
  inferInstanceAs (Decidable (∀ p < e.numPages, (s.pages p).inUse = true ∧
    (s.pages p).pvd = some v ∧ (s.pages p).index = p ∧ (s.pages p).isDirty = true))

lemma AllDirty.resident (hd : s.AllDirty e v) (hq : s.Quiet e) (hp : p < e.numPages) :
    Resident e p (s.view e p) :=
  (hq.page p).phase.resolve_left fun hi =>
    Bool.false_ne_true (hi.inUse.symm.trans (hd p hp).1)

/-- With a tree for each page, the first page of tree `k` is page `k`. -/
lemma Draining.first?_eq (d : Draining e cb v (t.view e) H [] s) (hd : t.AllDirty e v)
    (hq : t.Quiet e) (hn : e.numPages = e.ncpus) (hk : k < e.numPages) (hH : k ∉ H) :
    (s.trees ⟨.dirty, v, k⟩).first? = some (k, k) := by
  have hview : s.view e k = t.view e k := by
    rw [d.view_eq, if_neg List.not_mem_nil, if_neg hH]
  have htree : (s.view e k).tree .dirty = true := by
    rw [hview, (hd.resident hq hk).tree]
    exact (hd k hk).2.2.2
  obtain ⟨v', hv', hl⟩ := view_tree.mp htree
  have hpage : s.pages k = t.pages k := congrArg PageView.page hview
  rw [hpage, (hd k hk).2.1] at hv'
  obtain rfl := Option.some.inj hv'
  rw [hpage, (hd k hk).2.2.1, treeLookup, Nat.mod_eq_of_lt (hn ▸ hk)] at hl
  cases hf : (s.trees ⟨.dirty, v, k⟩).first? with
  | none => exact absurd (KeyMap.lookup_of_first?_none hf k ▸ hl) (by simp)
  | some iq =>
    obtain ⟨i, q⟩ := iq
    have hlook := KeyMap.lookup_of_first? hf
    obtain ⟨hc, -, hi⟩ := d.placed.tree_own hlook
    obtain ⟨-, -, hsame⟩ := d.fresh (d.placed.tree_of_lookup hlook)
    -- the page is resident, so it has the block of its number
    have hres : Resident e q (t.view e q) :=
      .of_dirtyTree (hq.page q).phase (hsame ▸ d.placed.tree_of_lookup hlook)
    have hqi : (s.pages q).index = q := by
      rw [show s.pages q = t.pages q from congrArg PageView.page hsame]
      exact (hd q hres.lt).2.2.1
    obtain rfl : i = q := hi.symm.trans hqi
    obtain rfl : k = i := hc.trans (Nat.mod_eq_of_lt (hn ▸ hres.lt))
    rfl

/-- Taking page `k` from tree `k`. -/
lemma Draining.pullTreeUnchecked (d : Draining e cb v (t.view e) H [] s) (hd : t.AllDirty e v)
    (hq : t.Quiet e) (hn : e.numPages = e.ncpus) (hk : k < e.numPages) (hH : k ∉ H)
    (m : HeapPage) : ∃ s', s.pullTreeUnchecked v k m = .ok (s', HeapPage.insert m ⟨k, k, k⟩) ∧
      Draining e cb v (t.view e) (k ::ₘ H) [] s' := by
  have hf := d.first?_eq hd hq hn hk hH
  have hpage : s.pages k = t.pages k := by
    have := d.view_eq k
    rw [if_neg List.not_mem_nil, if_neg hH] at this
    exact congrArg PageView.page this
  have hlock : s.trylockTp k ulongMax =
      (0, s.modifyPage k fun t => { t with locked := true }) := by
    have hu : (s.pages k).inUse = true := by
      rw [hpage]
      exact (hd k hk).1
    have hl : (s.pages k).locked = false := by
      rw [hpage]
      exact (hq.page k).unlocked
    simp [trylockTp, hu, hl]
  have hindex : ((s.modifyPage k fun t => { t with locked := true }).pages k).index = k := by
    simp [modifyPage, hpage, (hd k hk).2.2.1]
  refine ⟨(s.modifyPage k fun t => { t with locked := true }).treeErase ⟨.dirty, v, k⟩ k, ?_, ?_⟩
  · simp only [State.pullTreeUnchecked, hf, hlock, hindex]
  · -- the same with a heap that has room
    have hs : s.pullTree v k minHeapCreate = .ok
        ((s.modifyPage k fun t => { t with locked := true }).treeErase ⟨.dirty, v, k⟩ k,
          minHeapCreate.insert HeapNode.offset ⟨k, k, k⟩) := by
      simp only [State.pullTree, hf, hlock, hindex]
      rfl
    obtain ⟨-, ⟨-, -, hnone⟩ | ⟨n, hins, -, d'⟩⟩ := d.pullTree hs
    · exact absurd (hf.symm.trans hnone) (by simp)
    · rw [BinHeap.elems_insert] at hins
      obtain rfl : ⟨k, k, k⟩ = n := by simpa [BinHeap.elems, minHeapCreate] using hins
      exact d'

lemma pages_of_elems (hel : h.elems = (Multiset.range k).map fun i => ⟨i, i, i⟩) :
    heapPages h = Multiset.range k ∧ h.size = k := by
  constructor
  · rw [heapPages, hel, Multiset.map_map]
    exact Multiset.map_id _
  · have := congrArg Multiset.card hel
    simpa [BinHeap.elems] using this

/-- The trees from `k` on fill the heap, and the page of the last one is lost. -/
lemma Draining.fillHeapUnchecked (hd : t.AllDirty e v) (hq : t.Quiet e)
    (hn : e.numPages = e.ncpus) (hcpus : e.ncpus = maxCpus + 1) {n : ℕ} (hkn : k + n = maxCpus)
    (d : Draining e cb v (t.view e) (heapPages h) [] s)
    (hel : h.elems = (Multiset.range k).map fun i => ⟨i, i, i⟩) (hm : Holds m h) :
    ∃ s' m' h', fillHeapUnchecked v (List.range' k (n + 1)) s m = .ok (s', m') ∧ Holds m' h' ∧
      heapPages h' = Multiset.range maxCpus ∧ h'.size = maxCpus ∧
      Draining e cb v (t.view e) (maxCpus ::ₘ heapPages h') [] s' := by
  induction n generalizing k s m h with
  | zero =>
    obtain rfl : k = maxCpus := hkn
    obtain ⟨hpages, hsize⟩ := pages_of_elems hel
    obtain ⟨s', hs, d'⟩ := d.pullTreeUnchecked (k := maxCpus) hd hq hn (by omega)
      (by rw [hpages]; simp) m
    refine ⟨s', _, h, ?_, hm.insert_full hsize (n := ⟨maxCpus, maxCpus, maxCpus⟩) rfl ?_, hpages,
      hsize, d'⟩
    · simp [State.fillHeapUnchecked, hs]
    · intro a ha
      rw [hel] at ha
      obtain ⟨i, hi, rfl⟩ := Multiset.mem_map.mp ha
      exact (Multiset.mem_range.mp hi).le
  | succ n ih =>
    obtain ⟨hpages, hsize⟩ := pages_of_elems hel
    obtain ⟨s₁, hs₁, d₁⟩ := d.pullTreeUnchecked (k := k) hd hq hn (by omega)
      (by rw [hpages]; simp) m
    have hel₁ : (h.insert HeapNode.offset ⟨k, k, k⟩).elems =
        (Multiset.range (k + 1)).map fun i => ⟨i, i, i⟩ := by
      rw [BinHeap.elems_insert, hel, Multiset.range_succ, Multiset.map_cons]
    obtain ⟨s', m', h', hs', hrest⟩ := ih (by omega)
      (h := h.insert HeapNode.offset ⟨k, k, k⟩)
      (by rw [heapPages, BinHeap.elems_insert, Multiset.map_cons]; exact d₁) hel₁
      (hm.insert (by omega) ⟨k, k, k⟩)
    refine ⟨s', m', h', ?_, hrest⟩
    rw [List.range'_succ]
    simp only [State.fillHeapUnchecked, hs₁]
    exact hs'

/-- A write-back of one tree more than the heap has room for returns. The page of the last tree is
locked and out of the tree, and is otherwise as before. -/
lemma Quiet.writeDirtyPages_loses (hq : t.Quiet e) (hd : t.AllDirty e v)
    (hn : e.numPages = e.ncpus) (hcpus : e.ncpus = maxCpus + 1) (cb : Cleanup)
    (junk : ℕ → HeapNode) :
    ∃ s', t.writeDirtyPagesUnchecked e junk (maxCpus + 1) cb v = .ok s' ∧
      s'.view e maxCpus = (t.view e maxCpus).heaped := by
  have d₀ : Draining e cb v (t.view e) (heapPages minHeapCreate) [] t :=
    ⟨hq.placed, hq.inv.page, by simp, .nil, by simp, by simp, by simp, fun q => by simp⟩
  obtain ⟨s₁, m₁, h₁, hf, hm₁, hpages, hsize, d₁⟩ :=
    d₀.fillHeapUnchecked hd hq hn hcpus (k := 0) (Nat.zero_add _) rfl (Holds.create junk)
  have htaken : Taken v (t.view e) (maxCpus ::ₘ heapPages h₁) [] := by
    intro q hdirty _
    have hlt := (Resident.of_dirtyTree (hq.page q).phase hdirty).lt
    rw [hn, hcpus] at hlt
    right
    rw [hpages, Multiset.mem_cons, Multiset.mem_range]
    exact (Nat.lt_succ_iff_lt_or_eq.mp hlt).symm
  obtain ⟨s', hs', hv⟩ := d₁.drain_of_lost (distinct_view e t) htaken
    (hsize.trans_lt (Nat.lt_succ_self _))
  refine ⟨s', ?_, hv⟩
  simp only [writeDirtyPagesUnchecked, hcpus, List.range_eq_range', hf]
  exact drainUnchecked_ok hm₁ hs'

end lost

/-! ### Sixty-five processors -/

/-- The state after some calls that return within a number of rounds, on pages of zeros. -/
def returnAll (e : Env C) (fuel : ℕ) (s : State C) (ops : List (Op C)) : Option (State C) :=
  ops.foldlM (fun s op =>
    if s.issued e op then (s.execUnchecked e minHeapCreate.arr fuel op).toOption else none) s

lemma run_returnAll {ops : List (Op C)} (h : returnAll e fuel s ops = some s') :
    Run (Returns e) s ops s' := by
  refine Run.of_foldlM (fun s op s' hs => ?_) h
  split_ifs at hs with hi
  exact ⟨hi, _, _, Except.toOption_eq_some.mp hs⟩

/-- Four areas map the block, so the last of them has no slot, and a sync is called. Then an evictor
finds a neighbour of its page locked and puts it back into the tree. -/
def lockedNeighbour : List (Op ℕ) :=
  [.fault 0 0 smallFault, .fault 1 0 smallFault, .fault 2 0 smallFault, .fault 3 0 smallFault,
    .mkwrite 3 0, .writeDirty .fsync 0, .mkwrite 0 0, .fault 0 1 smallFault, .mkwrite 0 1,
    .evictor 0 [1]]

/-- One file, which all areas map. -/
def sharedWorld : World ℕ := { smallWorld with infos := fun i => ⟨true, some 0, some i⟩ }

set_option maxRecDepth 4000 in
theorem dirty_records_agree_lockedNeighbour :
    ∃ s, Run (ReturnsInRoom smallEnv) (initParams smallEnv sharedWorld) lockedNeighbour s ∧
      (s.pages 1).isDirty = true ∧ (s.trees ⟨.dirty, 0, 0⟩).lookup 1 = some 1 := by
  have h : ((returnAll smallEnv 5 (initParams smallEnv sharedWorld) lockedNeighbour).map fun s =>
      ((s.pages 1).inUse, (s.pages 1).pvd, (s.pages 1).index, (s.pages 1).isDirty)) =
      some (true, some 0, 1, true) := by decide +kernel
  obtain ⟨s, hs, hp⟩ := Option.map_eq_some_iff.mp h
  simp only [Prod.mk.injEq] at hp
  obtain ⟨hu, hv, hi, hd⟩ := hp
  have hr : Run (ReturnsInRoom smallEnv) (initParams smallEnv sharedWorld) lockedNeighbour s :=
    (run_returnAll hs).mono_of_mem fun s op s' _ hs => by
      refine ⟨?_, hs⟩
      cases op with
      | writeDirty cb v => exact syncFits_of_ncpus (by decide)
      | rawRelease v => exact syncFits_of_ncpus (by decide)
      | _ => trivial
  exact ⟨s, hr, hd, (((dirty_records_agree _ _ _ s hr).1.1 1 0 1 hu hv hi).2).mp hd⟩

/-- A machine with 65 processors of one node, which have a page each. -/
def manyCpus : Env ℕ :=
  { smallEnv with
    ncpus := 65
    ncpus_pos := Nat.succ_pos 64
    bufSize := 127
    bufSize_lt := by decide
    cpumaskOfNode := fun _ => List.range 65 }

/-- A file of 65 blocks. -/
def longWorld : World ℕ :=
  { smallWorld with
    vmas := fun v => ⟨0, 65 * pageSize, 0, v⟩
    devPages := fun _ => 65 }

/-- All blocks of the file are written to. -/
def writeLongFile : List (Op ℕ) :=
  (List.range 65).flatMap fun i => [.fault 0 i smallFault, .mkwrite 0 i]

set_option maxRecDepth 40000 in
/-- The page of the last tree does not fit in the heap. The sync returns without it: it is dirty and
in its dirty queue, and in no dirty tree. -/
theorem heap_forgets_page : ¬ ∀ (e : Env ℕ) (w : World ℕ) (ops : List (Op ℕ)) (s : State ℕ),
    Run (Returns e) (initParams e w) ops s → s.DirtyRecordsAgree e := by
  intro hall
  have h : ((returnAll manyCpus 0 (initParams manyCpus longWorld) writeLongFile).map fun s =>
      decide (s.AllDirty manyCpus 0)) = some true := by
    decide +kernel
  obtain ⟨s, hs, hd⟩ := Option.map_eq_some_iff.mp h
  have hd : s.AllDirty manyCpus 0 := of_decide_eq_true hd
  have hr := run_returnAll hs
  have hroom : Run (ReturnsInRoom manyCpus) (initParams manyCpus longWorld) writeLongFile s := by
    refine hr.mono_of_mem fun s op s' hop hs => ⟨?_, hs⟩
    obtain ⟨i, -, hop⟩ := List.mem_flatMap.mp hop
    rcases List.mem_pair.mp hop with rfl | rfl <;> trivial
  have hq : s.Quiet manyCpus :=
    hroom.invariant (fun _ _ _ hq hs => hq.returns hs) (quiet_initParams manyCpus longWorld)
  obtain ⟨s', hs', hlost⟩ := hq.writeDirtyPages_loses hd rfl rfl .fsync minHeapCreate.arr
  have hv : s'.view manyCpus 64 = (s.view manyCpus 64).heaped := hlost
  have hpage : s'.pages 64 = { s.pages 64 with locked := true } := congrArg PageView.page hv
  obtain ⟨hu, hp, hi, hdirty⟩ := hd 64 (by decide)
  have hrun : Run (Returns manyCpus) (initParams manyCpus longWorld)
      (writeLongFile ++ [.writeDirty .fsync 0]) s' := hr.snoc ⟨rfl, _, _, hs'⟩
  have hagree := (hall _ _ _ s' hrun).1 64 0 64 (by rw [hpage]; exact hu)
    (by rw [hpage]; exact hp) (by rw [hpage]; exact hi)
  have hl := hagree.2.mp (by rw [hpage]; exact hdirty)
  have htree : (s'.view manyCpus 64).tree .dirty = true :=
    view_tree.mpr ⟨0, by rw [hpage]; exact hp, by rw [hpage, hi]; exact hl⟩
  rw [hv] at htree
  simp [PageView.heaped, PageView.untreed] at htree

end State

end FastMap
