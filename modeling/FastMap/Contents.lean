import FastMap.System

/-!
# Contents are opaque

A function `g : C → D` on page contents acts on states. Every call of the driver commutes with it:
what the driver does never depends on what a page holds. Bitmaps and sizes are forgotten on the
way: all that a bitmap decides is what a fault leaves in a frame, and all that a size decides is
whether a fault completes.
-/

namespace FastMap

variable {C D : Type*}

/-- The same machine over other contents, with the writer of the driver. -/
def Env.retype (D : Type*) (e : Env C) : Env D where
  ncpus := e.ncpus
  ncpus_pos := e.ncpus_pos
  bufSize := e.bufSize
  bufSize_lt := e.bufSize_lt
  numaDv := e.numaDv
  cpumaskOfNode := e.cpumaskOfNode
  writeAsync := State.driverWriter

@[simp] lemma Env.retype_ncpus (e : Env C) : (e.retype D).ncpus = e.ncpus := rfl

def TaggedPage.map (g : C → D) (t : TaggedPage C) : TaggedPage D where
  rmap := t.rmap
  content := g t.content
  index := t.index
  locked := t.locked
  pvd := t.pvd
  pageValid := t.pageValid
  isDirty := t.isDirty
  bufferId := t.bufferId
  inUse := t.inUse
  cpuid := t.cpuid

def BlockWrite.map (g : C → D) (b : BlockWrite C) : BlockWrite D := ⟨b.dev, b.off, g b.data⟩

namespace State

/-- A number of pages that makes `perma_getpage` accept every offset, as the `int` it is assigned
to is negative. -/
def anySize : ℕ := 2 ^ 32 - 1

lemma numPages_anySize (offset : Pgoff) : numPages offset (int32 anySize) = 1 := by
  have hneg : int32 anySize = -1 := by decide
  have hmax : ((-1 : ℤ) % ulongSize).toNat = ulongSize - 1 := by decide
  have hle : (offset + 1) % ulongSize ≤ ulongSize - 1 :=
    Nat.le_sub_one_of_lt (Nat.mod_lt _ (by decide))
  simp only [numPages, hneg, hmax, hle, if_true]
  decide

/-- The state seen through `g`. -/
def map (g : C → D) (s : State C) : State D where
  pages p := (s.pages p).map g
  fl := s.fl
  queues := s.queues
  trees := s.trees
  pvds := s.pvds
  vmas := s.vmas
  infos := s.infos
  pves := s.pves
  pte := s.pte
  disk a := g (s.disk a)
  bitmap _ := true
  devPages _ := anySize
  enqueueFailed := s.enqueueFailed

variable {e : Env C} (g : C → D) (s : State C) (p : PageId)

/-! ### Pages, queues and trees -/

lemma map_modifyPage {f : TaggedPage C → TaggedPage C} {f' : TaggedPage D → TaggedPage D}
    (h : (f (s.pages p)).map g = f' ((s.pages p).map g)) :
    (s.map g).modifyPage p f' = (s.modifyPage p f).map g := by
  have hp : Function.update (fun q => (s.pages q).map g) p ((f (s.pages p)).map g) =
      fun q => (Function.update s.pages p (f (s.pages p)) q).map g := by
    funext q
    by_cases hq : q = p
    · subst hq
      simp
    · simp [hq]
  simp only [modifyPage, map, ← h, hp]

@[simp] lemma map_trylockTp (i : Pgoff) :
    (s.map g).trylockTp p i = (s.trylockTp p i).map id (map g) := by
  simp only [trylockTp, show (s.map g).pages p = (s.pages p).map g from rfl, TaggedPage.map]
  split_ifs
  · rfl
  · rfl
  · rfl
  · refine congrArg (Prod.mk 0) ?_
    exact map_modifyPage g s p rfl

@[simp] lemma map_unlockTp : (s.map g).unlockTp p = (s.unlockTp p).map g :=
  map_modifyPage g s p rfl

lemma map_setBufferId (b : BufferId) :
    (s.map g).setBufferId p b = (s.setBufferId p b).map g :=
  map_modifyPage g s p rfl

@[simp] lemma map_remove (q : Queue) : (s.map g).remove q p = (s.remove q p).map g :=
  map_setBufferId g ((s.listDelInit p).decSize q) p .biNone

@[simp] lemma map_enqueue (q : Queue) :
    (s.map g).enqueue q p = (s.enqueue q p).map id (map g) := by
  simp only [enqueue, show (s.map g).queues = s.queues from rfl]
  split_ifs
  · rfl
  · rw [Prod.map_apply, ← map_setBufferId]
    rfl

@[simp] lemma map_rotate (q : Queue) : (s.map g).rotate q p = (s.rotate q p).map g := rfl

lemma map_dequeueIf (q : Queue) {cond : State C → PageId → Bool × State C}
    {cond' : State D → PageId → Bool × State D}
    (h : ∀ s p, cond' (s.map g) p = (cond s p).map id (map g)) :
    (s.map g).dequeueIf q cond' = (s.dequeueIf q cond).map id (map g) := by
  simp only [dequeueIf, show (s.map g).queues = s.queues from rfl]
  split_ifs
  · rfl
  · cases (s.queues q).buffer with
    | nil => rfl
    | cons p _ =>
      simp only [h]
      rcases cond s p with ⟨b, t⟩
      cases b <;> simp

lemma map_removeIf (q : Queue) {cond : State C → PageId → Bool × State C}
    {cond' : State D → PageId → Bool × State D}
    (h : ∀ s p, cond' (s.map g) p = (cond s p).map id (map g)) :
    (s.map g).removeIf q p cond' = (s.removeIf q p cond).map id (map g) := by
  simp only [removeIf, h]
  rcases cond s p with ⟨b, t⟩
  cases b <;> simp

@[simp] lemma map_treeErase (t : TreeId) (i : Pgoff) :
    (s.map g).treeErase t i = (s.treeErase t i).map g := rfl

@[simp] lemma map_treeInsert (k : TreeKind) (v : PvdId) (i : Pgoff) :
    (s.map g).treeInsert (e.retype D) k v i p = (s.treeInsert e k v i p).map g := rfl

@[simp] lemma map_removeFromDirtyTree :
    (s.map g).removeFromDirtyTree (e.retype D) p = (s.removeFromDirtyTree e p).map g := by
  simp only [removeFromDirtyTree, show ((s.map g).pages p).pvd = (s.pages p).pvd from rfl]
  cases (s.pages p).pvd <;> rfl

@[simp] lemma map_setDirty (b : Bool) : (s.map g).setDirty p b = (s.setDirty p b).map g :=
  map_modifyPage g s p rfl

@[simp] lemma map_insertPage (b : Bool) : (s.map g).insertPage p b = (s.insertPage p b).map g := by
  cases b <;> simp [insertPage, show ((s.map g).pages p).index = (s.pages p).index from rfl]

@[simp] lemma map_movePageC2d : (s.map g).movePageC2d p = (s.movePageC2d p).map g := by
  simp [movePageC2d, show ((s.map g).pages p).index = (s.pages p).index from rfl]

@[simp] lemma map_movePageD2c : (s.map g).movePageD2c p = (s.movePageD2c p).map g := by
  simp [movePageD2c, show ((s.map g).pages p).index = (s.pages p).index from rfl]

lemma map_deq : (s.map g).deq p = (s.deq p).map id (map g) := by
  simp only [deq, show ((s.map g).pages p).pvd = (s.pages p).pvd from rfl, map_trylockTp,
    show (s.map g).pvds = s.pvds from rfl]
  cases (s.pages p).pvd with
  | none => rfl
  | some v =>
    dsimp only
    split_ifs <;> rfl

lemma map_evDeq : (s.map g).evDeq p = (s.evDeq p).map id (map g) := by
  simp only [evDeq, map_trylockTp]
  rfl

/-! ### Free lists -/

lemma map_takeFree (cpus : List ℕ) :
    (s.map g).takeFree cpus = (s.takeFree cpus).map id (map g) := by
  induction cpus with
  | nil => rfl
  | cons cpu cpus ih =>
    simp only [takeFree, show (s.map g).fl = s.fl from rfl]
    cases s.fl cpu with
    | nil => exact ih
    | cons p rest =>
      refine congrArg (Prod.mk (some p)) ?_
      exact map_modifyPage g { s with fl := Function.update s.fl cpu rest } p rfl

lemma map_scanNodes (nodes : List ℕ) (found : Option PageId) :
    (s.map g).scanNodes (e.retype D) nodes found = (s.scanNodes e nodes found).map id (map g) := by
  induction nodes generalizing s found with
  | nil => rfl
  | cons node nodes ih =>
    simp only [scanNodes, show (e.retype D).cpumaskOfNode = e.cpumaskOfNode from rfl, map_takeFree]
    cases e.cpumaskOfNode node with
    | nil => exact ih s found
    | cons cpu cpus => exact ih _ _

lemma map_allocPageLock (node : ℕ) (offset : Pgoff) (v : PvdId) :
    (s.map g).allocPageLock (e.retype D) node offset v =
      (s.allocPageLock e node offset v).map id (map g) := by
  simp only [allocPageLock, map_scanNodes, show (e.retype D).numaDv = e.numaDv from rfl]
  rcases s.scanNodes e (e.numaDv node) none with ⟨_ | p, t⟩
  · rfl
  · refine congrArg (Prod.mk (some p)) ?_
    exact map_modifyPage g t p rfl

@[simp] lemma map_freePageLock : (s.map g).freePageLock p = (s.freePageLock p).map g := by
  have hc : (s.map g).freeClear p = (s.freeClear p).map g := map_modifyPage g s p rfl
  simp only [freePageLock, hc, map_unlockTp]
  rfl

/-! ### Reverse mappings and page tables -/

lemma map_wrprotect (r : PrVmaRmap) : (s.map g).wrprotect p r = (s.wrprotect p r).map g := by
  simp only [wrprotect, show (s.map g).pte = s.pte from rfl]
  cases s.pte (r.vma, r.vaddr) with
  | none => rfl
  | map q b =>
    dsimp only
    split_ifs <;> rfl

lemma map_zapPage (r : PrVmaRmap) : (s.map g).zapPage p r = (s.zapPage p r).map g := by
  simp only [zapPage, show (s.map g).pte = s.pte from rfl]
  cases s.pte (r.vma, r.vaddr) with
  | none => rfl
  | map q b =>
    dsimp only
    split_ifs <;> rfl

lemma map_setRmap (i : Fin maxRmapsPerPage) (r : PrVmaRmap) :
    (s.map g).setRmap p i r = (s.setRmap p i r).map g :=
  map_modifyPage g s p rfl

/-- A loop whose steps commute with `g`. -/
lemma map_foldl {ι : Type*} {f : State C → ι → State C} {f' : State D → ι → State D}
    (h : ∀ s i, f' (s.map g) i = (f s i).map g) (l : List ι) :
    l.foldl f' (s.map g) = (l.foldl f s).map g := by
  induction l generalizing s with
  | nil => rfl
  | cons i l ih => rw [List.foldl_cons, List.foldl_cons, h, ih]

@[simp] lemma map_clearMappings : (s.map g).clearMappings p = (s.clearMappings p).map g := by
  apply map_foldl
  intro s i
  dsimp only
  rw [show ((s.map g).pages p).rmap = (s.pages p).rmap from rfl]
  split_ifs
  · exact map_wrprotect g s p _
  · rfl

@[simp] lemma map_removeMappings : (s.map g).removeMappings p = (s.removeMappings p).map g := by
  apply map_foldl
  intro s i
  dsimp only
  rw [show ((s.map g).pages p).rmap = (s.pages p).rmap from rfl]
  split_ifs
  · rw [map_zapPage, map_setRmap]
    rfl
  · rfl

lemma map_dmapAddOrUpdateRmap (vmf : VmFault) (cpu : ℕ) :
    (s.map g).dmapAddOrUpdateRmap vmf p cpu = (s.dmapAddOrUpdateRmap vmf p cpu).map (map g) := by
  simp only [dmapAddOrUpdateRmap, show findRmap ((s.map g).pages p) vmf.vma =
    findRmap (s.pages p) vmf.vma from rfl, show freeEntry ((s.map g).pages p) =
    freeEntry (s.pages p) from rfl, show (s.map g).infos = s.infos from rfl,
    show (s.map g).vmas = s.vmas from rfl]
  cases findRmap (s.pages p) vmf.vma with
  | some i => rfl
  | none =>
    cases freeEntry (s.pages p) with
    | none => rfl
    | some i =>
      cases (s.infos (s.vmas vmf.vma).info).pve with
      | none => rfl
      | some x =>
        simp only [map_setRmap]
        rfl

/-! ### Write-back -/

lemma map_request (pgs : List PageId) (i : ℕ) :
    (s.map g).request pgs i = (s.request pgs i).map (BlockWrite.map g) := by
  have hpage : ∀ q, (s.map g).pages q = (s.pages q).map g := fun _ => rfl
  simp only [request, hpage, TaggedPage.map, show (s.map g).pvds = s.pvds from rfl]
  cases (s.pages (pgs.getD i 0)).pvd with
  | none => rfl
  | some v =>
    simp only [List.map_map]
    rfl

lemma map_driverWriter (t : PvdType) (pgs : List PageId) :
    driverWriter t (s.map g) pgs = (driverWriter t s pgs).map (BlockWrite.map g) := by
  have h : (s.map g).writeMerged pgs = (s.writeMerged pgs).map (BlockWrite.map g) := by
    simp only [writeMerged, List.map_flatMap]
    exact congrArg (List.flatMap · _) (funext fun i => map_request g s pgs i)
  cases t with
  | file => exact h
  | blkd =>
    have hany : (s.map g).orphanRequest pgs = s.orphanRequest pgs := rfl
    simp only [driverWriter, writeBioAsync, hany, h]
    by_cases horphan : (List.range pgs.length).any (s.orphanRequest pgs)
    · simp only [if_pos horphan, List.map_nil]
    · simp only [if_neg horphan]

lemma map_writeBlocks (ws : List (BlockWrite C)) :
    (s.map g).writeBlocks (ws.map (BlockWrite.map g)) = (s.writeBlocks ws).map g := by
  induction ws generalizing s with
  | nil => rfl
  | cons b ws ih =>
    have hd : (Function.update (fun a => g (s.disk a)) (b.dev, b.off) (g b.data)) =
        fun a => g (Function.update s.disk (b.dev, b.off) b.data a) := by
      funext a
      by_cases ha : a = (b.dev, b.off)
      · subst ha
        simp
      · simp [ha]
    have := ih { s with disk := Function.update s.disk (b.dev, b.off) b.data }
    simp only [writeBlocks, map, List.map_cons, List.foldl_cons] at this ⊢
    rw [← hd] at this
    exact this

variable (he : e.writeAsync = driverWriter)
include he

lemma map_writePages (v : PvdId) (pgs : List PageId) :
    (s.map g).writePages (e.retype D) v pgs = (s.writePages e v pgs).map g := by
  simp only [writePages, show (e.retype D).writeAsync = driverWriter from rfl, he, map_driverWriter,
    map_writeBlocks]
  rfl

omit he in
lemma map_collect (k : ℕ) (v : PvdId) (n : ℕ) (offset : Pgoff) (pgs : List PageId) :
    collect (e.retype D) k v n offset pgs (s.map g) =
      (collect e k v n offset pgs s).map id (map g) := by
  induction n generalizing s offset pgs with
  | zero => rfl
  | succ n ih =>
    simp only [collect, show (s.map g).treeLookup (e.retype D) .dirty v offset =
      s.treeLookup e .dirty v offset from rfl]
    split_ifs
    · rfl
    · cases s.treeLookup e .dirty v offset with
      | none => exact ih s (offset + 1) pgs
      | some tp =>
        simp only [Env.retype_ncpus, map_treeErase, map_removeIf g _ tp (.dirty k) (map_evDeq g)]
        rcases (s.treeErase ⟨.dirty, v, offset % e.ncpus⟩ offset).removeIf (.dirty k) tp evDeq with
          ⟨b, t⟩
        cases b with
        | true => exact ih t (offset + 1) (pgs ++ [tp])
        | false => exact ih (t.treeInsert e .dirty v (t.pages tp).index tp) (offset + 1) pgs

lemma map_evict (v : PvdId) (pgs : List PageId) :
    (s.map g).evict (e.retype D) v pgs = (s.evict e v pgs).map g := by
  simp only [evict]
  rw [map_foldl g s (map_clearMappings g), map_writePages g _ he,
    map_foldl g _ (fun s p => map_insertPage g s p true), map_foldl g _ (map_unlockTp g)]

lemma map_evictorRound (k : ℕ) :
    (s.map g).evictorRound (e.retype D) k = (s.evictorRound e k).map g := by
  simp only [evictorRound, show (s.map g).belowThreshold (e.retype D) = s.belowThreshold e from rfl,
    map_dequeueIf g s (.dirty k) (map_evDeq g)]
  split_ifs
  · rfl
  · rcases s.dequeueIf (.dirty k) evDeq with ⟨_ | p, t⟩
    · rfl
    · simp only [Prod.map_apply, id_eq, show ((t.map g).pages p).pvd = (t.pages p).pvd from rfl,
        show ((t.map g).pages p).index = (t.pages p).index from rfl]
      cases (t.pages p).pvd with
      | none => rfl
      | some v =>
        simp only [map_removeFromDirtyTree, map_collect]
        rcases collect e k v collectIters ((t.pages p).index + 1) [p] (t.removeFromDirtyTree e p)
          with ⟨pgs, u⟩
        exact map_evict g u he v pgs

/-! ### `write_dirty_pages` -/

omit he in
lemma map_pullTree (v : PvdId) (cpu : ℕ) (h : MinHeap) :
    (s.map g).pullTree v cpu h = (s.pullTree v cpu h).map (Prod.map (map g) id) := by
  simp only [pullTree, show (s.map g).trees = s.trees from rfl]
  cases (s.trees ⟨.dirty, v, cpu⟩).first? with
  | none => rfl
  | some kp =>
    obtain ⟨k, p⟩ := kp
    simp only [map_trylockTp]
    rcases s.trylockTp p ulongMax with ⟨r, t⟩
    simp only [Prod.map_apply, id_eq]
    split
    · rename_i s' hs
      obtain ⟨rfl, rfl⟩ := Prod.mk.inj hs
      simp only [show ((t.map g).pages p).index = (t.pages p).index from rfl]
      cases minHeapInsert h ⟨cpu, (t.pages p).index, p⟩ <;> rfl
    · rename_i hne
      split
      · rename_i hs
        obtain ⟨rfl, rfl⟩ := Prod.mk.inj hs
        exact absurd rfl (hne _)
      · rfl

omit he in
lemma map_fillHeap (v : PvdId) (cpus : List ℕ) (h : MinHeap) :
    fillHeap v cpus (s.map g) h = (fillHeap v cpus s h).map (Prod.map (map g) id) := by
  induction cpus generalizing s h with
  | nil => rfl
  | cons cpu cpus ih =>
    simp only [fillHeap, map_pullTree]
    cases s.pullTree v cpu h with
    | error x => rfl
    | ok r => exact ih r.1 r.2

omit he in
lemma map_pageCleanup (cb : Cleanup) : pageCleanup cb (s.map g) p = (pageCleanup cb s p).map g := by
  cases cb <;> simp [pageCleanup]

lemma map_flush (v : PvdId) (pgs : List PageId) :
    (s.map g).flush (e.retype D) v pgs = (s.flush e v pgs).map g := by
  simp only [flush]
  rw [map_writePages g s he, map_foldl g _ (map_unlockTp g)]

lemma map_drain (cb : Cleanup) (v : PvdId) (fuel : ℕ) (h : MinHeap) (pgs : List PageId) :
    drain (e.retype D) cb v fuel h pgs (s.map g) = (drain e cb v fuel h pgs s).map (map g) := by
  induction fuel generalizing s h pgs with
  | zero => rfl
  | succ fuel ih =>
    simp only [drain]
    by_cases hz : h.size = 0
    · simp only [if_pos hz, map_flush g s he]
      split_ifs <;> rfl
    · simp only [if_neg hz]
      rcases minHeapDeleteMin h with ⟨n, h₁⟩
      simp only [map_pullTree]
      cases s.pullTree v n.cpu h₁ with
      | error x => rfl
      | ok r =>
        obtain ⟨t, h₂⟩ := r
        simp only [Except.map, Prod.map_apply, id_eq, map_pageCleanup, map_flush g _ he]
        by_cases hn : (pgs ++ [n.p]).length = 512
        · simp only [if_pos hn]
          exact ih _ h₂ []
        · simp only [if_neg hn]
          exact ih _ h₂ _

lemma map_writeDirtyPages (cb : Cleanup) (v : PvdId) :
    (s.map g).writeDirtyPages (e.retype D) cb v = (s.writeDirtyPages e cb v).map (map g) := by
  simp only [writeDirtyPages, map_fillHeap, Env.retype_ncpus,
    show (s.map g).treeSize (e.retype D) .dirty v = s.treeSize e .dirty v from rfl]
  cases fillHeap v (List.range e.ncpus) s minHeapCreate with
  | error x => rfl
  | ok r => exact map_drain g r.1 he cb v _ r.2 []

/-! ### Reclaim and faults -/

omit he in
lemma map_purgeOne (qid : ℕ) :
    (s.map g).purgeOne (e.retype D) qid = (s.purgeOne e qid).map id (map g) := by
  simp only [purgeOne, map_dequeueIf g s (.clean qid) (map_deq g)]
  rcases s.dequeueIf (.clean qid) deq with ⟨_ | p, t⟩
  · rfl
  · simp only [Prod.map_apply, id_eq, show ((t.map g).pages p).pvd = (t.pages p).pvd from rfl,
      show ((t.map g).pages p).index = (t.pages p).index from rfl, Env.retype_ncpus]
    cases (t.pages p).pvd with
    | none => rfl
    | some v => simp

omit he in
lemma map_purgeCollect (qid n : ℕ) (pgs : List PageId) :
    purgeCollect (e.retype D) qid n pgs (s.map g) =
      (purgeCollect e qid n pgs s).map id (map g) := by
  induction n generalizing s pgs with
  | zero => rfl
  | succ n ih =>
    simp only [purgeCollect, map_purgeOne]
    rcases s.purgeOne e qid with ⟨_ | p, t⟩
    · exact ih t pgs
    · exact ih t (pgs ++ [p])

omit he in
lemma map_tryPurgePagesFast (qid : ℕ) :
    (s.map g).tryPurgePagesFast (e.retype D) qid = (s.tryPurgePagesFast e qid).map g := by
  simp only [tryPurgePagesFast, map_purgeCollect]
  exact map_foldl g _ (map_freePageLock g) _

omit he in
lemma map_findPage (v : PvdId) (offset : Pgoff) (as : List Attempt) :
    findPage (e.retype D) v offset as (s.map g) =
      (findPage e v offset as s).map (Prod.map id (Prod.map id (map g))) := by
  induction as generalizing s with
  | nil => rfl
  | cons a as ih =>
    simp only [findPage, show (s.map g).fmapRadixLookup (e.retype D) v offset =
      s.fmapRadixLookup e v offset from rfl]
    cases if a.stale then none else s.fmapRadixLookup e v offset with
    | none =>
      simp only [map_allocPageLock]
      rcases s.allocPageLock e a.node offset v with ⟨_ | p, t⟩
      · simp only [Prod.map_apply, id_eq, map_tryPurgePagesFast]
        exact ih _
      · simp only [Prod.map_apply, id_eq, map_trylockTp, Prod.map_snd]
        have hins : ∀ t : State C, (t.map g).fmapRadixInsert (e.retype D) v offset p =
            (t.fmapRadixInsert e v offset p).map id (map g) := fun _ => rfl
        rw [hins]
        rcases (t.trylockTp p ulongMax).2.fmapRadixInsert e v offset p with ⟨b, u⟩
        cases b with
        | true => rfl
        | false =>
          simp only [Prod.map_apply, id_eq, map_freePageLock]
          exact ih _
    | some p =>
      simp only [map_trylockTp]
      rcases s.trylockTp p ulongMax with ⟨r, t⟩
      simp only [Prod.map_apply, id_eq]
      split
      · rename_i s' hs
        obtain ⟨rfl, rfl⟩ := Prod.mk.inj hs
        rfl
      · rename_i r' s' hne hs
        obtain ⟨rfl, rfl⟩ := Prod.mk.inj hs
        split
        · rename_i hs'
          obtain ⟨rfl, rfl⟩ := Prod.mk.inj hs'
          exact absurd rfl (hne)
        · rename_i hs'
          obtain ⟨rfl, rfl⟩ := Prod.mk.inj hs'
          exact ih _

/-- What a read leaves in a frame, seen through `g`. -/
def ReadsLike (v : PvdId) (offset : Pgoff) (r : ReadResult C) (r' : ReadResult D) : Prop :=
  ∀ back frame, r'.content (g back) (g frame) = g (s.readAs v offset r back frame)

omit he in
lemma map_dmapDoPageIo {v : PvdId} {offset : Pgoff} {r : ReadResult C} {r' : ReadResult D}
    (hr : ReadsLike g s v offset r r') :
    (s.map g).dmapDoPageIo v offset p r' = (s.dmapDoPageIo v offset p r).map g := by
  have hvalid : ∀ t : State C, ((t.map g).modifyPage p fun t => { t with pageValid := true }) =
      (t.modifyPage p fun t => { t with pageValid := true }).map g :=
    fun t => map_modifyPage g t p rfl
  have hcont : ∀ c, (s.map g).setContent p (g c) = (s.setContent p c).map g := fun c =>
    map_modifyPage g s p rfl
  simp only [dmapDoPageIo, show ((s.map g).pages p).pageValid = (s.pages p).pageValid from rfl]
  by_cases hv : (s.pages p).pageValid = true
  · simp only [if_pos hv, hvalid]
  · simp only [if_neg hv]
    rw [← hvalid]
    congr 1
    have hread : (s.map g).readOrFake v offset p r' =
        (s.map g).setContent p
          (g (s.readAs v offset r (s.disk ((s.pvds v).bk, offset)) (s.pages p).content)) := by
      rw [← hr]
      simp only [readOrFake, show (s.map g).pvds = s.pvds from rfl]
      cases (s.pvds v).type <;> rfl
    rw [hread, hcont]
    simp only [readOrFake, readAs]
    cases (s.pvds v).type with
    | file => rfl
    | blkd =>
      cases s.bitmap ((s.pvds v).bk, offset) with
      | true => rfl
      | false =>
        -- the frame keeps what it held, and the bitmap is forgotten
        have hkeep : s.setContent p (s.pages p).content = s := by
          simp only [setContent, modifyPage]
          rw [show { s.pages p with content := (s.pages p).content } = s.pages p from rfl,
            Function.update_eq_self]
        simp only [and_self, if_true, hkeep]
        rfl

/-- A fault with the same choices of the environment, seen through `g`. -/
structure FaultsLike (vmf : VmFault) (f : FaultEnv C) (f' : FaultEnv D) : Prop where
  attempts : f'.attempts = f.attempts
  cpu : f'.cpu = f.cpu
  read {v : PvdId} : s.vmaPvd vmf.vma = some v → ReadsLike g s v vmf.pgoff f.read f'.read
  inFile {v : PvdId} : s.vmaPvd vmf.vma = some v →
    numPages vmf.pgoff (int32 (s.devPages (s.pvds v).bk)) = 1

omit he in
lemma map_permaGetpage (h : s.Inv e) {vmf : VmFault} {f : FaultEnv C} {f' : FaultEnv D}
    (hf : FaultsLike g s vmf f f') :
    (s.map g).permaGetpage (e.retype D) vmf f' =
      (s.permaGetpage e vmf f).map (Prod.map id (map g)) := by
  simp only [permaGetpage, show (s.map g).vmaPvd vmf.vma = s.vmaPvd vmf.vma from rfl,
    show (s.map g).vmas = s.vmas from rfl, show (s.map g).pvds = s.pvds from rfl,
    show ∀ d, (s.map g).devPages d = anySize from fun _ => rfl, hf.attempts, hf.cpu, map_findPage]
  cases hv : s.vmaPvd vmf.vma with
  | none => rfl
  | some v =>
    simp only [hf.inFile hv, numPages_anySize, ne_eq, not_true_eq_false, if_false]
    split_ifs
    · rfl
    · cases hp : findPage e v vmf.pgoff f.attempts s with
      | error x => rfl
      | ok r =>
        obtain ⟨p, hit, t⟩ := r
        obtain ⟨hout, -⟩ := h.findPage hp
        cases hit with
        | true =>
          simp only [Except.map, Prod.map_apply, id_eq, map_dmapAddOrUpdateRmap,
            show ((t.map g).pages p).pageValid = (t.pages p).pageValid from rfl]
          split_ifs
          · cases t.dmapAddOrUpdateRmap vmf p f.cpu <;> rfl
          · rfl
        | false =>
          have hread : ReadsLike g (t.insertPage p false) v vmf.pgoff f.read f'.read := by
            have ho := (outside_insertPage t p false).trans hout
            intro back frame
            rw [hf.read hv, readAs, readAs,
              show (t.insertPage p false).pvds = s.pvds from congrArg Outside.pvds ho,
              show (t.insertPage p false).bitmap = s.bitmap from congrArg Outside.bitmap ho]
          simp only [Except.map, Prod.map_apply, id_eq, map_insertPage,
            map_dmapDoPageIo g _ p hread, map_dmapAddOrUpdateRmap]
          cases ((t.insertPage p false).dmapDoPageIo v vmf.pgoff p f.read).dmapAddOrUpdateRmap vmf p
            f.cpu <;> rfl

omit he in
lemma map_finishFault (vmf : VmFault) :
    (s.map g).finishFault vmf p = (s.finishFault vmf p).map g := by
  simp only [finishFault, show (s.map g).pte = s.pte from rfl]
  split_ifs
  · rw [show (s.map g).setPte vmf.vma vmf.address (.map p false) =
      (s.setPte vmf.vma vmf.address (.map p false)).map g from rfl, map_unlockTp]
  · exact map_unlockTp g s p

omit he in
lemma map_fault (h : s.Inv e) {vma : VmaId} {i : ℕ} {f : FaultEnv C} {f' : FaultEnv D}
    (hf : FaultsLike g s (s.vmFault vma i) f f') :
    (s.map g).fault (e.retype D) vma i f' = (s.fault e vma i f).map (map g) := by
  simp only [fault, show (s.map g).vmFault vma i = s.vmFault vma i from rfl,
    map_permaGetpage g s h hf]
  cases s.permaGetpage e (s.vmFault vma i) f with
  | error x => rfl
  | ok r => exact congrArg Except.ok (map_finishFault g r.2 r.1 _)

omit he in
lemma map_dmapDoTaggedPageWritable (v : PvdId) :
    (s.map g).dmapDoTaggedPageWritable (e.retype D) v p =
      (s.dmapDoTaggedPageWritable e v p).map (map g) := by
  simp only [dmapDoTaggedPageWritable, map_setDirty,
    show ((s.map g).pages p).isDirty = (s.pages p).isDirty from rfl,
    show (((s.setDirty p true).map g).pages p).bufferId = ((s.setDirty p true).pages p).bufferId
      from rfl,
    show (((s.setDirty p true).map g).pages p).index = ((s.setDirty p true).pages p).index from rfl,
    map_treeInsert, map_movePageC2d]
  split_ifs <;> rfl

omit he in
lemma map_permaPageMkwrite (vmf : VmFault) :
    (s.map g).permaPageMkwrite (e.retype D) vmf p =
      (s.permaPageMkwrite e vmf p).map (Prod.map id (map g)) := by
  simp only [permaPageMkwrite, show (s.map g).vmaPvd vmf.vma = s.vmaPvd vmf.vma from rfl,
    map_trylockTp]
  cases s.vmaPvd vmf.vma with
  | none => rfl
  | some v =>
    simp only [trylockTp]
    split_ifs
    · rfl
    · rfl
    · rfl
    · simp only [Prod.map_apply, id_eq, map_dmapDoTaggedPageWritable]
      cases (s.modifyPage p fun t => { t with locked := true }).dmapDoTaggedPageWritable e v p <;>
        rfl

omit he in
lemma map_mkwrite (vma : VmaId) (i : ℕ) :
    (s.map g).mkwrite (e.retype D) vma i = (s.mkwrite e vma i).map (map g) := by
  simp only [mkwrite, show (s.map g).vmFault vma i = s.vmFault vma i from rfl,
    show (s.map g).pte = s.pte from rfl, map_permaPageMkwrite]
  cases s.pte (vma, (s.vmFault vma i).address) with
  | none => rfl
  | map p b =>
    dsimp only
    cases s.permaPageMkwrite e (s.vmFault vma i) p with
    | error x => rfl
    | ok r =>
      obtain ⟨b, t⟩ := r
      cases b with
      | false => rfl
      | true =>
        refine congrArg Except.ok ?_
        exact map_unlockTp g (t.setPte vma (s.vmFault vma i).address (.map p true)) p

omit he in
lemma map_store (vma : VmaId) (i : ℕ) {f : C → C} {f' : D → D} (hf : ∀ c, f' (g c) = g (f c)) :
    (s.map g).store vma i f' = (s.store vma i f).map (map g) := by
  have hstore : ∀ p, ((s.map g).modifyPage p fun t => { t with content := f' t.content }) =
      (s.modifyPage p fun t => { t with content := f t.content }).map g := by
    intro p
    apply map_modifyPage
    simp only [TaggedPage.map, hf]
  simp only [store, show (s.map g).pte = s.pte from rfl, show (s.map g).vmas = s.vmas from rfl,
    hstore]
  cases s.pte (vma, (s.vmas vma).addr i) with
  | none => rfl
  | map p b => cases b <;> rfl

/-! ### Releases and evictors -/

omit he in
lemma map_popRadix (v : PvdId) (cpus : List ℕ) :
    (s.map g).popRadix v cpus = (s.popRadix v cpus).map (Prod.map id (map g)) := by
  induction cpus with
  | nil => rfl
  | cons cpu cpus ih =>
    simp only [popRadix, show (s.map g).trees = s.trees from rfl]
    cases (s.trees ⟨.rdx, v, cpu⟩).first? with
    | none => exact ih
    | some kp => rfl

omit he in
lemma map_rawReleasePage : (s.map g).rawReleasePage p = (s.rawReleasePage p).map g := by
  simp only [rawReleasePage, show ((s.map g).pages p).bufferId = (s.pages p).bufferId from rfl,
    show ((s.map g).pages p).index = (s.pages p).index from rfl]
  cases (s.pages p).bufferId <;> simp

omit he in
lemma map_clearRadix (v : PvdId) (fuel : ℕ) :
    clearRadix (e.retype D) v rawReleasePage fuel (s.map g) =
      (clearRadix e v rawReleasePage fuel s).map (map g) := by
  induction fuel generalizing s with
  | zero =>
    rw [clearRadix, clearRadix, Env.retype_ncpus, map_popRadix]
    cases s.popRadix v (List.range e.ncpus) <;> rfl
  | succ fuel ih =>
    rw [clearRadix, clearRadix, Env.retype_ncpus, map_popRadix]
    cases s.popRadix v (List.range e.ncpus) with
    | none => rfl
    | some r =>
      obtain ⟨p, t⟩ := r
      simp only [Option.map_some, Prod.map_apply, id_eq, map_trylockTp]
      rcases t.trylockTp p ulongMax with ⟨n, u⟩
      simp only [Prod.map_apply, id_eq]
      split
      · rename_i hs
        obtain ⟨rfl, rfl⟩ := Prod.mk.inj hs
        rw [map_rawReleasePage]
        exact ih _
      · rename_i hne
        split
        · rename_i hs
          obtain ⟨rfl, rfl⟩ := Prod.mk.inj hs
          exact absurd rfl (hne _)
        · rfl

lemma map_rawRelease (v : PvdId) :
    (s.map g).rawRelease (e.retype D) v = (s.rawRelease e v).map (map g) := by
  simp only [rawRelease, map_writeDirtyPages g s he]
  cases s.writeDirtyPages e .release v with
  | error x => rfl
  | ok t => exact map_clearRadix g t v _

lemma map_evictorRoundHeld (k : ℕ) (held : List PageId) :
    (s.map g).evictorRoundHeld (e.retype D) k held = (s.evictorRoundHeld e k held).map g := by
  have hlock : ∀ (s : State C) p,
      ((s.map g).trylockTp p ulongMax).2 = ((s.trylockTp p ulongMax).2).map g := by
    intro s p
    rw [map_trylockTp]
    rfl
  simp only [evictorRoundHeld]
  rw [map_foldl g s hlock, map_evictorRound g _ he, map_foldl g _ (map_unlockTp g)]

/-! ### Every call -/

/-- The same call over other contents, with the same choices of the environment. -/
inductive CallsLike : Op C → Op D → Prop
  | fault {vma : VmaId} {i : ℕ} {f : FaultEnv C} {f' : FaultEnv D} :
      FaultsLike g s (s.vmFault vma i) f f' → CallsLike (.fault vma i f) (.fault vma i f')
  | mkwrite (vma : VmaId) (i : ℕ) : CallsLike (.mkwrite vma i) (.mkwrite vma i)
  | store {vma : VmaId} {i : ℕ} {f : C → C} {f' : D → D} :
      (∀ c, f' (g c) = g (f c)) → CallsLike (.store vma i f) (.store vma i f')
  | evictor (k : ℕ) (held : List PageId) : CallsLike (.evictor k held) (.evictor k held)
  | writeDirty (cb : Cleanup) (v : PvdId) : CallsLike (.writeDirty cb v) (.writeDirty cb v)
  | purge (qid : ℕ) : CallsLike (.purge qid) (.purge qid)
  | rawRelease (v : PvdId) : CallsLike (.rawRelease v) (.rawRelease v)

omit he in
lemma map_issued {op : Op C} {op' : Op D} (hop : CallsLike g s op op') :
    (s.map g).issued (e.retype D) op' = s.issued e op := by
  cases hop <;> rfl

/-- A call does the same whatever the pages hold. -/
theorem map_exec (h : s.Inv e) {op : Op C} {op' : Op D} (hop : CallsLike g s op op') :
    (s.map g).exec (e.retype D) op' = (s.exec e op).map (map g) := by
  cases hop with
  | fault hf => exact map_fault g s h hf
  | mkwrite vma i => exact map_mkwrite g s vma i
  | store hf => exact map_store g s _ _ hf
  | evictor k held => exact congrArg Except.ok (map_evictorRoundHeld g s he k held)
  | writeDirty cb v => exact map_writeDirtyPages g s he cb v
  | purge qid => exact congrArg Except.ok (map_tryPurgePagesFast g s qid)
  | rawRelease v => exact map_rawRelease g s he v

end State

end FastMap
