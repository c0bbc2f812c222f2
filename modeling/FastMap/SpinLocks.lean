import FastMap.Lib.LockOrder
import FastMap.State

/-!
# The order of the locks

The locks that each call of the driver takes, one after the other and one inside the other. The
locks stand in three levels, and every call but one takes them downwards, so the calls never block
each other. The one is `perma_mremap`: it takes the `rmap_lock` of a page inside a
`pcpu_mapped_lock`, and all others take them the other way round.

What a call finds is arbitrary here: the pages, their slots, and how often an attempt to lock a page
fails. The lock of a page itself is a bit, set and cleared under `tp_lock_guard`. For the calls that
`Threads` takes step by step, `LockSections` and `LockTraces` join the lists to the steps.
-/

namespace FastMap

/-- The spinlocks of the driver, the locks of the page tables, `raw_mutex` and `mmap_sem`. -/
inductive Lock where
  | rawMutex
  | mmapSem (mm : ℕ)
  | bufferLock
  | inoPvdLock
  /-- `qlock` or `dlock` -/
  | fifoLock (q : Queue)
  /-- `radix_lock` or `tree_lock` -/
  | treeLock (t : TreeId)
  | rmapLock (p : PageId)
  | flLock (cpu : ℕ)
  | ptl (i : ℕ)
  | pcpuMappedLock (x : PveId) (cpu : ℕ)
  | tpLockGuard (p : PageId)
  deriving DecidableEq, Repr

namespace Lock

/-- The level of a lock. -/
def level : Lock → Fin 3
  | .rawMutex => 0
  | .mmapSem _ => 0
  | .bufferLock => 0
  | .inoPvdLock => 1
  | .fifoLock _ => 1
  | .treeLock _ => 1
  | .rmapLock _ => 1
  | .flLock _ => 1
  | .ptl _ => 2
  | .pcpuMappedLock _ _ => 2
  | .tpLockGuard _ => 2

end Lock

open LockOp

/-! ### What the calls find -/

/-- A valid slot of a page: the page table in which the walk finds the entry, if it does, and the
list that the slot is on. -/
structure SlotRef where
  ptl : Option ℕ
  pve : PveId
  cpu : ℕ
  deriving DecidableEq, Repr

/-- The fields of a page that say which locks its operations take. -/
structure PageRef where
  page : PageId
  pvd : PvdId
  index : Pgoff
  cpuid : ℕ
  slots : List SlotRef
  deriving DecidableEq, Repr

/-- A sequence of operations on locks. -/
abbrev LockOps := List (LockOp Lock)

namespace LockOps

/-! ### Pages -/

def trylockTp (p : PageId) : LockOps := critical (.tpLockGuard p) []

def unlockTp (p : PageId) : LockOps := critical (.tpLockGuard p) []

/-- `while(trylock_tp(p, ULONG_MAX) != 0) wait_on_page_bit(p->page, PG_locked);` -/
def waitTp (p : PageId) (tries : ℕ) : LockOps :=
  (List.replicate tries p).flatMap trylockTp

/-- `alloc_page_lock` looks at the lists of some CPUs. -/
def allocPageLock (cpus : List ℕ) (found : Option PageId) : LockOps :=
  cpus.flatMap (fun cpu => critical (.flLock cpu) []) ++
    found.elim [] fun p => critical (.tpLockGuard p) []

def freePageLock (r : PageRef) : LockOps :=
  critical (.tpLockGuard r.page) [] ++ unlockTp r.page ++ critical (.flLock r.cpuid) []

/-! ### Mappings -/

/-- `zap_page_from_address_space`, or the walk of `clear_mappings`. -/
def walk (x : SlotRef) : LockOps := x.ptl.elim [] fun i => critical (.ptl i) []

/-- The entry goes, and the slot leaves its list. -/
def unmapSlot (x : SlotRef) : LockOps := walk x ++ critical (.pcpuMappedLock x.pve x.cpu) []

def removeMappings (r : PageRef) : LockOps :=
  critical (.rmapLock r.page) (r.slots.flatMap unmapSlot)

def clearMappings (r : PageRef) : LockOps :=
  critical (.rmapLock r.page) (r.slots.flatMap walk)

/-- `dmap_add_or_update_rmap`; `new` is the list that a new slot is put on. -/
def dmapAddOrUpdateRmap (p : PageId) (new : Option (PveId × ℕ)) : LockOps :=
  critical (.rmapLock p) [] ++ new.elim [] fun x => critical (.pcpuMappedLock x.1 x.2) []

/-! ### Queues and trees -/

/-- `dequeue_if` or `remove_if`; the condition tries to lock `tried`. -/
def takeIf (q : Queue) (tried : Option PageId) : LockOps :=
  critical (.fifoLock q) (tried.elim [] trylockTp)

def insertPage (r : PageRef) : LockOps := critical (.fifoLock (cleanQueue r.index)) []

def movePageC2d (r : PageRef) : LockOps :=
  critical (.fifoLock (cleanQueue r.index)) [] ++ critical (.fifoLock (dirtyQueue r.index)) []

def movePageD2c (r : PageRef) : LockOps :=
  critical (.fifoLock (dirtyQueue r.index)) [] ++ critical (.fifoLock (cleanQueue r.index)) []

/-- A section on the radix tree or on the dirty tree of an offset. -/
def onTree (ncpus : ℕ) (k : TreeKind) (v : PvdId) (offset : Pgoff) : LockOps :=
  critical (.treeLock ⟨k, v, offset % ncpus⟩) []

def fmapRadixInsert (ncpus : ℕ) (v : PvdId) (offset : Pgoff) : LockOps := onTree ncpus .rdx v offset

def removeFromDirtyTree (ncpus : ℕ) (r : PageRef) : LockOps := onTree ncpus .dirty r.pvd r.index

/-- `drain_page`; a page that is locked already is not waited for. -/
def drainPage (ncpus : ℕ) (r : PageRef) (tries : ℕ) : LockOps :=
  waitTp r.page tries ++ onTree ncpus .rdx r.pvd r.index ++ removeMappings r ++ freePageLock r

/-! ### Faults -/

/-- One turn of `try_purge_pages_fast`: the page that `deq` tries to lock, and the page that leaves
the queue. -/
structure PurgeTurn where
  tried : Option PageId
  found : Option PageRef

def PurgeTurn.ops (ncpus : ℕ) (qid : ℕ) (x : PurgeTurn) : LockOps :=
  takeIf (.clean qid) x.tried ++
    x.found.elim [] fun r => onTree ncpus .rdx r.pvd r.index ++ removeMappings r

def tryPurgePagesFast (ncpus : ℕ) (qid : ℕ) (turns : List PurgeTurn) : LockOps :=
  turns.flatMap (PurgeTurn.ops ncpus qid) ++ (turns.filterMap PurgeTurn.found).flatMap freePageLock

/-- A turn of `perma_getpage` that goes back to `retry_find_page`: there is no free page, somebody
else has inserted the page, or the page is locked. -/
inductive GetRetry where
  | full (cpus : List ℕ) (qid : ℕ) (turns : List PurgeTurn)
  | raced (cpus : List ℕ) (r : PageRef)
  | busy (p : PageId)

def GetRetry.ops (ncpus : ℕ) : GetRetry → LockOps
  | .full cpus qid turns => allocPageLock cpus none ++ tryPurgePagesFast ncpus qid turns
  | .raced cpus r => allocPageLock cpus (some r.page) ++ trylockTp r.page ++
      fmapRadixInsert ncpus r.pvd r.index ++ freePageLock r
  | .busy p => trylockTp p

/-- The last turn: the page is new, or it was found. -/
inductive GetEnd where
  | miss (cpus : List ℕ) (r : PageRef)
  | hit (r : PageRef)

def GetEnd.page : GetEnd → PageId
  | .miss _ r => r.page
  | .hit r => r.page

def GetEnd.ops (ncpus : ℕ) : GetEnd → LockOps
  | .miss cpus r => allocPageLock cpus (some r.page) ++ trylockTp r.page ++
      fmapRadixInsert ncpus r.pvd r.index ++ insertPage r
  | .hit r => trylockTp r.page

def permaGetpage (ncpus : ℕ) (retries : List GetRetry) (last : GetEnd)
    (new : Option (PveId × ℕ)) : LockOps :=
  retries.flatMap (GetRetry.ops ncpus) ++ last.ops ncpus ++ dmapAddOrUpdateRmap last.page new

/-- `dmap_do_tagged_page_writable` on a page that is not dirty; `v` is the pvd of the area. -/
def dmapDoTaggedPageWritable (ncpus : ℕ) (v : PvdId) (r : PageRef) : LockOps :=
  onTree ncpus .dirty v r.index ++ movePageC2d r

/-- `perma_page_mkwrite`; `clean` is the page if it is locked in the end and not dirty. -/
def permaPageMkwrite (ncpus : ℕ) (v : PvdId) (p : PageId) (tries : ℕ) (clean : Option PageRef) :
    LockOps :=
  waitTp p tries ++ clean.elim [] (dmapDoTaggedPageWritable ncpus v)

/-- `__pve_release`: `pop_one_pvr` looks at the lists of the CPUs up to some one, and the walk
finds an entry or not. -/
def pveRelease (x : PveId) (pops : List (ℕ × Option ℕ)) : LockOps :=
  pops.flatMap fun y => (List.range y.1).flatMap (fun cpu => critical (.pcpuMappedLock x cpu) []) ++
    y.2.elim [] fun i => critical (.ptl i) []

/-! ### Write-back -/

/-- An offset that an evictor looks up in the dirty tree: the page there, and whether it could be
locked. -/
structure ScanTurn where
  offset : Pgoff
  found : Option (PageId × Bool)

def ScanTurn.ops (ncpus : ℕ) (id : ℕ) (v : PvdId) (x : ScanTurn) : LockOps :=
  onTree ncpus .dirty v x.offset ++ x.found.elim [] fun y =>
    takeIf (.dirty id) (some y.1) ++ if y.2 then [] else onTree ncpus .dirty v x.offset

/-- A round of `evictor_thread` that finds a page, with the batch that it collects. -/
structure EvictRound where
  first : PageRef
  scan : List ScanTurn
  pgs : List PageRef

def evictorRound (ncpus : ℕ) (id : ℕ) (tried : Option PageId) (found : Option EvictRound) :
    LockOps :=
  takeIf (.dirty id) tried ++ found.elim [] fun x => removeFromDirtyTree ncpus x.first ++
    x.scan.flatMap (ScanTurn.ops ncpus id x.first.pvd) ++ x.pgs.flatMap clearMappings ++
      x.pgs.flatMap insertPage ++ x.pgs.flatMap fun r => unlockTp r.page

/-- The passes over one dirty tree until a page is locked or the tree is empty. -/
def pullTree (v : PvdId) (cpu : ℕ) (tried : List (Option PageId)) : LockOps :=
  tried.flatMap fun p => critical (.treeLock ⟨.dirty, v, cpu⟩) (p.elim [] trylockTp)

/-- A turn of the main loop of `write_dirty_pages`: the page with the least offset, the passes over
the tree it came from, and the pages that are written and unlocked when the batch is full. -/
structure DrainTurn where
  least : PageRef
  cpu : ℕ
  tried : List (Option PageId)
  written : List PageId

/-- The callbacks: `fsync` clears the mappings first. -/
def cleanup (fsync : Bool) (r : PageRef) : LockOps :=
  (if fsync then clearMappings r else []) ++ movePageD2c r

def DrainTurn.ops (fsync : Bool) (v : PvdId) (x : DrainTurn) : LockOps :=
  pullTree v x.cpu x.tried ++ cleanup fsync x.least ++ x.written.flatMap unlockTp

/-- What a `write_dirty_pages` finds. -/
structure SyncRun where
  pvd : PvdId
  fills : List (ℕ × List (Option PageId))
  turns : List DrainTurn
  rest : List PageId

def writeDirtyPages (fsync : Bool) (x : SyncRun) : LockOps :=
  x.fills.flatMap (fun y => pullTree x.pvd y.1 y.2) ++
    x.turns.flatMap (DrainTurn.ops fsync x.pvd) ++ x.rest.flatMap unlockTp

/-! ### The calls -/

/-- A page that a teardown waits for, the queue that it takes it out of, and whether it frees it. -/
structure DropTurn where
  page : PageRef
  tries : ℕ
  queue : Option Queue
  freed : Bool

def DropTurn.ops (x : DropTurn) : LockOps :=
  waitTp x.page.page x.tries ++ x.queue.elim [] (fun q => critical (.fifoLock q) []) ++
    if x.freed then freePageLock x.page else unlockTp x.page.page

/-- The calls of the driver, with what they find. -/
inductive Call where
  /-- `perma_vma_fault` -/
  | fault (retries : List GetRetry) (last : GetEnd) (new : Option (PveId × ℕ))
  | mkwrite (v : PvdId) (p : PageId) (tries : ℕ) (clean : Option PageRef)
  /-- `try_purge_pages_fast`, which is part of a fault and returns to it. -/
  | purge (qid : ℕ) (turns : List PurgeTurn)
  /-- `perma_vma_close` of the last area. -/
  | close (x : PveId) (pops : List (ℕ × Option ℕ))
  | evict (id : ℕ) (tried : Option PageId) (found : Option EvictRound)
  /-- `dmap_fsync` -/
  | dmapFsync (mm : ℕ) (x : SyncRun)
  /-- `wrapfs_fsync` -/
  | fsync (x : SyncRun)
  /-- `wrapfs_file_release` -/
  | release (x : SyncRun)
  | rawRelease (x : SyncRun) (drops : List DropTurn)
  /-- `wrapfs_unlink` of the last link. -/
  | unlink (drops : List DropTurn)
  /-- `__clear_pvd` -/
  | clearPvd (drops : List DropTurn)
  /-- `wrapfs_open` of a file that has no pvd. -/
  | openFile
  /-- `raw_open`, `bind_set` or `bind_get`. -/
  | raw
  /-- `change_page_priority` of a page that is not cached. Of a page that is, it ends in a `BUG()`
  with `buffer_lock` and the lock of a clean queue held, and whoever asks for them after that waits
  for ever. -/
  | changePagePriority
  /-- `reset_params`, `reset_state`, `reset_history` or `update_runtime_parameters`. -/
  | onBank
  /-- `cleanup_params`: each page that is dequeued is drained. -/
  | cleanupParams (turns : List (ℕ × Option (PageRef × ℕ)))
  /-- `init_hash_table_free_pages` or `free_hash_table`. -/
  | freeLists (cpus : List ℕ)

def Call.ops (ncpus : ℕ) : Call → LockOps
  | .fault retries last new => permaGetpage ncpus retries last new
  | .mkwrite v p tries clean => permaPageMkwrite ncpus v p tries clean
  | .purge qid turns => tryPurgePagesFast ncpus qid turns
  | .close x pops => pveRelease x pops
  | .evict id tried found => evictorRound ncpus id tried found
  | .dmapFsync mm x => critical (.mmapSem mm) (writeDirtyPages true x)
  | .fsync x => writeDirtyPages true x
  | .release x => writeDirtyPages false x
  | .rawRelease x drops => writeDirtyPages false x ++ drops.flatMap DropTurn.ops ++
      critical .rawMutex []
  | .unlink drops => critical .inoPvdLock [] ++ drops.flatMap DropTurn.ops
  | .clearPvd drops => drops.flatMap DropTurn.ops
  | .openFile => critical .inoPvdLock []
  | .raw => critical .rawMutex []
  | .changePagePriority => critical .bufferLock []
  | .onBank => critical .bufferLock []
  | .cleanupParams turns => critical .bufferLock (turns.flatMap fun x =>
      critical (.fifoLock (.clean x.1)) [] ++ x.2.elim [] fun y => drainPage ncpus y.1 y.2)
  | .freeLists cpus => cpus.flatMap fun cpu => critical (.flLock cpu) []

/-- A turn of the inner loop of `perma_mremap`: the page of a slot on the list, and the list that
the new slot is put on. -/
def moveSlot (new : PveId) (y : PageId × ℕ) : LockOps :=
  critical (.rmapLock y.1) [] ++ critical (.pcpuMappedLock new y.2) []

/-- `perma_mremap`: the slots on the list of each CPU. -/
def permaMremap (old new : PveId) (lists : List (ℕ × List (PageId × ℕ))) : LockOps :=
  lists.flatMap fun x => critical (.pcpuMappedLock old x.1) (x.2.flatMap (moveSlot new))

/-! ### Downwards -/

/-- The locks of the operations are on this level or below. -/
abbrev Below (i : Fin 3) (x : LockOps) : Prop := Above Lock.level i x

section downwards

variable {i : Fin 3} {x y : LockOps} {ncpus : ℕ}

lemma below_elim {β : Type*} {f : β → LockOps} (hf : ∀ b, Below i (f b)) (o : Option β) :
    Below i (o.elim [] f) := by
  cases o with
  | none => exact .nil
  | some b => exact hf b

lemma below_leaf (l : Lock) (hl : i ≤ l.level) : Below i (critical l []) :=
  (Above.leaf l).mono hl

lemma below_tpLockGuard (p : PageId) : Below 1 (critical (.tpLockGuard p) []) :=
  below_leaf _ (show (1 : Fin 3) ≤ 2 by decide)

lemma below_pcpuMappedLock (v : PveId) (cpu : ℕ) : Below 2 (critical (.pcpuMappedLock v cpu) []) :=
  below_leaf _ (show (2 : Fin 3) ≤ 2 by decide)

lemma below_ptl (t : ℕ) : Below 2 (critical (.ptl t) []) :=
  below_leaf _ (show (2 : Fin 3) ≤ 2 by decide)

lemma below_flLock (cpu : ℕ) : Below 1 (critical (.flLock cpu) []) :=
  below_leaf _ (show (1 : Fin 3) ≤ 1 by decide)

lemma below_fifoLock (q : Queue) : Below 1 (critical (.fifoLock q) []) :=
  below_leaf _ (show (1 : Fin 3) ≤ 1 by decide)

lemma below_inoPvdLock : Below 1 (critical .inoPvdLock []) :=
  below_leaf _ (show (1 : Fin 3) ≤ 1 by decide)

lemma below_rmapLock (p : PageId) (hx : Below 2 x) : Below 1 (critical (.rmapLock p) x) := by
  have hlt : Lock.level (.rmapLock p) < 2 := show (1 : Fin 3) < 2 by decide
  exact Above.critical hlt hx

lemma below_trylockTp (p : PageId) : Below 1 (trylockTp p) := below_tpLockGuard p

lemma below_unlockTp (p : PageId) : Below 1 (unlockTp p) := below_tpLockGuard p

lemma below_unlockAll (pgs : List PageId) : Below 1 (pgs.flatMap unlockTp) :=
  Above.flatMap fun p _ => below_unlockTp p

lemma below_waitTp (p : PageId) (tries : ℕ) : Below 1 (waitTp p tries) :=
  Above.flatMap fun q _ => below_trylockTp q

/-- A section that tries to lock a page. -/
lemma below_tried (l : Lock) (hl : l.level = 1) (tried : Option PageId) :
    Below 1 (critical l (tried.elim [] trylockTp)) := by
  rw [← hl]
  refine Above.critical (b := 2) (by rw [hl]; decide) (below_elim (fun p => ?_) tried)
  exact below_leaf (.tpLockGuard p) le_rfl

lemma below_allocPageLock (cpus : List ℕ) (found : Option PageId) :
    Below 1 (allocPageLock cpus found) :=
  (Above.flatMap fun cpu _ => below_flLock cpu).append (below_elim below_tpLockGuard found)

lemma below_freePageLock (r : PageRef) : Below 1 (freePageLock r) :=
  ((below_tpLockGuard r.page).append (below_unlockTp r.page)).append (below_flLock r.cpuid)

lemma below_walk (x : SlotRef) : Below 2 (walk x) := below_elim below_ptl x.ptl

lemma below_unmapSlot (x : SlotRef) : Below 2 (unmapSlot x) :=
  (below_walk x).append (below_pcpuMappedLock x.pve x.cpu)

lemma below_removeMappings (r : PageRef) : Below 1 (removeMappings r) :=
  below_rmapLock r.page (Above.flatMap fun x _ => below_unmapSlot x)

lemma below_clearMappings (r : PageRef) : Below 1 (clearMappings r) :=
  below_rmapLock r.page (Above.flatMap fun x _ => below_walk x)

lemma below_dmapAddOrUpdateRmap (p : PageId) (new : Option (PveId × ℕ)) :
    Below 1 (dmapAddOrUpdateRmap p new) := by
  refine (below_rmapLock p .nil).append (below_elim (fun x => ?_) new)
  exact (below_pcpuMappedLock x.1 x.2).mono (by decide)

lemma below_takeIf (q : Queue) (tried : Option PageId) : Below 1 (takeIf q tried) :=
  below_tried (.fifoLock q) rfl tried

lemma below_onTree (k : TreeKind) (v : PvdId) (offset : Pgoff) :
    Below 1 (onTree ncpus k v offset) :=
  below_leaf _ (show (1 : Fin 3) ≤ 1 by decide)

lemma below_insertPage (r : PageRef) : Below 1 (insertPage r) := below_fifoLock _

lemma below_movePageC2d (r : PageRef) : Below 1 (movePageC2d r) :=
  (below_fifoLock _).append (below_fifoLock _)

lemma below_movePageD2c (r : PageRef) : Below 1 (movePageD2c r) :=
  (below_fifoLock _).append (below_fifoLock _)

lemma below_drainPage (r : PageRef) (tries : ℕ) : Below 1 (drainPage ncpus r tries) :=
  (((below_waitTp r.page tries).append (below_onTree _ _ _)).append
    (below_removeMappings r)).append (below_freePageLock r)

lemma below_tryPurgePagesFast (qid : ℕ) (turns : List PurgeTurn) :
    Below 1 (tryPurgePagesFast ncpus qid turns) := by
  refine (Above.flatMap fun x _ => ?_).append (Above.flatMap fun r _ => below_freePageLock r)
  refine (below_takeIf _ _).append (below_elim (fun r => ?_) x.found)
  exact (below_onTree _ _ _).append (below_removeMappings r)

lemma below_retry (x : GetRetry) : Below 1 (x.ops ncpus) := by
  cases x with
  | full cpus qid turns =>
    exact (below_allocPageLock cpus none).append (below_tryPurgePagesFast _ _)
  | raced cpus r =>
    refine (Above.append ?_ (below_onTree _ _ _)).append (below_freePageLock r)
    exact (below_allocPageLock cpus _).append (below_trylockTp r.page)
  | busy p => exact below_trylockTp p

lemma below_end (x : GetEnd) : Below 1 (x.ops ncpus) := by
  cases x with
  | miss cpus r =>
    refine (Above.append ?_ (below_onTree _ _ _)).append (below_insertPage r)
    exact (below_allocPageLock cpus _).append (below_trylockTp r.page)
  | hit r => exact below_trylockTp r.page

lemma below_permaGetpage (retries : List GetRetry) (last : GetEnd) (new : Option (PveId × ℕ)) :
    Below 1 (permaGetpage ncpus retries last new) :=
  ((Above.flatMap fun x _ => below_retry x).append (below_end last)).append
    (below_dmapAddOrUpdateRmap _ new)

lemma below_permaPageMkwrite (v : PvdId) (p : PageId) (tries : ℕ) (clean : Option PageRef) :
    Below 1 (permaPageMkwrite ncpus v p tries clean) :=
  (below_waitTp p tries).append <|
    below_elim (fun r => (below_onTree _ _ _).append (below_movePageC2d r)) clean

lemma below_pveRelease (v : PveId) (pops : List (ℕ × Option ℕ)) : Below 2 (pveRelease v pops) :=
  Above.flatMap fun y _ => (Above.flatMap fun cpu _ => below_pcpuMappedLock v cpu).append
    (below_elim below_ptl y.2)

lemma below_scanTurn (id : ℕ) (v : PvdId) (x : ScanTurn) : Below 1 (x.ops ncpus id v) := by
  refine (below_onTree _ _ _).append (below_elim (fun y => (below_takeIf _ _).append ?_) x.found)
  split_ifs
  · exact .nil
  · exact below_onTree _ _ _

lemma below_evictorRound (id : ℕ) (tried : Option PageId) (found : Option EvictRound) :
    Below 1 (evictorRound ncpus id tried found) := by
  refine (below_takeIf _ _).append (below_elim (fun x => ?_) found)
  refine (((Above.append (below_onTree _ _ _) ?_).append ?_).append ?_).append ?_
  · exact Above.flatMap fun y _ => below_scanTurn id _ y
  · exact Above.flatMap fun r _ => below_clearMappings r
  · exact Above.flatMap fun r _ => below_insertPage r
  · exact Above.flatMap fun r _ => below_unlockTp r.page

lemma below_pullTree (v : PvdId) (cpu : ℕ) (tried : List (Option PageId)) :
    Below 1 (pullTree v cpu tried) :=
  Above.flatMap fun p _ => below_tried (.treeLock ⟨.dirty, v, cpu⟩) rfl p

lemma below_cleanup (fsync : Bool) (r : PageRef) : Below 1 (cleanup fsync r) := by
  refine Above.append ?_ (below_movePageD2c r)
  split_ifs
  · exact below_clearMappings r
  · exact .nil

lemma below_writeDirtyPages (fsync : Bool) (x : SyncRun) : Below 1 (writeDirtyPages fsync x) := by
  refine (Above.append ?_ ?_).append (below_unlockAll _)
  · exact Above.flatMap fun y _ => below_pullTree _ _ _
  · refine Above.flatMap fun y _ => Above.append ?_ (below_unlockAll _)
    exact (below_pullTree _ _ _).append (below_cleanup _ _)

lemma below_dropTurn (x : DropTurn) : Below 1 x.ops := by
  refine ((below_waitTp _ _).append (below_elim below_fifoLock x.queue)).append ?_
  split_ifs
  · exact below_freePageLock _
  · exact below_unlockTp _

lemma below_drops (drops : List DropTurn) : Below 1 (drops.flatMap DropTurn.ops) :=
  Above.flatMap fun x _ => below_dropTurn x

/-- A section of one of the outer locks. -/
lemma below_outer (l : Lock) (hl : l.level = 0) (hx : Below 1 x) : Below 0 (critical l x) := by
  rw [← hl]
  exact Above.critical (by rw [hl]; decide) hx

/-- Every call takes its locks level by level. -/
lemma below_call (k : Call) : Below 0 (k.ops ncpus) := by
  have hle : (0 : Fin 3) ≤ 1 := by decide
  cases k with
  | fault retries last new => exact (below_permaGetpage _ _ _).mono hle
  | mkwrite v p tries clean => exact (below_permaPageMkwrite _ _ _ _).mono hle
  | purge qid turns => exact (below_tryPurgePagesFast _ _).mono hle
  | close v pops => exact (below_pveRelease v pops).mono (by decide)
  | evict id tried found => exact (below_evictorRound _ _ _).mono hle
  | dmapFsync mm x => exact below_outer (.mmapSem mm) rfl (below_writeDirtyPages _ _)
  | fsync x => exact (below_writeDirtyPages _ _).mono hle
  | release x => exact (below_writeDirtyPages _ _).mono hle
  | rawRelease x drops =>
    exact (((below_writeDirtyPages _ _).append (below_drops _)).mono hle).append
      (below_outer .rawMutex rfl .nil)
  | unlink drops => exact (below_inoPvdLock.append (below_drops _)).mono hle
  | clearPvd drops => exact (below_drops _).mono hle
  | openFile => exact below_inoPvdLock.mono hle
  | raw => exact below_outer .rawMutex rfl .nil
  | changePagePriority => exact below_outer .bufferLock rfl .nil
  | onBank => exact below_outer .bufferLock rfl .nil
  | cleanupParams turns =>
    refine below_outer .bufferLock rfl (Above.flatMap fun x _ => ?_)
    exact (below_fifoLock _).append (below_elim (fun y => below_drainPage _ _) x.2)
  | freeLists cpus => exact (Above.flatMap fun cpu _ => below_flLock cpu).mono hle

end downwards

/-! ### The calls do not block each other -/

section calls

open Lockers

variable {ι : Type*} {c : Lockers ι Lock} {is : List ι} {ncpus : ℕ}

lemma below_calls (calls : List Call) : Below 0 (calls.flatMap (Call.ops ncpus)) :=
  Above.flatMap fun k _ => below_call k

lemma disciplined_start (calls : ι → List Call) :
    Disciplined Lock.level (start fun i => (calls i).flatMap (Call.ops ncpus)) :=
  fun i => below_calls (calls i) 0 (by simp)

/-- However the threads interleave their calls, no run is longer than what there is to do, and
while a thread has something left some thread can go on. Left out are `perma_mremap`, and
`change_page_priority` of a cached page, which does not return. -/
theorem calls_finish [Fintype ι] [DecidableEq ι] (calls : ι → List Call)
    (hr : Run Step (start fun i => (calls i).flatMap (Call.ops ncpus)) is c) :
    is.length ≤ ∑ i, ((calls i).flatMap (Call.ops ncpus)).length ∧
      ((∀ i, c.todo i = [] ∧ c.held i = 0) ∨ ∃ i c', Step c i c') := by
  refine ⟨Nat.le.intro (run_work hr), ?_⟩
  by_cases hstuck : ∃ i c', Step c i c'
  · exact .inr hstuck
  · have hno : ∀ i c', ¬ Step c i c' := fun i c' hs => hstuck ⟨i, c', hs⟩
    exact .inl fun i => ((disciplined_start calls).run hr).done_of_stuck hno i

/-- A page that area 3 maps. -/
def movedPage : PageRef := ⟨7, 0, 0, 0, [⟨some 0, 3, 0⟩]⟩

/-- One thread syncs a file, and the other purges a page of it. -/
def syncAndPurge : Fin 2 → List Call :=
  ![[.dmapFsync 0 ⟨0, [(0, [some 7])], [⟨movedPage, 0, [none], []⟩], [7]⟩],
    [.fault [.full [] 0 [⟨some 7, some movedPage⟩]] (.hit movedPage) none]]

/-- Thread `i` after it has taken the lock that it is about to take. -/
def afterAcquire (c : Lockers ι Lock) [DecidableEq ι] (i : ι) (l : Lock) : Lockers ι Lock :=
  c.put i (l ::ₘ c.held i) (c.todo i).tail

lemma run_afterAcquire [DecidableEq ι] {c₀ : Lockers ι Lock} {i : ι} {l : Lock}
    (hr : Run Step c₀ is c) (htodo : (c.todo i).head? = some (.acquire l))
    (hfree : ∀ j, l ∉ c.held j) : Run Step c₀ (is ++ [i]) (afterAcquire c i l) :=
  hr.snoc (.acquire (List.eq_cons_of_mem_head? htodo) hfree)

/-- The sync has locked `mmap_sem`, the tree and the guard of the page, and the purge wants the
guard inside the lock of its queue. -/
theorem calls_finish_syncAndPurge :
    ∃ c, Run Step (start fun i => (syncAndPurge i).flatMap (Call.ops 1)) [0, 1, 0, 0] c ∧
      (c.todo 1).head? = some (.acquire (.tpLockGuard 7)) ∧ .tpLockGuard 7 ∈ c.held 0 ∧
      ∃ i c', Step c i c' := by
  have h₁ := run_afterAcquire (i := 0) (l := .mmapSem 0)
    (.nil : Run Step (start fun i => (syncAndPurge i).flatMap (Call.ops 1)) [] _) rfl (by decide)
  have h₂ := run_afterAcquire (i := 1) (l := .fifoLock (.clean 0)) h₁ rfl (by decide)
  have h₃ := run_afterAcquire (i := 0) (l := .treeLock ⟨.dirty, 0, 0⟩) h₂ rfl (by decide)
  have h₄ := run_afterAcquire (i := 0) (l := .tpLockGuard 7) h₃ rfl (by decide)
  refine ⟨_, h₄, rfl, by decide, ?_⟩
  rcases (calls_finish syncAndPurge h₄).2 with hdone | hstep
  · exact absurd (hdone 0).2 (by decide)
  · exact hstep

end calls

/-! ### `perma_mremap` -/

section mremap

open Lockers

variable {old new : PveId} {l : Lock} {r : PageRef} {cpu : ℕ}

lemma Below.leads {x : LockOps} (hx : Below 0 x) : Leads 0 x 0 := (hx 0 (by simp)).leads

/-- The turn of `perma_mremap` for a slot, inside the lock of the list. -/
lemma leads_moveSlot (hne : new ≠ old) (y : PageId × ℕ) :
    Leads {Lock.pcpuMappedLock old cpu} (moveSlot new y) {Lock.pcpuMappedLock old cpu} := by
  refine (Leads.critical ?_ .nil).append (Leads.critical ?_ .nil)
  · simp
  · simp [hne]

/-- `perma_mremap` comes to the page with the lock of the list. -/
lemma leads_permaMremap (hne : new ≠ old) {lists : List (ℕ × List (PageId × ℕ))}
    {slots : List (PageId × ℕ)} (hlist : (cpu, slots) ∈ lists) {p : PageId} {dst : ℕ}
    (hp : (p, dst) ∈ slots) :
    ∃ x ops, permaMremap old new lists = x ++ .acquire (.rmapLock p) :: ops ∧
      Leads 0 x {Lock.pcpuMappedLock old cpu} := by
  obtain ⟨pre, post, rfl⟩ := List.append_of_mem hlist
  obtain ⟨before, after, rfl⟩ := List.append_of_mem hp
  refine ⟨permaMremap old new pre ++ .acquire (.pcpuMappedLock old cpu) ::
      before.flatMap (moveSlot new),
    .release (.rmapLock p) :: (critical (.pcpuMappedLock new dst) [] ++
      (after.flatMap (moveSlot new) ++ .release (.pcpuMappedLock old cpu) ::
        permaMremap old new post)), ?_, ?_⟩
  · simp [permaMremap, moveSlot, critical]
  · refine Leads.append (Leads.flatMap fun z _ => Leads.critical (by simp) ?_) ?_
    · exact Leads.flatMap fun y _ => leads_moveSlot hne y
    · exact .acquire (by simp) (Leads.flatMap fun y _ => leads_moveSlot hne y)

lemma leads_unmapSlot {h : Multiset Lock} (hh : ∀ k ∈ h, k.level < 2) (x : SlotRef) :
    Leads h (unmapSlot x) h :=
  (below_unmapSlot x h hh).leads

lemma taken_walk (x : SlotRef) : ∀ k ∈ taken (walk x), ∃ t, k = .ptl t := by
  obtain ⟨_ | t, _, _⟩ := x
  · simp [walk]
  · simp [walk]

lemma taken_unmapSlot (x : SlotRef) :
    ∀ k ∈ taken (unmapSlot x), (∃ t, k = .ptl t) ∨ k = .pcpuMappedLock x.pve x.cpu := by
  intro k hk
  rw [unmapSlot, taken_append, List.mem_append] at hk
  rcases hk with hk | hk
  · exact .inl (taken_walk x k hk)
  · exact .inr (by simpa [critical, taken] using hk)

/-- `remove_mappings` comes to the first slot on the list with the lock of the page, and has not
taken the lock of the list. -/
lemma leads_removeMappings (hslot : ∃ x ∈ r.slots, x.pve = old ∧ x.cpu = cpu) :
    ∃ x ops, removeMappings r = x ++ .acquire (.pcpuMappedLock old cpu) :: ops ∧
      Leads 0 x {Lock.rmapLock r.page} ∧ .pcpuMappedLock old cpu ∉ taken x := by
  obtain ⟨s, hfind⟩ := Option.isSome_iff_exists.mp <|
    (List.find?_isSome (p := fun x : SlotRef => decide (x.pve = old ∧ x.cpu = cpu))).mpr
      (by simpa using hslot)
  obtain ⟨hs, before, after, hsplit, hbefore⟩ := List.find?_eq_some_iff_append.mp hfind
  simp only [decide_eq_true_eq] at hs
  obtain ⟨rfl, rfl⟩ := hs
  refine ⟨.acquire (.rmapLock r.page) :: (before.flatMap unmapSlot ++ walk s),
    .release (.pcpuMappedLock s.pve s.cpu) :: (after.flatMap unmapSlot ++
      [.release (.rmapLock r.page)]), ?_, ?_, ?_⟩
  · simp [removeMappings, hsplit, unmapSlot, critical]
  · have hlow : ∀ k ∈ ({Lock.rmapLock r.page} : Multiset Lock), k.level < 2 := by
      intro k hk
      rw [Multiset.mem_singleton.mp hk]
      exact show (1 : Fin 3) < 2 by decide
    refine .acquire (by simp) (Leads.append ?_ (below_walk s _ hlow).leads)
    exact Leads.flatMap fun x _ => leads_unmapSlot hlow x
  · intro hmem
    simp only [taken, taken_append, List.mem_cons, List.mem_append, mem_taken_flatMap] at hmem
    rcases hmem with h | ⟨x, hx, hk⟩ | hk
    · cases h
    · rcases taken_unmapSlot x _ hk with ⟨t, h⟩ | h
      · cases h
      · obtain ⟨hpve, hcpu⟩ := Lock.pcpuMappedLock.inj h
        simpa [hpve, hcpu] using hbefore x hx
    · obtain ⟨t, h⟩ := taken_walk s _ hk
      cases h

variable {ι : Type*} [DecidableEq ι] {i j : ι} {todo : ι → LockOps}

/-- `perma_mremap` takes the lock of a page inside the lock of a list, and `remove_mappings` the
other way round. For every page that the one finds on the list and the other has a slot for, there
is a run after which neither goes on, whatever else there is. -/
theorem permaMremap_blocks (hij : i ≠ j) (hne : new ≠ old) {x y z w : LockOps}
    (hx : Below 0 x) (hy : Below 0 y) {lists : List (ℕ × List (PageId × ℕ))}
    (hi : todo i = x ++ permaMremap old new lists ++ z)
    (hj : todo j = y ++ removeMappings r ++ w)
    {slots : List (PageId × ℕ)} (hlist : (cpu, slots) ∈ lists) {dst : ℕ}
    (hp : (r.page, dst) ∈ slots) (hslot : ∃ x ∈ r.slots, x.pve = old ∧ x.cpu = cpu) :
    ∃ is c, Run Step (start todo) is c ∧ ∀ js c', Run Step c js c' → i ∉ js ∧ j ∉ js := by
  obtain ⟨u, ops₁, hu, hlu⟩ := leads_permaMremap hne hlist hp
  obtain ⟨v, ops₂, hv, hlv, hfree⟩ := leads_removeMappings hslot
  -- thread `j` comes to the page, thread `i` to the list, and then both want to go on
  obtain ⟨is₁, hr₁⟩ := run_leads (c := start todo) (i := j) hy.leads rfl
    (by rw [show (start todo).todo j = todo j from rfl, hj, List.append_assoc])
    fun l _ k _ => Multiset.notMem_zero l
  set c₁ := (start todo).put j 0 (removeMappings r ++ w) with hc₁
  have hempty : ∀ k, c₁.held k = 0 := fun k => by
    by_cases hk : k = j
    · rw [hk, hc₁, put_held_self]
    · rw [hc₁, put_held_of_ne hk]
      rfl
  obtain ⟨is₂, hr₂⟩ := run_leads (c := c₁) (i := i) (hx.leads.append hlu) (hempty i)
    (z := .acquire (.rmapLock r.page) :: (ops₁ ++ z))
    (by rw [hc₁, put_todo_of_ne hij]; simp [start, hi, hu])
    fun l _ k _ => by rw [hempty k]; exact Multiset.notMem_zero l
  set c₂ := c₁.put i {.pcpuMappedLock old cpu} (.acquire (.rmapLock r.page) :: (ops₁ ++ z))
    with hc₂
  obtain ⟨is₃, hr₃⟩ := run_leads (c := c₂) (i := j) hlv
    (by rw [hc₂, put_held_of_ne hij.symm, hempty])
    (z := .acquire (.pcpuMappedLock old cpu) :: (ops₂ ++ w))
    (by rw [hc₂, put_todo_of_ne hij.symm, hc₁, put_todo_self, hv]; simp)
    fun l hl k hk => by
      by_cases hki : k = i
      · rw [hki, hc₂, put_held_self, Multiset.mem_singleton]
        rintro rfl
        exact hfree hl
      · rw [hc₂, put_held_of_ne hki, hempty]
        exact Multiset.notMem_zero l
  refine ⟨_, _, (hr₁.append hr₂).append hr₃, fun js c' hr => Embrace.run
    (a := .rmapLock r.page) (b := .pcpuMappedLock old cpu) ⟨?_, ?_, ?_, ?_⟩ hr⟩
  · exact ⟨_, by rw [put_todo_of_ne hij, hc₂, put_todo_self]⟩
  · exact ⟨_, put_todo_self⟩
  · rw [put_held_of_ne hij, hc₂, put_held_self]
    exact Multiset.mem_singleton_self _
  · rw [put_held_self]
    exact Multiset.mem_singleton_self _

/-- Area 3 is moved while a fault finds no free page, fails to lock page 6 and purges page 7. -/
def moveAndPurge : Fin 2 → LockOps :=
  ![permaMremap 3 4 [(0, [(7, 0)])],
    Call.ops 1 (.fault [.busy 5, .full [0] 0 [⟨some 6, none⟩, ⟨some 7, some movedPage⟩]]
      (.hit movedPage) none)]

theorem permaMremap_blocks_movedPage : ∃ is c, Run Step (start moveAndPurge) is c ∧
    ∀ js c', Run Step c js c' → 0 ∉ js ∧ 1 ∉ js := by
  have hbefore : Below 1 (trylockTp 5 ++ allocPageLock [0] none ++ takeIf (.clean 0) (some 6) ++
      takeIf (.clean 0) (some 7) ++ onTree 1 .rdx 0 0) := by
    refine (((Above.append ?_ ?_).append ?_).append ?_).append (below_onTree _ _ _)
    · exact below_trylockTp 5
    · exact below_allocPageLock [0] none
    · exact below_takeIf _ _
    · exact below_takeIf _ _
  exact permaMremap_blocks (by decide) (by decide) .nil (hbefore.mono (by decide))
    (z := []) (w := freePageLock movedPage ++ trylockTp 7 ++ dmapAddOrUpdateRmap 7 none)
    rfl rfl (List.mem_singleton_self _) (List.mem_singleton_self _)
    ⟨_, List.mem_singleton_self _, rfl, rfl⟩

end mremap

end LockOps

end FastMap
