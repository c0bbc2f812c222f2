import FastMap.Lib.KeyMap

/-!
# The data model

The page buffer of the driver: the array of tagged pages, the per-CPU free lists, the clean and
dirty queues, and for every file or device (`struct pr_vma_data`) its per-CPU radix and dirty
trees. Around it stands what the buffer works on: the page tables of the mapped areas and the
contents of the devices.

Pointers are natural numbers. Page contents are of an arbitrary type `C`. Spinlocks do not occur
in the state: a section under a spinlock is one step.
-/

namespace FastMap

/-- A `struct tagged_page *`: its position in `page_map->pages`. -/
abbrev PageId := ℕ
/-- A `struct pr_vma_data *`. -/
abbrev PvdId := ℕ
/-- A `struct vm_area_struct *`. -/
abbrev VmaId := ℕ
/-- A `struct pr_vma_entry *`. -/
abbrev PveId := ℕ
/-- A `struct fastmap_info *`, one for each open descriptor. -/
abbrev InfoId := ℕ
/-- A block device or a lower inode. -/
abbrev DevId := ℕ
/-- `pgoff_t` -/
abbrev Pgoff := ℕ

/-! ### Constants of `shared_defines.h` -/

def numQueues : ℕ := 32
def maxRmapsPerPage : ℕ := 3
def evictorThreads : ℕ := 8
def pageSize : ℕ := 4096
/-- The number of values of an `unsigned long`. -/
def ulongSize : ℕ := 2 ^ 64
/-- `ULONG_MAX`, the index that `trylock_tp` ignores. -/
def ulongMax : ℕ := 2 ^ 64 - 1

/-- `x++` on an `unsigned long`. -/
def ulongInc (n : ℕ) : ℕ := (n + 1) % ulongSize
/-- `x--` on an `unsigned long`. -/
def ulongDec (n : ℕ) : ℕ := (n + (ulongSize - 1)) % ulongSize

/-! ### Tagged pages -/

/-- The values of `buffer_id`. -/
inductive BufferId where
  | biNone
  | biClean
  | biDirty
  deriving DecidableEq, Repr

/-- A reverse mapping, with the packed words of `struct pr_vma_rmap` taken apart. -/
structure PrVmaRmap where
  valid : Bool
  vma : VmaId
  vaddr : ℕ
  cpu : ℕ
  deriving DecidableEq, Repr

/-- The slot as `alloc_page_lock` and `free_page_lock` leave it. -/
def PrVmaRmap.reset : PrVmaRmap := ⟨false, 0, 0, 0⟩

/-- `struct tagged_page`, with the fields of its `struct page` that the driver uses: `index`, the
bit `PG_locked` and the data of the frame. -/
structure TaggedPage (C : Type*) where
  rmap : Fin maxRmapsPerPage → PrVmaRmap
  content : C
  index : Pgoff
  locked : Bool
  pvd : Option PvdId
  pageValid : Bool
  isDirty : Bool
  bufferId : BufferId
  inUse : Bool
  cpuid : ℕ

/-! ### Queues and trees -/

/-- The queues of `struct fifo_buffer_struct`: `primary_fifo_data` and `dirty_queue`. -/
inductive Queue where
  | clean (i : ℕ)
  | dirty (i : ℕ)
  deriving DecidableEq, Repr

/-- The `buffer_id` that membership in a queue gives a page. -/
def Queue.bufferId : Queue → BufferId
  | .clean _ => .biClean
  | .dirty _ => .biDirty

/-- The clean queue of a page index. -/
def cleanQueue (index : Pgoff) : Queue := .clean (index % numQueues)

/-- The dirty queue of a page index: 512 consecutive pages share a queue. -/
def dirtyQueue (index : Pgoff) : Queue := .dirty ((index >>> 9) % evictorThreads)

/-- `lpfifo_t` and `dfifo_t`. -/
structure Fifo where
  buffer : List PageId
  size : ℕ
  maxSize : ℕ
  deriving DecidableEq, Repr

/-- A pvd has two families of per-CPU trees, `rdx` and `dirty_tree`. -/
inductive TreeKind where
  | rdx
  | dirty
  deriving DecidableEq, Repr

structure TreeId where
  kind : TreeKind
  pvd : PvdId
  cpu : ℕ
  deriving DecidableEq, Repr

/-! ### Files, mapped areas and page tables -/

inductive PvdType where
  | blkd
  | file
  deriving DecidableEq, Repr

/-- The fields of `struct pr_vma_data` outside its trees. -/
structure PrVmaData where
  type : PvdType
  bk : DevId
  mmaped : Bool
  isMmap : Bool
  isValid : Bool
  duringUnlink : Bool
  deriving DecidableEq, Repr

/-- `struct vm_area_struct`; `info` is its `vm_private_data`. -/
structure VmArea where
  vmStart : ℕ
  vmEnd : ℕ
  vmPgoff : Pgoff
  info : InfoId
  deriving DecidableEq, Repr

structure FastmapInfo where
  isFastmap : Bool
  pvd : Option PvdId
  pve : Option PveId
  deriving DecidableEq, Repr

/-- `struct pr_vma_entry`; a list element is a slot of a tagged page. -/
structure PrVmaEntry where
  refcount : ℤ
  vmStart : ℕ
  vmEnd : ℕ
  pcpuMapped : ℕ → List (PageId × Fin maxRmapsPerPage)

/-- A page table entry: empty, or a mapping of a page with its write permission. -/
inductive Pte where
  | none
  | map (p : PageId) (write : Bool)
  deriving DecidableEq, Repr

/-! ### The state -/

structure State (C : Type*) where
  pages : PageId → TaggedPage C
  fl : ℕ → List PageId
  queues : Queue → Fifo
  trees : TreeId → KeyMap Pgoff PageId
  pvds : PvdId → PrVmaData
  vmas : VmaId → VmArea
  infos : InfoId → FastmapInfo
  pves : PveId → PrVmaEntry
  pte : VmaId × ℕ → Pte
  disk : DevId × Pgoff → C
  /-- `meta.rdd->bitmap` of a block device. -/
  bitmap : DevId × Pgoff → Bool
  /-- `i_size >> PAGE_SHIFT` of a lower file, `get_capacity() >> 3` of a device. -/
  devPages : DevId → ℕ
  /-- Whether some `enqueue` has returned `-1`. -/
  enqueueFailed : Bool

/-- A block handed to the device: where it goes and what it holds. -/
structure BlockWrite (C : Type*) where
  dev : DevId
  off : Pgoff
  data : C
  deriving DecidableEq, Repr

/-- The machine and the load-time parameters. The batch writer is a parameter of the model; the
driver's own writer is an instance of it. -/
structure Env (C : Type*) where
  /-- `num_online_cpus()` -/
  ncpus : ℕ
  ncpus_pos : 0 < ncpus
  /-- `mmap_buf_size`, a `long`. -/
  bufSize : ℕ
  bufSize_lt : bufSize < 2 ^ 63
  /-- The row of `__NUMA_DV__` of a node. -/
  numaDv : ℕ → List ℕ
  cpumaskOfNode : ℕ → List ℕ
  /-- The blocks that `write_bio_async` or `write_file_async` writes for an array of pages. -/
  writeAsync : PvdType → State C → List PageId → List (BlockWrite C)

/-- Why a call of the model does not return normally. Two of the outcomes stand for a write outside
an array, after which the code returns with its data damaged: results about completed calls say
nothing of such calls. -/
inductive Halt where
  /-- `BUG()` is reached. -/
  | bug
  /-- A loop waits for a page lock that nobody releases. -/
  | spin
  /-- A write past the end of `heap_array`. The call goes on in the code, but not here. -/
  | heapOverflow
  /-- A write before the start of the `rmap` array of a page. The call goes on in the code, but not
  here. -/
  | rmapOverflow
  | nullDeref
  | efault
  /-- The kernel does not make this call in this state. -/
  | notIssued
  deriving DecidableEq, Repr

variable {C : Type*}

namespace State

/-- Assignment to fields of one tagged page. -/
def modifyPage (s : State C) (p : PageId) (f : TaggedPage C → TaggedPage C) : State C :=
  { s with pages := Function.update s.pages p (f (s.pages p)) }

/-- Blocks reach the device in the order they are handed to it. -/
def writeBlocks (s : State C) (ws : List (BlockWrite C)) : State C :=
  { s with disk := ws.foldl (fun d w => Function.update d (w.dev, w.off) w.data) s.disk }

/-- The pvd a mapped area belongs to. -/
def vmaPvd (s : State C) (vma : VmaId) : Option PvdId := (s.infos (s.vmas vma).info).pvd

end State

end FastMap
