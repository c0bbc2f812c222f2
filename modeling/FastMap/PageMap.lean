import FastMap.Queues

/-!
# The page map

`mmap_buffer_hash_table.c`: the initial distribution of the pages over the per-CPU free lists,
allocation and release.
-/

namespace FastMap

variable {C : Type*}

namespace Env

/-- `num_pages_percpu` -/
def pagesPerCpu (e : Env C) : ℕ := e.bufSize / e.ncpus

/-- The CPU whose free list a page is initialised on. -/
def home (e : Env C) (p : PageId) : ℕ := p / e.pagesPerCpu

/-- The pages that initialisation puts on a free list. -/
def numPages (e : Env C) : ℕ := e.ncpus * e.pagesPerCpu

end Env

/-- `init_tagged_page_meta_data` and `alloc_tagged_page_data`; the data of a fresh frame is not
cleared. -/
def TaggedPage.init (frame : C) : TaggedPage C where
  rmap _ := .reset
  content := frame
  index := 0
  locked := false
  pvd := none
  pageValid := false
  isDirty := false
  bufferId := .biNone
  inUse := false
  cpuid := 0

namespace State

/-- What surrounds the buffer when it is created: the frames it is given, the files and their
contents, and the areas that will be mapped. -/
structure World (C : Type*) where
  frame : PageId → C
  pvds : PvdId → PrVmaData
  vmas : VmaId → VmArea
  infos : InfoId → FastmapInfo
  disk : DevId × Pgoff → C
  bitmap : DevId × Pgoff → Bool
  devPages : DevId → ℕ

/-- `init_params_fifo_buffer_t` with `init_hash_table_free_pages`: empty queues and trees, nothing
mapped, and page `cpu * num_pages_percpu + i` on the free list of `cpu`. -/
def initParams (e : Env C) (w : World C) : State C where
  pages p := .init (w.frame p)
  fl cpu := if cpu < e.ncpus then List.range' (cpu * e.pagesPerCpu) e.pagesPerCpu else []
  queues _ := ⟨[], 0, e.bufSize + e.ncpus⟩
  trees _ := .empty
  pvds := w.pvds
  vmas := w.vmas
  infos := w.infos
  pves _ := ⟨1, 0, 0, fun _ => []⟩
  pte _ := .none
  disk := w.disk
  bitmap := w.bitmap
  devPages := w.devPages
  enqueueFailed := false

/-- The inner loop of `alloc_page_lock`: the first page of the first non-empty list. -/
def takeFree (s : State C) : List ℕ → Option PageId × State C
  | [] => (none, s)
  | cpu :: cpus =>
    match s.fl cpu with
    | [] => s.takeFree cpus
    | p :: rest =>
      (some p, { s with fl := Function.update s.fl cpu rest }.modifyPage p
        fun t => { t with cpuid := cpu })

/-- The outer loop of `alloc_page_lock`. The `break` only leaves the inner loop, so every node is
visited and the page found last is the one returned; a node without CPUs leaves it unchanged. -/
def scanNodes (e : Env C) (s : State C) : List ℕ → Option PageId → Option PageId × State C
  | [], found => (found, s)
  | node :: nodes, found =>
    match e.cpumaskOfNode node with
    | [] => s.scanNodes e nodes found
    | cpus =>
      match s.takeFree cpus with
      | (p, s) => s.scanNodes e nodes p

/-- `alloc_page_lock`, called on the NUMA node `node`. -/
def allocPageLock (e : Env C) (s : State C) (node : ℕ) (offset : Pgoff) (v : PvdId) :
    Option PageId × State C :=
  match s.scanNodes e (e.numaDv node) none with
  | (none, s) => (none, s)
  | (some p, s) =>
    (some p, s.modifyPage p fun t =>
      { t with
        pageValid := false
        bufferId := .biNone
        index := offset
        pvd := some v
        isDirty := false
        rmap := fun _ => .reset
        inUse := true })

/-- The fields that `free_page_lock` resets before it unlocks the page. -/
def freeClear (s : State C) (p : PageId) : State C :=
  s.modifyPage p fun t =>
    { t with
      inUse := false
      index := 0
      pvd := none
      pageValid := false
      bufferId := .biNone
      isDirty := false
      cpuid := 0
      rmap := fun _ => .reset }

/-- `list_add_tail(&tagged_page->free, &page_map->fl[cpu])` -/
def freeLink (s : State C) (p : PageId) (cpu : ℕ) : State C :=
  { s with fl := Function.update s.fl cpu (s.fl cpu ++ [p]) }

/-- `free_page_lock`; the page returns to the list it was allocated from. -/
def freePageLock (s : State C) (p : PageId) : State C :=
  ((s.freeClear p).unlockTp p).freeLink p (s.pages p).cpuid

end State

end FastMap
