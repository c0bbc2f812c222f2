import FastMap.Lib.BinHeap
import FastMap.Mappings

/-!
# Write-back

The batch writers of `write_dirty_pages.c`, a round of `evictor_thread`, and `write_dirty_pages`
itself, which merges the per-CPU dirty trees of a file through a heap.
-/

namespace FastMap

variable {C : Type*}

/-! ### Merged requests -/

/-- `BIO_MAX_PAGES` -/
def bioMaxPages : ℤ := 256

/-- `base_idx` and `merge_arr` of the merge loop. -/
structure Merge where
  base : ℕ
  arr : ℕ → ℤ

/-- One iteration: page `i` joins the request of its predecessor if their indices are consecutive.
A request that has become full is closed by moving `base_idx` to page `i`. -/
def Merge.step (index : ℕ → Pgoff) (m : Merge) (i : ℕ) : Merge :=
  if index (i - 1) + 1 = index i then
    let arr := Function.update m.arr m.base (m.arr m.base + 1)
    let arr := Function.update arr i (arr i - 1)
    ⟨if arr m.base = bioMaxPages then i else m.base, arr⟩
  else ⟨i, m.arr⟩

/-- The merge loop over `len` pages. -/
def mergeArr (index : ℕ → Pgoff) (len : ℕ) : ℕ → ℤ :=
  ((List.range' 1 (len - 1)).foldl (Merge.step index) ⟨0, fun _ => 1⟩).arr

namespace State

/-- The request that starts at position `i` of the array; page `i + k` lands `k` blocks after the
first one. -/
def request (s : State C) (pages : List PageId) (i : ℕ) : List (BlockWrite C) :=
  let index j := (s.pages (pages.getD j 0)).index
  match (s.pages (pages.getD i 0)).pvd with
  | none => []
  | some v =>
    (List.range (mergeArr index pages.length i).toNat).map fun k =>
      ⟨(s.pvds v).bk, index i + k, (s.pages (pages.getD (i + k) 0)).content⟩

/-- The loop over the requests. -/
def writeMerged (s : State C) (pages : List PageId) : List (BlockWrite C) :=
  (List.range pages.length).flatMap (s.request pages)

/-- `write_file_async`. A request whose first page has no pvd is passed over. -/
def writeFileAsync (s : State C) (pages : List PageId) : List (BlockWrite C) :=
  s.writeMerged pages

/-- A request starts at position `i`, and its first page has no pvd. -/
def orphanRequest (s : State C) (pages : List PageId) (i : ℕ) : Bool :=
  (mergeArr (fun j => (s.pages (pages.getD j 0)).index) pages.length i != 0) &&
    (s.pages (pages.getD i 0)).pvd.isNone

/-- `write_bio_async`. It follows the pvd of the first page of a request without a check. -/
def writeBioAsync (s : State C) (pages : List PageId) : Except Halt (List (BlockWrite C)) :=
  if (List.range pages.length).any (s.orphanRequest pages) then .error .nullDeref
  else .ok (s.writeMerged pages)

/-- `write_bio_tagged_page`: one page, at its own offset. -/
def writeBioTaggedPage (s : State C) (p : PageId) : List (BlockWrite C) :=
  match (s.pages p).pvd with
  | none => []
  | some v => [⟨(s.pvds v).bk, (s.pages p).index, (s.pages p).content⟩]

/-- The batch writer of the driver. It gets batches of one pvd, where `write_bio_async` returns
(`writeBioAsync_eq`). -/
def driverWriter : PvdType → State C → List PageId → List (BlockWrite C)
  | .blkd, s, pages =>
    match s.writeBioAsync pages with
    | .ok bs => bs
    | .error _ => []
  | .file, s, pages => s.writeFileAsync pages

/-! ### The evictor -/

/-- `dirty_size < ((buffer_size / 5) * 3)`; the sum is an `unsigned int`. -/
def belowThreshold (e : Env C) (s : State C) : Bool :=
  ((List.range evictorThreads).map fun i => (s.queues (.dirty i)).size).sum % 2 ^ 32
    < e.bufSize / 5 * 3

/-- The collection loop of `evictor_thread`: from `offset` on, the dirty neighbours of the block
that can be locked leave their tree and queue and join the batch. -/
def collect (e : Env C) (id : ℕ) (v : PvdId) :
    ℕ → Pgoff → List PageId → State C → List PageId × State C
  | 0, _, pgs, s => (pgs, s)
  | iter + 1, offset, pgs, s =>
    if 512 ≤ pgs.length ∨ (offset >>> 9) % evictorThreads ≠ id then (pgs, s)
    else
      match s.treeLookup e .dirty v offset with
      | none => collect e id v iter (offset + 1) pgs s
      | some tp =>
        match (s.treeErase ⟨.dirty, v, offset % e.ncpus⟩ offset).removeIf (.dirty id) tp evDeq with
        | (true, s) => collect e id v iter (offset + 1) (pgs ++ [tp]) s
        | (false, s) =>
          collect e id v iter (offset + 1) pgs (s.treeInsert e .dirty v (s.pages tp).index tp)

/-- The iterations that `iter++ >= 2048` allows. -/
def collectIters : ℕ := 2049

/-- Write a batch of pages of one pvd. -/
def writePages (e : Env C) (s : State C) (v : PvdId) (pgs : List PageId) : State C :=
  s.writeBlocks (e.writeAsync (s.pvds v).type s pgs)

/-- What an evictor does with a batch: write protect, write, move to the clean queues, unlock. -/
def evict (e : Env C) (s : State C) (v : PvdId) (pgs : List PageId) : State C :=
  let s := pgs.foldl clearMappings s
  let s := s.writePages e v pgs
  let s := pgs.foldl (fun s p => s.insertPage p true) s
  pgs.foldl unlockTp s

/-- One round of `evictor_thread` with the given `ID`. -/
def evictorRound (e : Env C) (s : State C) (id : ℕ) : State C :=
  if s.belowThreshold e then s
  else
    match s.dequeueIf (.dirty id) evDeq with
    | (none, s) => s
    | (some p, s) =>
      match (s.pages p).pvd with
      | none => s
      | some v =>
        match collect e id v collectIters ((s.pages p).index + 1) [p]
          (s.removeFromDirtyTree e p) with
        | (pgs, s) => s.evict e v pgs

/-- The batch that a round hands to the writer; it is empty if there is nothing to do. -/
def evictorBatch (e : Env C) (s : State C) (id : ℕ) : List PageId :=
  if s.belowThreshold e then []
  else
    match s.dequeueIf (.dirty id) evDeq with
    | (none, _) => []
    | (some p, s) =>
      match (s.pages p).pvd with
      | none => []
      | some v =>
        (collect e id v collectIters ((s.pages p).index + 1) [p] (s.removeFromDirtyTree e p)).1

end State

/-! ### `write_dirty_pages` -/

/-- `MAX_CPUS` -/
def maxCpus : ℕ := 64

/-- `struct heap_node` -/
structure HeapNode where
  cpu : ℕ
  offset : Pgoff
  p : PageId
  deriving DecidableEq, Repr

/-- `struct min_heap` -/
abbrev MinHeap := BinHeap HeapNode

def minHeapCreate : MinHeap := ⟨fun _ => ⟨0, 0, 0⟩, 0⟩

/-- `min_heap_insert`. With `MAX_CPUS` nodes in the heap it writes behind the array, over
`heap_size`, and what the call does from there on is not followed here. -/
def minHeapInsert (h : MinHeap) (n : HeapNode) : Except Halt MinHeap :=
  if maxCpus ≤ h.size then .error .heapOverflow else .ok (h.insert HeapNode.offset n)

/-- `min_heap_delete_min` -/
def minHeapDeleteMin (h : MinHeap) : HeapNode × MinHeap := h.deleteMin HeapNode.offset

/-- The callbacks given to `write_dirty_pages`: `wrapfs_file_fsync_cb` and `blkdev_fsync_cb`, or
`wrapfs_file_release_cb` and `blkdev_release_cb`. -/
inductive Cleanup where
  | fsync
  | release
  deriving DecidableEq, Repr

namespace State

/-- The callback on one page. -/
def pageCleanup : Cleanup → State C → PageId → State C
  | .fsync, s, p => (s.clearMappings p).movePageD2c p
  | .release, s, p => s.movePageD2c p

/-- Move the least page of one dirty tree to the heap, under its page lock. -/
def pullTree (s : State C) (v : PvdId) (cpu : ℕ) (h : MinHeap) : Except Halt (State C × MinHeap) :=
  match (s.trees ⟨.dirty, v, cpu⟩).first? with
  | none => .ok (s, h)
  | some (k, p) =>
    match s.trylockTp p ulongMax with
    | (0, s) =>
      match minHeapInsert h ⟨cpu, (s.pages p).index, p⟩ with
      | .error x => .error x
      | .ok h => .ok (s.treeErase ⟨.dirty, v, cpu⟩ k, h)
    | _ => .error .spin

/-- The loop that takes one page from each dirty tree. -/
def fillHeap (v : PvdId) : List ℕ → State C → MinHeap → Except Halt (State C × MinHeap)
  | [], s, h => .ok (s, h)
  | cpu :: cpus, s, h =>
    match s.pullTree v cpu h with
    | .error x => .error x
    | .ok (s, h) => fillHeap v cpus s h

/-- Write a batch and unlock its pages. -/
def flush (e : Env C) (s : State C) (v : PvdId) (pgs : List PageId) : State C :=
  pgs.foldl unlockTp (s.writePages e v pgs)

/-- The main loop of `write_dirty_pages`. Each iteration takes a page out of the heap for good, so
the number of dirty pages bounds it. -/
def drain (e : Env C) (cb : Cleanup) (v : PvdId) :
    ℕ → MinHeap → List PageId → State C → Except Halt (State C)
  | 0, _, _, _ => .error .spin
  | fuel + 1, h, pgs, s =>
    if h.size = 0 then .ok (if pgs = [] then s else s.flush e v pgs)
    else
      match minHeapDeleteMin h with
      | (hn, h) =>
        match s.pullTree v hn.cpu h with
        | .error x => .error x
        | .ok (s, h) =>
          let s := pageCleanup cb s hn.p
          let pgs := pgs ++ [hn.p]
          if pgs.length = 512 then drain e cb v fuel h [] (s.flush e v pgs)
          else drain e cb v fuel h pgs s

/-- The number of pages in the trees of one kind of a pvd. -/
def treeSize (e : Env C) (s : State C) (k : TreeKind) (v : PvdId) : ℕ :=
  ((List.range e.ncpus).map fun cpu => (s.trees ⟨k, v, cpu⟩).size).sum

/-- The processors whose dirty tree of the pvd is not empty. -/
def busyCpus (e : Env C) (s : State C) (v : PvdId) : Finset ℕ :=
  (Finset.range e.ncpus).filter fun cpu => (s.trees ⟨.dirty, v, cpu⟩).size ≠ 0

/-- `write_dirty_pages` -/
def writeDirtyPages (e : Env C) (cb : Cleanup) (s : State C) (v : PvdId) :
    Except Halt (State C) :=
  match fillHeap v (List.range e.ncpus) s minHeapCreate with
  | .error x => .error x
  | .ok (t, h) => drain e cb v (s.treeSize e .dirty v + 1) h [] t

/-- The batches that the main loop hands to the writer. -/
def drainBatches (e : Env C) (cb : Cleanup) (v : PvdId) :
    ℕ → MinHeap → List PageId → State C → List (List PageId)
  | 0, _, _, _ => []
  | fuel + 1, h, pgs, s =>
    if h.size = 0 then (if pgs = [] then [] else [pgs])
    else
      match minHeapDeleteMin h with
      | (hn, h) =>
        match s.pullTree v hn.cpu h with
        | .error _ => []
        | .ok (s, h) =>
          let s := pageCleanup cb s hn.p
          let pgs := pgs ++ [hn.p]
          if pgs.length = 512 then pgs :: drainBatches e cb v fuel h [] (s.flush e v pgs)
          else drainBatches e cb v fuel h pgs s

/-- The batches of a `write_dirty_pages`. -/
def syncBatches (e : Env C) (cb : Cleanup) (s : State C) (v : PvdId) : List (List PageId) :=
  match fillHeap v (List.range e.ncpus) s minHeapCreate with
  | .error _ => []
  | .ok (t, h) => drainBatches e cb v (s.treeSize e .dirty v + 1) h [] t

end State

end FastMap
