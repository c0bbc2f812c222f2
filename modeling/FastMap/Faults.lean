import FastMap.WriteBack

/-!
# Page faults and reclaim

`perma_getpage` with the reclaim it falls back on, `perma_page_mkwrite`, and what the kernel does
around the two: it installs the page table entry and releases the page lock that both hand over.
-/

namespace FastMap

variable {C : Type*}

namespace State

/-! ### Reclaim -/

/-- One iteration of the collection loop of `try_purge_pages_fast`: a page leaves the queue, the
radix tree of its file and all page tables. -/
def purgeOne (e : Env C) (s : State C) (qid : ℕ) : Option PageId × State C :=
  match s.dequeueIf (.clean qid) deq with
  | (none, s) => (none, s)
  | (some p, s) =>
    match (s.pages p).pvd with
    | none => (none, s)
    | some v =>
      let index := (s.pages p).index
      (some p, (s.treeErase ⟨.rdx, v, index % e.ncpus⟩ index).removeMappings p)

/-- `N = 192` in `try_purge_pages_fast`. -/
def purgeBatch : ℕ := 192

def purgeCollect (e : Env C) (qid : ℕ) : ℕ → List PageId → State C → List PageId × State C
  | 0, pgs, s => (pgs, s)
  | n + 1, pgs, s =>
    match s.purgeOne e qid with
    | (none, s) => purgeCollect e qid n pgs s
    | (some p, s) => purgeCollect e qid n (pgs ++ [p]) s

/-- `try_purge_pages_fast` -/
def tryPurgePagesFast (e : Env C) (s : State C) (qid : ℕ) : State C :=
  match purgeCollect e qid purgeBatch [] s with
  | (pgs, s) => pgs.foldl freePageLock s

/-! ### Reading a page -/

/-- How a read of one page ends; a failed or short read leaves in the frame some mix of what the
device has and what the frame held. -/
inductive ReadResult (C : Type*) where
  | full
  | short (mix : C → C → C)

/-- The frame after a read. -/
def ReadResult.content : ReadResult C → C → C → C
  | .full, back, _ => back
  | .short mix, back, frame => mix back frame

def setContent (s : State C) (p : PageId) (c : C) : State C :=
  s.modifyPage p fun t => { t with content := c }

def readPage (s : State C) (d : DevId) (offset : Pgoff) (p : PageId) (r : ReadResult C) : State C :=
  s.setContent p (r.content (s.disk (d, offset)) (s.pages p).content)

/-- `read_or_fake_page_bio` for a device, `read_pages_file` for a file. A page of a device whose
bitmap bit is clear is not read at all. -/
def readOrFake (s : State C) (v : PvdId) (offset : Pgoff) (p : PageId) (r : ReadResult C) :
    State C :=
  let d := (s.pvds v).bk
  match (s.pvds v).type with
  | .blkd =>
    if s.bitmap (d, offset) then s.readPage d offset p r
    else { s with bitmap := Function.update s.bitmap (d, offset) true }
  | .file => s.readPage d offset p r

/-- `dmap_do_page_io`; the outcome of the read is ignored. -/
def dmapDoPageIo (s : State C) (v : PvdId) (offset : Pgoff) (p : PageId) (r : ReadResult C) :
    State C :=
  let s := if (s.pages p).pageValid then s else s.readOrFake v offset p r
  s.modifyPage p fun t => { t with pageValid := true }

/-! ### `perma_getpage` -/

/-- The value of an `int` assigned from an integer expression. -/
def int32 (n : ℤ) : ℤ := n.bmod (2 ^ 32)

/-- `num_pages` of `perma_getpage`, with `PAGES_PER_PGFAULT` equal to 1. The comparison is made in
`unsigned long`, the difference is truncated to `int`. -/
def numPages (pgoff : Pgoff) (devPgs : ℤ) : ℤ :=
  let n := if (pgoff + 1) % ulongSize ≤ (devPgs % ulongSize).toNat then 1
    else int32 (devPgs - pgoff)
  if n = 0 then n + 1 else n

/-- What the environment decides in one pass of the `retry_find_page` loop: whether the lookup was
made before another thread inserted the page, the NUMA node, and the random queue to purge. -/
structure Attempt where
  stale : Bool
  node : ℕ
  rnd : ℕ
  deriving DecidableEq, Repr

/-- The `retry_find_page` loop. The result is the locked page, and whether it was found in the
radix tree. The list of attempts is the number of passes made. -/
def findPage (e : Env C) (v : PvdId) (offset : Pgoff) :
    List Attempt → State C → Except Halt (PageId × Bool × State C)
  | [], _ => .error .spin
  | a :: rest, s =>
    match if a.stale then none else s.fmapRadixLookup e v offset with
    | none =>
      match s.allocPageLock e a.node offset v with
      | (none, s) => findPage e v offset rest (s.tryPurgePagesFast e (a.rnd % numQueues))
      | (some p, s) =>
        -- the result of this attempt to lock is not looked at
        match (s.trylockTp p ulongMax).2.fmapRadixInsert e v offset p with
        | (true, s) => .ok (p, false, s)
        | (false, s) => findPage e v offset rest (s.freePageLock p)
    | some p =>
      match s.trylockTp p ulongMax with
      | (0, s) => .ok (p, true, s)
      | (_, s) => findPage e v offset rest s

/-- The environment of a whole fault. -/
structure FaultEnv (C : Type*) where
  attempts : List Attempt
  cpu : ℕ
  read : ReadResult C

/-- `perma_getpage`: the locked page the fault resolves to. -/
def permaGetpage (e : Env C) (s : State C) (vmf : VmFault) (f : FaultEnv C) :
    Except Halt (PageId × State C) :=
  match s.vmaPvd vmf.vma with
  | none => .error .nullDeref
  | some v =>
    if vmf.address < (s.vmas vmf.vma).vmStart ∨ (s.vmas vmf.vma).vmEnd ≤ vmf.address then
      .error .efault
    else if numPages vmf.pgoff (int32 (s.devPages (s.pvds v).bk)) ≠ 1 then .error .nullDeref
    else
      match findPage e v vmf.pgoff f.attempts s with
      | .error x => .error x
      | .ok (p, true, s) =>
        -- a hit waits until the page is valid
        if (s.pages p).pageValid then
          (s.dmapAddOrUpdateRmap vmf p f.cpu).map fun s => (p, s)
        else .error .spin
      | .ok (p, false, s) =>
        let s := (s.insertPage p false).dmapDoPageIo v vmf.pgoff p f.read
        (s.dmapAddOrUpdateRmap vmf p f.cpu).map fun s => (p, s)

/-- The kernel installs a read-only entry, unless one is there, and unlocks the page. -/
def finishFault (s : State C) (vmf : VmFault) (p : PageId) : State C :=
  let s := if s.pte (vmf.vma, vmf.address) = .none then s.setPte vmf.vma vmf.address (.map p false)
    else s
  s.unlockTp p

/-- A read fault on page `i` of an area. -/
def fault (e : Env C) (s : State C) (vma : VmaId) (i : ℕ) (f : FaultEnv C) :
    Except Halt (State C) :=
  let vmf := s.vmFault vma i
  match s.permaGetpage e vmf f with
  | .error x => .error x
  | .ok (p, s) => .ok (s.finishFault vmf p)

/-! ### `perma_page_mkwrite` -/

/-- `dmap_do_tagged_page_writable` -/
def dmapDoTaggedPageWritable (e : Env C) (s : State C) (v : PvdId) (p : PageId) :
    Except Halt (State C) :=
  if (s.pages p).isDirty then .ok s
  else
    let s := s.setDirty p true
    if (s.pages p).bufferId ≠ .biClean then .error .bug
    else .ok ((s.treeInsert e .dirty v (s.pages p).index p).movePageC2d p)

/-- `perma_page_mkwrite` on the page that `vmf` is about; `true` is `VM_FAULT_LOCKED`, `false` is
`VM_FAULT_NOPAGE`. -/
def permaPageMkwrite (e : Env C) (s : State C) (vmf : VmFault) (p : PageId) :
    Except Halt (Bool × State C) :=
  match s.vmaPvd vmf.vma with
  | none => .error .nullDeref
  | some v =>
    match s.trylockTp p vmf.pgoff with
    | (0, s) => (s.dmapDoTaggedPageWritable e v p).map fun s => (true, s)
    | (-1, _) => .error .spin
    | _ => .ok (false, s)

/-- A write fault on page `i` of an area, which is mapped. The kernel makes the entry writable and
unlocks the page. -/
def mkwrite (e : Env C) (s : State C) (vma : VmaId) (i : ℕ) : Except Halt (State C) :=
  let vmf := s.vmFault vma i
  match s.pte (vma, vmf.address) with
  | .none => .error .notIssued
  | .map p _ =>
    match s.permaPageMkwrite e vmf p with
    | .error x => .error x
    | .ok (false, s) => .ok s
    | .ok (true, s) => .ok ((s.setPte vma vmf.address (.map p true)).unlockTp p)

/-- A store through a writable entry. -/
def store (s : State C) (vma : VmaId) (i : ℕ) (f : C → C) : Except Halt (State C) :=
  match s.pte (vma, (s.vmas vma).addr i) with
  | .map p true => .ok (s.modifyPage p fun t => { t with content := f t.content })
  | _ => .error .notIssued

/-- A load through page `i` of an area, when it is mapped. -/
def load (s : State C) (vma : VmaId) (i : ℕ) : Option C :=
  match s.pte (vma, (s.vmas vma).addr i) with
  | .map p _ => some (s.pages p).content
  | .none => none

end State

end FastMap
