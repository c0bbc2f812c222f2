import FastMap.Faults

/-!
# Files and devices

What opens, maps, syncs, closes and deletes the files behind the buffer: `dmapfs_file.c`,
`dmapfs_inode.c`, and the device functions of `main.c`. The kernel around the driver is a record of
its own: which descriptors are open and which areas are mapped. It releases a descriptor only when
no area refers to it any more.
-/

namespace FastMap

variable {C : Type*}

namespace State

/-! ### Emptying the radix trees of a pvd -/

/-- Take the first page out of the first radix tree that has one. -/
def popRadix (s : State C) (v : PvdId) : List ℕ → Option (PageId × State C)
  | [] => none
  | cpu :: cpus =>
    match (s.trees ⟨.rdx, v, cpu⟩).first? with
    | none => s.popRadix v cpus
    | some (k, p) => some (p, s.treeErase ⟨.rdx, v, cpu⟩ k)

/-- The loop of `raw_release` and `wrapfs_unlink`: until the trees are empty, take a page out, lock
it and dispose of it. Each iteration removes one entry, so their number is enough fuel. -/
def clearRadix (e : Env C) (v : PvdId) (dispose : State C → PageId → State C) :
    ℕ → State C → Except Halt (State C)
  | fuel, s =>
    match s.popRadix v (List.range e.ncpus) with
    | none => .ok s
    | some (p, s) =>
      match fuel with
      | 0 => .error .spin
      | fuel + 1 =>
        match s.trylockTp p ulongMax with
        | (0, s) => clearRadix e v dispose fuel (dispose s p)
        | _ => .error .spin

/-- What `raw_release` does with a page: it leaves the queue it is in and is freed. -/
def rawReleasePage (s : State C) (p : PageId) : State C :=
  let index := (s.pages p).index
  let s := match (s.pages p).bufferId with
    | .biClean => s.remove (cleanQueue index) p
    | .biDirty => s.remove (dirtyQueue index) p
    | .biNone => s
  s.freePageLock p

/-- `raw_release`, for a descriptor that has a pvd. -/
def rawRelease (e : Env C) (s : State C) (v : PvdId) : Except Halt (State C) :=
  match s.writeDirtyPages e .release v with
  | .error x => .error x
  | .ok s => clearRadix e v rawReleasePage (s.treeSize e .rdx v) s

/-- What `wrapfs_unlink` does with a page: only a page of a clean queue is freed. -/
def unlinkPage (s : State C) (p : PageId) : State C :=
  match (s.pages p).bufferId with
  | .biClean => (s.remove (cleanQueue (s.pages p).index) p).freePageLock p
  | _ => s.unlockTp p

def modifyPvd (s : State C) (v : PvdId) (f : PrVmaData → PrVmaData) : State C :=
  { s with pvds := Function.update s.pvds v (f (s.pvds v)) }

/-- `wrapfs_unlink` of the last link to a file, from the point where its pvd has been taken out of
`ino_pvd_cache`; afterwards the pvd is freed. -/
def wrapfsUnlink (e : Env C) (s : State C) (v : PvdId) : Except Halt (State C) :=
  let s := s.modifyPvd v fun d => { d with duringUnlink := true }
  match clearRadix e v unlinkPage (s.treeSize e .rdx v) s with
  | .error x => .error x
  | .ok s => .ok (s.modifyPvd v fun d => { d with isValid := false })

/-! ### The entries of the mapped areas -/

def modifyPve (s : State C) (x : PveId) (f : PrVmaEntry → PrVmaEntry) : State C :=
  { s with pves := Function.update s.pves x (f (s.pves x)) }

/-- `perma_vma_open`; `pve` is the entry that `kmem_cache_alloc` hands out. Its count is the one
that `pve_init_once` has given it, or the one it was freed with. -/
def permaVmaOpen (s : State C) (vma : VmaId) (pve : PveId) : State C :=
  let a := s.vmas vma
  let info := s.infos a.info
  match info.isFastmap, info.pve with
  | true, some x => s.modifyPve x fun t => { t with refcount := t.refcount + 1 }
  | _, _ =>
    { s.modifyPve pve fun t => { t with vmStart := a.vmStart, vmEnd := a.vmEnd } with
      infos := Function.update s.infos a.info { info with isFastmap := true, pve := some pve } }

/-- One iteration of `__pve_release`: a slot becomes invalid, and the page table entry it records is
removed. -/
def releaseSlot (s : State C) (i : PageId × Fin maxRmapsPerPage) : State C :=
  let r := (s.pages i.1).rmap i.2
  (s.setRmap i.1 i.2 { r with valid := false }).zapPage i.1 r

/-- `__pve_release`: every slot that is on a list of the entry leaves it. -/
def pveRelease (e : Env C) (s : State C) (x : PveId) : State C :=
  let slots := (List.range e.ncpus).flatMap (s.pves x).pcpuMapped
  let s := s.modifyPve x fun t =>
    { t with pcpuMapped := fun cpu => if cpu < e.ncpus then [] else t.pcpuMapped cpu }
  slots.foldl releaseSlot s

/-- `perma_vma_close`. The result says whether the entry was freed; the descriptor keeps the
pointer to it. -/
def permaVmaClose (e : Env C) (s : State C) (vma : VmaId) : Except Halt (Option PveId × State C) :=
  let i := (s.vmas vma).info
  match (s.infos i).pve with
  | none => .error .nullDeref
  | some x =>
    let s := s.modifyPve x fun t => { t with refcount := t.refcount - 1 }
    if (s.pves x).refcount = 0 then
      let s := s.pveRelease e x
      .ok (some x,
        { s with infos := Function.update s.infos i { s.infos i with isFastmap := false } })
    else .ok (none, s)

/-- The slot that `perma_mremap` takes: the first one that is not valid. -/
def firstFreeEntry (t : TaggedPage C) : Option (Fin maxRmapsPerPage) :=
  (List.finRange maxRmapsPerPage).find? fun i => !(t.rmap i).valid

/-- One iteration of the loop of `perma_mremap`: a slot of the same page for the new area. -/
def copyRmap (vma : VmaId) (shift : ℕ → ℕ) (pve : PveId) (cpu : ℕ) (s : State C)
    (i : PageId × Fin maxRmapsPerPage) : Except Halt (State C) :=
  match firstFreeEntry (s.pages i.1) with
  | none => .error .nullDeref
  | some j =>
    .ok ((s.setRmap i.1 j ⟨true, vma, shift ((s.pages i.1).rmap i.2).vaddr, cpu⟩).linkRmap pve cpu
      i.1 j)

/-- `perma_mremap` of the new area, on processor `cpu`; `pve` is the entry that `kmem_cache_alloc`
hands out. -/
def permaMremap (e : Env C) (s : State C) (vma : VmaId) (pve : PveId) (cpu : ℕ) :
    Except Halt (State C) :=
  let a := s.vmas vma
  match (s.infos a.info).pve with
  | none => .error .nullDeref
  | some old =>
    let start := (s.pves old).vmStart
    let shift := fun vaddr => if start < a.vmStart then vaddr + (a.vmStart - start)
      else vaddr - (start - a.vmStart)
    let slots := (List.range e.ncpus).flatMap (s.pves old).pcpuMapped
    let s := s.modifyPve pve fun t => { t with vmStart := a.vmStart, vmEnd := a.vmEnd }
    match slots.foldlM (copyRmap vma shift pve cpu) s with
    | .error x => .error x
    | .ok s =>
      .ok { s with infos := Function.update s.infos a.info { s.infos a.info with pve := some pve } }

end State

/-! ### Descriptors and areas -/

/-- The kernel's side: the cache of pvds by inode, the pvds in use, the open descriptors and the
mapped areas. -/
structure Vfs (C : Type*) where
  st : State C
  inoPvdCache : DevId → Option PvdId
  pvdInUse : PvdId → Bool
  isOpen : InfoId → Bool
  areas : List VmaId

namespace Vfs

/-- `create_and_add_file_pvd` and the allocation in `raw_open`. -/
def createPvd (s : Vfs C) (v : PvdId) (type : PvdType) (bk : DevId) : Vfs C :=
  { s with
    st :=
      { s.st with
        pvds := Function.update s.st.pvds v
          ⟨type, bk, false, false, true, false⟩
        trees := fun t => if t.pvd = v then .empty else s.st.trees t }
    pvdInUse := Function.update s.pvdInUse v true }

def setInfo (s : Vfs C) (i : InfoId) (v : PvdId) : Vfs C :=
  { s with
    st := { s.st with infos := Function.update s.st.infos i ⟨false, some v, none⟩ }
    isOpen := Function.update s.isOpen i true }

/-- `wrapfs_open` of a regular file. The pvd is shared by all descriptors of the inode; `v` is the
memory a new one is given. -/
def wrapfsOpen (s : Vfs C) (ino : DevId) (i : InfoId) (v : PvdId) : Except Halt (Vfs C) :=
  if s.isOpen i then .error .notIssued
  else
    match s.inoPvdCache ino with
    | some w => .ok (s.setInfo i w)
    | none =>
      if s.pvdInUse v then .error .notIssued
      else
        let s := s.createPvd v .file ino
        .ok ({ s with inoPvdCache := Function.update s.inoPvdCache ino (some v) }.setInfo i v)

/-- `raw_open`: every descriptor of a device has a pvd of its own. -/
def rawOpen (s : Vfs C) (bdev : DevId) (i : InfoId) (v : PvdId) : Except Halt (Vfs C) :=
  if s.isOpen i ∨ s.pvdInUse v then .error .notIssued
  else .ok ((s.createPvd v .blkd bdev).setInfo i v)

/-- `dmap_mmap_file` and `dmap_mmap_blockdev`: only the first sets the two flags of the pvd. -/
def dmapMmap (s : Vfs C) (vma : VmaId) (a : VmArea) (pve : PveId) : Except Halt (Vfs C) :=
  if vma ∈ s.areas ∨ s.isOpen a.info = false then .error .notIssued
  else
    match (s.st.infos a.info).pvd with
    | none => .error .nullDeref
    | some v =>
      let st := match (s.st.pvds v).type with
        | .file => s.st.modifyPvd v fun d => { d with mmaped := true, isMmap := true }
        | .blkd => s.st
      let st := { st with vmas := Function.update st.vmas vma a }
      .ok { s with st := st.permaVmaOpen vma pve, areas := vma :: s.areas }

/-- `wrapfs_fsync` and `dmap_fsync` -/
def fsync (e : Env C) (s : Vfs C) (i : InfoId) : Except Halt (Vfs C) :=
  if s.isOpen i = false then .error .notIssued
  else
    match (s.st.infos i).pvd with
    | none => .ok s
    | some v => (s.st.writeDirtyPages e .fsync v).map fun st => { s with st := st }

/-- Whether `wrapfs_file_release` writes the dirty pages of the file. -/
def releaseWrites (d : PrVmaData) : Bool := d.isMmap && d.isValid && d.mmaped

/-- `wrapfs_file_release` -/
def wrapfsFileRelease (e : Env C) (s : Vfs C) (i : InfoId) (v : PvdId) : Except Halt (Vfs C) :=
  if releaseWrites (s.st.pvds v) then
    (s.st.writeDirtyPages e .release v).map fun st =>
      { s with
        st := { st with infos := Function.update st.infos i { st.infos i with pvd := none } }
        isOpen := Function.update s.isOpen i false }
  else .ok { s with isOpen := Function.update s.isOpen i false }

/-- The release of a descriptor: `wrapfs_file_release` or `raw_release`. -/
def release (e : Env C) (s : Vfs C) (i : InfoId) : Except Halt (Vfs C) :=
  if s.isOpen i = false ∨ ∃ vma ∈ s.areas, (s.st.vmas vma).info = i then .error .notIssued
  else
    match (s.st.infos i).pvd with
    | none => .ok { s with isOpen := Function.update s.isOpen i false }
    | some v =>
      match (s.st.pvds v).type with
      | .file => s.wrapfsFileRelease e i v
      | .blkd =>
        (s.st.rawRelease e v).map fun st =>
          { s with st := st, isOpen := Function.update s.isOpen i false }

end Vfs

end FastMap
