import FastMap.PageMap

/-!
# Reverse mappings and page tables

Each tagged page records the areas that map it, so that its page table entries can be write
protected (`clear_mappings`) or removed (`remove_mappings`). TLB flushes are taken to cover every
entry that changes.
-/

namespace FastMap

variable {C : Type*}

/-- `struct vm_fault`: a fault on page `i` of an area. -/
structure VmFault where
  vma : VmaId
  address : ℕ
  pgoff : Pgoff
  deriving DecidableEq, Repr

namespace VmArea

/-- The address of page `i` of an area. -/
def addr (a : VmArea) (i : ℕ) : ℕ := a.vmStart + i * pageSize

end VmArea

namespace State

/-- The fault the kernel reports for page `i` of an area. -/
def vmFault (s : State C) (vma : VmaId) (i : ℕ) : VmFault :=
  ⟨vma, (s.vmas vma).addr i, (s.vmas vma).vmPgoff + i⟩

/-! ### Page table entries -/

def setPte (s : State C) (vma : VmaId) (a : ℕ) (x : Pte) : State C :=
  { s with pte := Function.update s.pte (vma, a) x }

/-- `pte_wrprotect` on the entry of a reverse mapping, if it maps the page. -/
def wrprotect (s : State C) (p : PageId) (r : PrVmaRmap) : State C :=
  match s.pte (r.vma, r.vaddr) with
  | .map q _ => if q = p then s.setPte r.vma r.vaddr (.map p false) else s
  | .none => s

/-- `zap_page_from_address_space` -/
def zapPage (s : State C) (p : PageId) (r : PrVmaRmap) : State C :=
  match s.pte (r.vma, r.vaddr) with
  | .map q _ => if q = p then s.setPte r.vma r.vaddr .none else s
  | .none => s

/-! ### Reverse mappings -/

def setRmap (s : State C) (p : PageId) (i : Fin maxRmapsPerPage) (r : PrVmaRmap) : State C :=
  s.modifyPage p fun t => { t with rmap := Function.update t.rmap i r }

/-- `list_del(&pvr->vma_mapped)` -/
def unlinkRmap (s : State C) (p : PageId) (i : Fin maxRmapsPerPage) : State C :=
  { s with pves := fun x =>
      { s.pves x with pcpuMapped := fun cpu => ((s.pves x).pcpuMapped cpu).erase (p, i) } }

/-- `list_add_tail(&pvr->vma_mapped, &pve->pcpu_mapped[cpu])` -/
def linkRmap (s : State C) (x : PveId) (cpu : ℕ) (p : PageId) (i : Fin maxRmapsPerPage) :
    State C :=
  let l := (s.pves x).pcpuMapped
  let pve := { s.pves x with pcpuMapped := Function.update l cpu (l cpu ++ [(p, i)]) }
  { s with pves := Function.update s.pves x pve }

/-- `clear_mappings` -/
def clearMappings (s : State C) (p : PageId) : State C :=
  (List.finRange maxRmapsPerPage).foldl
    (fun s i =>
      let r := (s.pages p).rmap i
      if r.valid then s.wrprotect p r else s) s

/-- `remove_mappings` -/
def removeMappings (s : State C) (p : PageId) : State C :=
  (List.finRange maxRmapsPerPage).foldl
    (fun s i =>
      let r := (s.pages p).rmap i
      if r.valid then
        ((s.zapPage p r).setRmap p i { r with valid := false }).unlinkRmap p i
      else s) s

/-- The slot of a page that already maps it into an area. -/
def findRmap (t : TaggedPage C) (vma : VmaId) : Option (Fin maxRmapsPerPage) :=
  (List.finRange maxRmapsPerPage).find? fun i => (t.rmap i).valid && (t.rmap i).vma == vma

/-- `free_entry`: the loop keeps the last slot that is not valid. -/
def freeEntry (t : TaggedPage C) : Option (Fin maxRmapsPerPage) :=
  ((List.finRange maxRmapsPerPage).filter fun i => !(t.rmap i).valid).getLast?

/-- `dmap_add_or_update_rmap` on processor `cpu`. With no slot left it writes `rmap[-1]`. -/
def dmapAddOrUpdateRmap (s : State C) (vmf : VmFault) (p : PageId) (cpu : ℕ) :
    Except Halt (State C) :=
  match findRmap (s.pages p) vmf.vma with
  | some _ => .ok s
  | none =>
    match freeEntry (s.pages p) with
    | none => .error .rmapOverflow
    | some i =>
      match (s.infos (s.vmas vmf.vma).info).pve with
      | none => .error .nullDeref
      | some x =>
        .ok ((s.setRmap p i ⟨true, vmf.vma, vmf.address, cpu⟩).linkRmap x cpu p i)

end State

end FastMap
