import FastMap.Entries

/-!
# Opening and closing areas

The memory manager's side of the entries: which areas are open, and which entries are allocated
from the slab. An entry that is freed keeps its contents, so an entry that is handed out a second
time comes with the count it was freed with. As long as this does not happen and no area is moved,
the counts are exact; and as long as an area is closed before its siblings only when it maps
nothing, no slot outlives its area.
-/

namespace FastMap

variable {C : Type*}

/-- The buffer with the open areas and the allocated entries. -/
structure Mm (C : Type*) where
  st : State C
  areas : List VmaId
  slab : PveId → Bool

/-- The calls on areas, with faults on them and reclaim. -/
inductive AreaOp (C : Type*) where
  /-- `perma_vma_open` for a first or a further `mmap`, a fork or a split. -/
  | open (vma : VmaId) (a : VmArea) (pve : PveId)
  | close (vma : VmaId)
  | mremap (old new : VmaId) (a : VmArea) (pve pve' : PveId) (cpu : ℕ)
  | fault (vma : VmaId) (i : ℕ) (f : State.FaultEnv C)
  | purge (qid : ℕ)

namespace Mm

open State

/-! ### The calls -/

/-- Whether `perma_vma_open` takes an entry from the slab. -/
def allocates (s : Mm C) (i : InfoId) : Bool :=
  !((s.st.infos i).isFastmap && (s.st.infos i).pve.isSome)

/-- A new area, for which the kernel calls `perma_vma_open`. -/
def openArea (s : Mm C) (vma : VmaId) (a : VmArea) (pve : PveId) : Except Halt (Mm C) :=
  if vma ∈ s.areas ∨ s.allocates a.info = true ∧ s.slab pve = true then .error .notIssued
  else if (s.st.infos a.info).pvd = none then .error .nullDeref
  else
    .ok
      { st := ({ s.st with vmas := Function.update s.st.vmas vma a } : State C).permaVmaOpen vma pve
        areas := vma :: s.areas
        slab := if s.allocates a.info then Function.update s.slab pve true else s.slab }

/-- The kernel removes the page table entries of an area and calls `perma_vma_close`. -/
def closeArea (e : Env C) (s : Mm C) (vma : VmaId) : Except Halt (Mm C) :=
  if vma ∉ s.areas then .error .notIssued
  else
    let st := { s.st with pte := fun a => if a.1 = vma then .none else s.st.pte a }
    match st.permaVmaClose e vma with
    | .error x => .error x
    | .ok (freed, st) =>
      .ok
        { st := st
          areas := s.areas.erase vma
          slab := fun x => if freed = some x then false else s.slab x }

/-- `mremap`: the kernel opens the new area, moves the page table entries, calls `perma_mremap` and
closes the old area. -/
def mremap (e : Env C) (s : Mm C) (old new : VmaId) (a : VmArea) (pve pve' : PveId) (cpu : ℕ) :
    Except Halt (Mm C) :=
  if old ∉ s.areas ∨ a.info ≠ (s.st.vmas old).info then .error .notIssued
  else
    match s.openArea new a pve with
    | .error x => .error x
    | .ok s =>
      if s.slab pve' then .error .notIssued
      else
        let start := (s.st.vmas old).vmStart
        let st := { s.st with pte := fun b =>
          if b.1 = new ∧ a.vmStart ≤ b.2 then s.st.pte (old, b.2 - a.vmStart + start)
          else if b.1 = old then .none else s.st.pte b }
        match st.permaMremap e new pve' cpu with
        | .error x => .error x
        | .ok st =>
          ({ s with st := st, slab := Function.update s.slab pve' true } : Mm C).closeArea e old

def exec (e : Env C) (s : Mm C) : AreaOp C → Except Halt (Mm C)
  | .open vma a pve => s.openArea vma a pve
  | .close vma => s.closeArea e vma
  | .mremap old new a pve pve' cpu => s.mremap e old new a pve pve' cpu
  | .fault vma i f =>
    if vma ∈ s.areas ∧ f.cpu < e.ncpus then (s.st.fault e vma i f).map fun st => { s with st := st }
    else .error .notIssued
  | .purge qid => .ok { s with st := s.st.tryPurgePagesFast e qid }

/-- A completed call. -/
def Completes (e : Env C) (s : Mm C) (op : AreaOp C) (s' : Mm C) : Prop := s.exec e op = .ok s'

/-- Nothing is mapped, and every entry of the slab is as `pve_init_once` has made it. -/
def init (e : Env C) (w : World C) : Mm C where
  st := { initParams e w with infos := fun i => { w.infos i with isFastmap := false, pve := none } }
  areas := []
  slab _ := false

/-- The open areas that are attached to an entry through their descriptor. -/
def attached (s : Mm C) (x : PveId) : ℕ :=
  s.areas.countP fun vma => decide ((s.st.infos (s.st.vmas vma).info).pve = some x)

/-- The open areas of a descriptor. -/
def users (s : Mm C) (i : InfoId) : ℕ := s.areas.countP fun vma => decide ((s.st.vmas vma).info = i)

/-! ### Counts -/

/-- A descriptor with open areas has an entry of its own that counts them. -/
structure Counted (s : Mm C) : Prop where
  nodup : s.areas.Nodup
  area {vma : VmaId} : vma ∈ s.areas → (s.st.infos (s.st.vmas vma).info).isFastmap = true
  entry {i : InfoId} : (s.st.infos i).isFastmap = true → ∃ x, (s.st.infos i).pve = some x ∧
    s.slab x = true ∧ (s.st.pves x).refcount = s.users i ∧ 0 < s.users i
  one {i j : InfoId} {x : PveId} : (s.st.infos i).isFastmap = true →
    (s.st.infos j).isFastmap = true → (s.st.infos i).pve = some x → (s.st.infos j).pve = some x →
    i = j
  slab {x : PveId} : s.slab x = true → ∃ i, (s.st.infos i).isFastmap = true ∧
    (s.st.infos i).pve = some x

variable {e : Env C} {s s' : Mm C} {op : AreaOp C} {vma : VmaId}

lemma counted_init (e : Env C) (w : World C) : (init e w).Counted where
  nodup := List.nodup_nil
  area h := absurd h List.not_mem_nil
  entry h := absurd h Bool.false_ne_true
  one h := absurd h Bool.false_ne_true
  slab h := absurd h Bool.false_ne_true

/-- The areas that are attached to the entry of a descriptor are those of the descriptor. -/
lemma Counted.attached_eq (h : s.Counted) {i : InfoId} {x : PveId}
    (hi : (s.st.infos i).isFastmap = true) (hx : (s.st.infos i).pve = some x) :
    s.attached x = s.users i := by
  refine List.countP_congr fun vma hv => ?_
  simp only [decide_eq_true_eq]
  constructor
  · intro hv'
    exact h.one (h.area hv) hi hv' hx
  · rintro rfl
    exact hx

/-- An entry is allocated exactly while areas are attached to it, and counts them. -/
lemma Counted.exact (h : s.Counted) (x : PveId) :
    (s.slab x = true ↔ 0 < s.attached x) ∧
      (s.slab x = true → (s.st.pves x).refcount = s.attached x) := by
  have hcount : s.slab x = true → (s.st.pves x).refcount = s.attached x ∧ 0 < s.attached x := by
    intro hx
    obtain ⟨i, hi, hpve⟩ := h.slab hx
    obtain ⟨y, hy, -, hr, hpos⟩ := h.entry hi
    obtain rfl : y = x := Option.some.inj (hy.symm.trans hpve)
    rw [h.attached_eq hi hpve]
    exact ⟨hr, hpos⟩
  refine ⟨⟨fun hx => (hcount hx).2, fun hpos => ?_⟩, fun hx => (hcount hx).1⟩
  obtain ⟨vma, hv, hp⟩ := List.countP_pos_iff.mp hpos
  obtain ⟨y, hy, hslab, -⟩ := h.entry (h.area hv)
  obtain rfl : y = x := Option.some.inj (hy.symm.trans (of_decide_eq_true hp))
  exact hslab

/-- Faults and reclaim. -/
lemma Counted.fewer (h : s.Counted) {st : State C} (hv : st.vmas = s.st.vmas)
    (hi : st.infos = s.st.infos) (hr : ∀ x, (st.pves x).refcount = (s.st.pves x).refcount) :
    ({ s with st := st } : Mm C).Counted := by
  have husers : ∀ i, ({ s with st := st } : Mm C).users i = s.users i := by
    intro i
    simp only [users, hv]
  refine ⟨h.nodup, fun hm => ?_, fun hf => ?_, fun hf hf' hx hx' => ?_, fun hs => ?_⟩
  · simp only [hi, hv]
    exact h.area hm
  · simp only [hi, hr, husers] at hf ⊢
    exact h.entry hf
  · simp only [hi] at hf hf' hx hx'
    exact h.one hf hf' hx hx'
  · simp only [hi]
    exact h.slab hs

/-- What the opening of an area does in any case. -/
structure Opened (s : Mm C) (vma : VmaId) (a : VmArea) (s' : Mm C) : Prop where
  new : vma ∉ s.areas
  areas : s'.areas = vma :: s.areas
  vmas : s'.st.vmas = Function.update s.st.vmas vma a
  pages : s'.st.pages = s.st.pages
  lists (x : PveId) : (s'.st.pves x).pcpuMapped = (s.st.pves x).pcpuMapped

/-- The area of a descriptor that has an entry. -/
lemma openArea_shared {a : VmArea} {pve x : PveId} (hs : s.openArea vma a pve = .ok s')
    (hf : (s.st.infos a.info).isFastmap = true) (hx : (s.st.infos a.info).pve = some x) :
    Opened s vma a s' ∧ s'.st.infos = s.st.infos ∧ s'.slab = s.slab ∧
      ∀ y, (s'.st.pves y).refcount = (s.st.pves y).refcount + if y = x then 1 else 0 := by
  have hall : s.allocates a.info = false := by simp [allocates, hf, hx]
  simp only [openArea] at hs
  split_ifs at hs with hno hpvd hall'
  · rw [hall] at hall'
    exact absurd hall' Bool.false_ne_true
  rw [not_or] at hno
  obtain rfl := Except.ok.inj hs
  refine ⟨⟨hno.1, rfl, ?_, ?_, fun y => ?_⟩, ?_, rfl, fun y => ?_⟩
  · simp [permaVmaOpen, hf, hx, modifyPve]
  · simp [permaVmaOpen, hf, hx, modifyPve]
  · by_cases hy : y = x <;> simp [permaVmaOpen, hf, hx, modifyPve, hy]
  · simp [permaVmaOpen, hf, hx, modifyPve]
  · by_cases hy : y = x <;> simp [permaVmaOpen, hf, hx, modifyPve, hy]

/-- The area of a descriptor that has none. -/
lemma openArea_fresh {a : VmArea} {pve : PveId} (hs : s.openArea vma a pve = .ok s')
    (hf : (s.st.infos a.info).isFastmap = false) :
    Opened s vma a s' ∧ s.slab pve = false ∧
      s'.st.infos = Function.update s.st.infos a.info
        ⟨true, (s.st.infos a.info).pvd, some pve⟩ ∧
      s'.slab = Function.update s.slab pve true ∧
      ∀ y, (s'.st.pves y).refcount = (s.st.pves y).refcount := by
  have hall : s.allocates a.info = true := by simp [allocates, hf]
  simp only [openArea] at hs
  split_ifs at hs with hno hpvd
  rw [not_or, not_and, Bool.not_eq_true] at hno
  obtain rfl := Except.ok.inj hs
  refine ⟨⟨hno.1, rfl, ?_, ?_, fun y => ?_⟩, hno.2 hall, ?_, rfl, fun y => ?_⟩
  · simp [permaVmaOpen, hf, modifyPve]
  · simp [permaVmaOpen, hf, modifyPve]
  · by_cases hy : y = pve <;> simp [permaVmaOpen, hf, modifyPve, hy]
  · simp [permaVmaOpen, hf, modifyPve]
  · by_cases hy : y = pve <;> simp [permaVmaOpen, hf, modifyPve, hy]

/-- A new area is one more user of its descriptor. -/
lemma Opened.users {a : VmArea} (h : Opened s vma a s') (i : InfoId) :
    s'.users i = s.users i + if a.info = i then 1 else 0 := by
  have hold : ∀ v ∈ s.areas, (s'.st.vmas v).info = (s.st.vmas v).info := by
    intro v hm
    have hne : v ≠ vma := by
      rintro rfl
      exact h.new hm
    rw [h.vmas, Function.update_of_ne hne]
  simp only [Mm.users, h.areas, List.countP_cons, decide_eq_true_eq]
  congr 1
  · exact List.countP_congr fun v hm => by rw [hold v hm]
  · rw [h.vmas, Function.update_self]

/-- The areas of the new list. -/
lemma Opened.mem {a : VmArea} (h : Opened s vma a s') {v : VmaId} (hm : v ∈ s'.areas) :
    (v = vma ∧ s'.st.vmas v = a) ∨ (v ∈ s.areas ∧ s'.st.vmas v = s.st.vmas v) := by
  rw [h.areas] at hm
  rw [h.vmas]
  by_cases hv : v = vma
  · subst hv
    exact Or.inl ⟨rfl, Function.update_self _ _ _⟩
  · exact Or.inr ⟨(List.mem_cons.mp hm).resolve_left hv, Function.update_of_ne hv _ _⟩

lemma Opened.nodup {a : VmArea} (h : Opened s vma a s') (hn : s.areas.Nodup) :
    s'.areas.Nodup := by
  rw [h.areas]
  exact List.nodup_cons.mpr ⟨h.new, hn⟩

/-- A further area of a descriptor. -/
lemma Counted.open_shared (h : s.Counted) {a : VmArea} {pve : PveId}
    (hs : s.openArea vma a pve = .ok s') (hf : (s.st.infos a.info).isFastmap = true) :
    s'.Counted := by
  obtain ⟨x, hx, -, -, -⟩ := h.entry hf
  obtain ⟨ho, hi, hslab, hr⟩ := openArea_shared hs hf hx
  refine ⟨ho.nodup h.nodup, fun {v} hm => ?_, fun {i} hfi => ?_, fun {i j y} => ?_, fun {y} => ?_⟩
  · rw [hi]
    rcases ho.mem hm with ⟨-, hv⟩ | ⟨hold, hv⟩
    · rw [hv]
      exact hf
    · rw [hv]
      exact h.area hold
  · rw [hi] at hfi ⊢
    obtain ⟨y, hy, hyslab, hyr, hypos⟩ := h.entry hfi
    refine ⟨y, hy, ?_, ?_, ?_⟩
    · rw [hslab]
      exact hyslab
    · rw [hr, ho.users, hyr]
      by_cases hia : a.info = i
      · subst hia
        obtain rfl : x = y := Option.some.inj (hx.symm.trans hy)
        simp
      · have hyx : y ≠ x := by
          rintro rfl
          exact hia (h.one hf hfi hx hy)
        simp [hia, hyx]
    · rw [ho.users]
      omega
  · rw [hi]
    exact h.one
  · rw [hi, hslab]
    exact h.slab

/-- The first area of a descriptor. The entry must come with the count one. -/
lemma Counted.open_fresh (h : s.Counted) {a : VmArea} {pve : PveId}
    (hs : s.openArea vma a pve = .ok s') (hf : (s.st.infos a.info).isFastmap = false)
    (hone : (s.st.pves pve).refcount = 1) : s'.Counted := by
  obtain ⟨ho, hfree, hi, hslab, hr⟩ := openArea_fresh hs hf
  -- the descriptor has had no area, and no other descriptor uses the entry
  have hnone : ∀ v ∈ s.areas, (s.st.vmas v).info ≠ a.info := by
    intro v hm heq
    have hfm := h.area hm
    rw [heq, hf] at hfm
    exact Bool.false_ne_true hfm
  have hzero : s.users a.info = 0 :=
    List.countP_eq_zero.mpr fun v hm hd => hnone v hm (of_decide_eq_true hd)
  have hself : s'.st.infos a.info = ⟨true, (s.st.infos a.info).pvd, some pve⟩ := by
    rw [hi, Function.update_self]
  have hothers : ∀ {i}, i ≠ a.info → s'.st.infos i = s.st.infos i := by
    intro i hia
    rw [hi, Function.update_of_ne hia]
  have hother : ∀ {i x}, (s.st.infos i).isFastmap = true → (s.st.infos i).pve = some x →
      x ≠ pve := by
    rintro i x hfi hx rfl
    obtain ⟨y, hy, hyslab, -⟩ := h.entry hfi
    obtain rfl : x = y := Option.some.inj (hx.symm.trans hy)
    rw [hfree] at hyslab
    exact Bool.false_ne_true hyslab
  refine ⟨ho.nodup h.nodup, fun {v} hm => ?_, fun {i} hfi => ?_, fun {i j x} hfi hfj hxi hxj => ?_,
    fun {x} hx => ?_⟩
  · rcases ho.mem hm with ⟨-, hv⟩ | ⟨hold, hv⟩
    · rw [hv, hself]
    · rw [hv, hothers (hnone v hold)]
      exact h.area hold
  · rw [ho.users]
    by_cases hia : i = a.info
    · subst hia
      refine ⟨pve, ?_, ?_, ?_, ?_⟩
      · rw [hself]
      · rw [hslab, Function.update_self]
      · simp [hr, hone, hzero]
      · simp
    · rw [hothers hia] at hfi ⊢
      obtain ⟨y, hy, hyslab, hyr, hypos⟩ := h.entry hfi
      refine ⟨y, hy, ?_, ?_, by omega⟩
      · rw [hslab, Function.update_of_ne (hother hfi hy)]
        exact hyslab
      · simp [hr, hyr, Ne.symm hia]
  · by_cases hia : i = a.info <;> by_cases hja : j = a.info
    · rw [hia, hja]
    · subst hia
      rw [hothers hja] at hfj hxj
      rw [hself] at hxi
      exact absurd (Option.some.inj hxi).symm (hother hfj hxj)
    · subst hja
      rw [hothers hia] at hfi hxi
      rw [hself] at hxj
      exact absurd (Option.some.inj hxj).symm (hother hfi hxi)
    · rw [hothers hia] at hfi hxi
      rw [hothers hja] at hfj hxj
      exact h.one hfi hfj hxi hxj
  · by_cases hxp : x = pve
    · subst hxp
      exact ⟨a.info, by rw [hself], by rw [hself]⟩
    · rw [hslab, Function.update_of_ne hxp] at hx
      obtain ⟨i, hfi, hix⟩ := h.slab hx
      have hia : i ≠ a.info := by
        rintro rfl
        rw [hf] at hfi
        exact Bool.false_ne_true hfi
      refine ⟨i, ?_, ?_⟩
      · rw [hothers hia]
        exact hfi
      · rw [hothers hia]
        exact hix

/-- An area that is opened is attached to the entry of its descriptor, which counts it. -/
lemma Counted.openArea (h : s.Counted) {a : VmArea} {pve : PveId}
    (hs : s.openArea vma a pve = .ok s')
    (hnew : s.allocates a.info = true → (s.st.pves pve).refcount = 1) : s'.Counted := by
  cases hf : (s.st.infos a.info).isFastmap with
  | true => exact h.open_shared hs hf
  | false => exact h.open_fresh hs hf (hnew (by simp [allocates, hf]))

/-- What the closing of an area does in any case; `x` is the entry of its descriptor. -/
structure Closed (s : Mm C) (vma : VmaId) (x : PveId) (s' : Mm C) : Prop where
  mem : vma ∈ s.areas
  entry : (s.st.infos (s.st.vmas vma).info).pve = some x
  areas : s'.areas = s.areas.erase vma
  vmas : s'.st.vmas = s.st.vmas
  refcount (y : PveId) : (s'.st.pves y).refcount = (s.st.pves y).refcount - if y = x then 1 else 0

/-- The state in which `kref_put` has dropped the count of an entry. -/
def dropped (s : Mm C) (vma : VmaId) (x : PveId) : State C :=
  State.modifyPve { s.st with pte := fun a => if a.1 = vma then .none else s.st.pte a } x
    fun t => { t with refcount := t.refcount - 1 }

lemma dropped_refcount (s : Mm C) (vma : VmaId) (x y : PveId) :
    ((s.dropped vma x).pves y).refcount = (s.st.pves y).refcount - if y = x then 1 else 0 := by
  by_cases hy : y = x <;> simp [dropped, modifyPve, hy]

lemma dropped_lists (s : Mm C) (vma : VmaId) (x y : PveId) :
    ((s.dropped vma x).pves y).pcpuMapped = (s.st.pves y).pcpuMapped := by
  by_cases hy : y = x <;> simp [dropped, modifyPve, hy]

/-- The entry is released when its count was one. -/
lemma closeArea_inv (hs : s.closeArea e vma = .ok s') : ∃ x, Closed s vma x s' ∧
    (((s.st.pves x).refcount = 1 ∧ s'.slab = Function.update s.slab x false ∧
        s'.st.infos = Function.update s.st.infos (s.st.vmas vma).info
          { s.st.infos (s.st.vmas vma).info with isFastmap := false } ∧
        s'.st.pages = ((s.dropped vma x).pveRelease e x).pages ∧
        s'.st.pves = ((s.dropped vma x).pveRelease e x).pves) ∨
      ((s.st.pves x).refcount ≠ 1 ∧ s'.slab = s.slab ∧ s'.st = s.dropped vma x)) := by
  simp only [closeArea] at hs
  split_ifs at hs with hm
  simp only [permaVmaClose] at hs
  cases hx : (s.st.infos (s.st.vmas vma).info).pve with
  | none => simp [hx] at hs
  | some x =>
    have hrel := fewerSlots_pveRelease e (s.dropped vma x) x
    have hcount := dropped_refcount s vma x
    simp only [hx] at hs
    refine ⟨x, ?_⟩
    by_cases hr : ((s.dropped vma x).pves x).refcount = 0
    · rw [dropped] at hr
      rw [if_pos hr] at hs
      obtain rfl := Except.ok.inj hs
      refine ⟨⟨hm, hx, rfl, hrel.vmas, fun y => ?_⟩, Or.inl ⟨?_, ?_, ?_, rfl, rfl⟩⟩
      · exact (hrel.refcount y).trans (hcount y)
      · have hx' := hcount x
        rw [dropped, hr, if_pos rfl] at hx'
        omega
      · funext y
        by_cases hy : y = x
        · simp [hy]
        · simp [hy, Ne.symm hy]
      · have hinfos : ((s.dropped vma x).pveRelease e x).infos = s.st.infos := hrel.infos
        simp only [dropped] at hinfos
        simp only [hinfos]
    · rw [dropped] at hr
      rw [if_neg hr] at hs
      obtain rfl := Except.ok.inj hs
      refine ⟨⟨hm, hx, rfl, rfl, hcount⟩, Or.inr ⟨?_, ?_, rfl⟩⟩
      · intro hone
        have hx' := hcount x
        rw [hone, if_pos rfl, dropped] at hx'
        exact hr (by omega)
      · funext y
        simp

/-- One user less. -/
lemma Closed.users {x : PveId} (h : Closed s vma x s') (i : InfoId) :
    s'.users i = s.users i - if (s.st.vmas vma).info = i then 1 else 0 := by
  simp only [Mm.users, h.areas, h.vmas, List.countP_erase, h.mem, true_and, decide_eq_true_eq]

/-- The other descriptors keep their users and their entries. -/
lemma Counted.other_entry {x : PveId} (h : s.Counted) (hc : Closed s vma x s') {i : InfoId}
    (hi : i ≠ (s.st.vmas vma).info) (hfi : (s.st.infos i).isFastmap = true) : ∃ y, y ≠ x ∧
      (s.st.infos i).pve = some y ∧ s.slab y = true ∧
        (s'.st.pves y).refcount = s'.users i ∧ 0 < s'.users i := by
  have husers : s'.users i = s.users i := by rw [hc.users, if_neg (Ne.symm hi), Nat.sub_zero]
  obtain ⟨y, hy, hyslab, hyr, hypos⟩ := h.entry hfi
  have hne : y ≠ x := by
    rintro rfl
    exact hi (h.one hfi (h.area hc.mem) hy hc.entry)
  refine ⟨y, hne, hy, hyslab, ?_, ?_⟩
  · rw [hc.refcount, if_neg hne, husers, hyr, sub_zero]
  · rw [husers]
    exact hypos

/-- The area that is closed is counted no more, and the last one takes its entry with it. -/
lemma Counted.closeArea (h : s.Counted) (hs : s.closeArea e vma = .ok s') : s'.Counted := by
  obtain ⟨x, hc, hcase⟩ := closeArea_inv hs
  have hf := h.area hc.mem
  obtain ⟨y, hy, hxslab, hxr, hpos⟩ := h.entry hf
  obtain rfl : x = y := Option.some.inj (hc.entry.symm.trans hy)
  set i₀ := (s.st.vmas vma).info with hi₀
  have hnodup : s'.areas.Nodup := by
    rw [hc.areas]
    exact h.nodup.erase vma
  have hself : s'.users i₀ = s.users i₀ - 1 := by rw [hc.users, if_pos rfl]
  rcases hcase with ⟨hone, hslab, hi, -, -⟩ | ⟨hone, hslab, hst⟩
  · -- the last area of the descriptor
    have hzero : s'.users i₀ = 0 := by
      rw [hself]
      omega
    have hi' : ∀ {i}, i ≠ i₀ → s'.st.infos i = s.st.infos i := by
      intro i hne
      rw [hi, Function.update_of_ne hne]
    have hoff : (s'.st.infos i₀).isFastmap = false := by rw [hi, Function.update_self]
    have hne : ∀ {i}, (s'.st.infos i).isFastmap = true → i ≠ i₀ := by
      rintro i hfi rfl
      rw [hoff] at hfi
      exact Bool.false_ne_true hfi
    refine ⟨hnodup, fun {v} hm => ?_, fun {i} hfi => ?_, fun {i j y} hfi hfj hyi hyj => ?_,
      fun {y} hyslab => ?_⟩
    · have hv : (s.st.vmas v).info ≠ i₀ := by
        intro heq
        refine List.countP_eq_zero.mp hzero v hm ?_
        rw [hc.vmas, heq, decide_eq_true_eq]
      rw [hc.vmas, hi' hv]
      rw [hc.areas] at hm
      exact h.area (List.mem_of_mem_erase hm)
    · have hii := hne hfi
      rw [hi' hii] at hfi ⊢
      obtain ⟨y, hyx, hy, hyslab, hyr⟩ := h.other_entry hc hii hfi
      refine ⟨y, hy, ?_, hyr⟩
      rw [hslab, Function.update_of_ne hyx]
      exact hyslab
    · have hii := hne hfi
      have hjj := hne hfj
      rw [hi' hii] at hfi hyi
      rw [hi' hjj] at hfj hyj
      exact h.one hfi hfj hyi hyj
    · by_cases hyx : y = x
      · rw [hslab, hyx, Function.update_self] at hyslab
        exact absurd hyslab Bool.false_ne_true
      · rw [hslab, Function.update_of_ne hyx] at hyslab
        obtain ⟨i, hfi, hiy⟩ := h.slab hyslab
        have hii : i ≠ i₀ := by
          rintro rfl
          exact hyx (Option.some.inj (hiy.symm.trans hc.entry))
        refine ⟨i, ?_, ?_⟩
        · rw [hi' hii]
          exact hfi
        · rw [hi' hii]
          exact hiy
  · -- other areas of the descriptor are left
    have hi : s'.st.infos = s.st.infos := by
      rw [hst]
      rfl
    refine ⟨hnodup, fun {v} hm => ?_, fun {i} hfi => ?_, fun {i j y} => ?_, fun {y} => ?_⟩
    · rw [hc.areas] at hm
      rw [hi, hc.vmas]
      exact h.area (List.mem_of_mem_erase hm)
    · rw [hi] at hfi ⊢
      rw [hslab]
      by_cases hii : i = i₀
      · subst hii
        refine ⟨x, hc.entry, hxslab, ?_, ?_⟩
        · rw [hc.refcount, if_pos rfl, hself, hxr]
          omega
        · rw [hself]
          omega
      · obtain ⟨y, -, hy⟩ := h.other_entry hc hii hfi
        exact ⟨y, hy⟩
    · rw [hi]
      exact h.one
    · rw [hi, hslab]
      exact h.slab

/-! ### Runs -/

/-- No area is moved, and an entry that is taken from the slab comes with the count that
`pve_init_once` has given it. -/
def Fresh (s : Mm C) : AreaOp C → Prop
  | .open _ a pve => s.allocates a.info = true → (s.st.pves pve).refcount = 1
  | .mremap .. => False
  | _ => True

/-- An area that is closed before another one of its descriptor has no slot. -/
def Unmapped (s : Mm C) : AreaOp C → Prop
  | .close vma => 1 < s.users (s.st.vmas vma).info → ∀ p j, (s.st.pages p).inUse = true →
      ((s.st.pages p).rmap j).valid = true → ((s.st.pages p).rmap j).vma ≠ vma
  | _ => True

/-- A call that takes only fresh entries. -/
def StepsFresh (e : Env C) (s : Mm C) (op : AreaOp C) (s' : Mm C) : Prop :=
  s.Fresh op ∧ Completes e s op s'

/-- A call that also closes no mapped area before its siblings. -/
def StepsUnmapped (e : Env C) (s : Mm C) (op : AreaOp C) (s' : Mm C) : Prop :=
  s.Unmapped op ∧ StepsFresh e s op s'

lemma fault_inv {i : ℕ} {f : State.FaultEnv C} (hs : s.exec e (.fault vma i f) = .ok s') :
    vma ∈ s.areas ∧ f.cpu < e.ncpus ∧ ∃ st, s.st.fault e vma i f = .ok st ∧
      s' = { s with st := st } := by
  simp only [exec] at hs
  split_ifs at hs with hc
  obtain ⟨st, hf, hs⟩ := Except.map_eq_ok.mp hs
  exact ⟨hc.1, hc.2, st, hf, hs.symm⟩

lemma Counted.step (h : s.Counted) (hs : StepsFresh e s op s') : s'.Counted := by
  obtain ⟨hfresh, hs⟩ := hs
  cases op with
  | «open» vma a pve => exact h.openArea hs hfresh
  | close vma => exact h.closeArea hs
  | mremap old new a pve pve' cpu => exact hfresh.elim
  | fault vma i f =>
    obtain ⟨-, -, st, hst, rfl⟩ := fault_inv hs
    obtain ⟨hv, hi, hr⟩ := fault_counts hst
    exact h.fewer hv hi hr
  | purge qid =>
    obtain rfl := Except.ok.inj hs
    have hf := fewerSlots_tryPurgePagesFast e s.st qid
    exact h.fewer hf.vmas hf.infos hf.refcount

lemma counted_run {w : World C} {ops : List (AreaOp C)} (hr : Run (StepsFresh e) (init e w) ops s) :
    s.Counted :=
  hr.invariant (fun _ _ _ h hs => h.step hs) (counted_init e w)

/-- Every allocated entry counts the open areas attached to it, and an entry is allocated exactly
as long as there are some. -/
theorem refcounts_exact (e : Env C) (w : World C) (ops : List (AreaOp C)) (s : Mm C)
    (hr : Run (StepsFresh e) (init e w) ops s) (x : PveId) :
    (s.slab x = true ↔ 0 < s.attached x) ∧
      (s.slab x = true → (s.st.pves x).refcount = s.attached x) :=
  (counted_run hr).exact x

instance (s : Mm C) (op : AreaOp C) : Decidable (s.Fresh op) := by
  cases op <;> simp only [Fresh] <;> infer_instance

/-- The state after a sequence of calls, if all of them complete. -/
def execAll (e : Env C) (s : Mm C) (ops : List (AreaOp C)) : Option (Mm C) :=
  ops.foldlM (fun s op => (s.exec e op).toOption) s

lemma run_execAll {ops : List (AreaOp C)} (h : execAll e s ops = some s') :
    Run (Completes e) s ops s' :=
  Run.of_foldlM (fun _ _ _ hs => Except.toOption_eq_some.mp hs) h

/-- The same, as long as the entries are fresh. -/
def execFresh (e : Env C) (s : Mm C) (ops : List (AreaOp C)) : Option (Mm C) :=
  ops.foldlM (fun s op => if s.Fresh op then (s.exec e op).toOption else none) s

lemma run_execFresh {ops : List (AreaOp C)} (h : execFresh e s ops = some s') :
    Run (StepsFresh e) s ops s' := by
  refine Run.of_foldlM (fun s op s' hs => ?_) h
  split_ifs at hs with hf
  exact ⟨hf, Except.toOption_eq_some.mp hs⟩

/-- The whole of the first file, mapped through descriptor 0. -/
def wholeFile : VmArea := ⟨0, 8 * pageSize, 0, 0⟩

/-- The slot that a fault takes first. -/
def lastSlot : Fin maxRmapsPerPage := ⟨2, by decide⟩

set_option maxRecDepth 4000 in
/-- Two areas of one descriptor, of which one is closed. -/
theorem refcounts_exact_shared :
    ∃ s, Run (StepsFresh smallEnv) (init smallEnv smallWorld)
        [.open 0 wholeFile 0, .open 1 wholeFile 1, .fault 0 0 smallFault, .close 0] s ∧
      (s.st.pves 0).refcount = 1 ∧ s.attached 0 = 1 ∧
      (s.slab 0 = true → (s.st.pves 0).refcount = s.attached 0) := by
  have h : ((execFresh smallEnv (init smallEnv smallWorld)
      [.open 0 wholeFile 0, .open 1 wholeFile 1, .fault 0 0 smallFault, .close 0]).map fun s =>
        ((s.st.pves 0).refcount, s.attached 0)) = some (1, 1) := by decide +kernel
  obtain ⟨s, hs, hp⟩ := Option.map_eq_some_iff.mp h
  obtain ⟨hr, ha⟩ := Prod.mk.inj hp
  exact ⟨s, run_execFresh hs, hr, ha, (refcounts_exact _ _ _ s (run_execFresh hs) 0).2⟩

/-- The entry of a closed area is handed out again, with the count zero. -/
theorem refcount_zero_on_reuse :
    ¬ ∀ (e : Env ℕ) (w : World ℕ) (ops : List (AreaOp ℕ)) (s : Mm ℕ),
      Run (Completes e) (init e w) ops s → ∀ x, (s.slab x = true ↔ 0 < s.attached x) ∧
        (s.slab x = true → (s.st.pves x).refcount = s.attached x) := by
  intro hall
  have h : ((execAll smallEnv (init smallEnv smallWorld)
      [.open 0 wholeFile 0, .close 0, .open 0 wholeFile 0]).map fun s =>
        (s.slab 0, (s.st.pves 0).refcount, s.attached 0)) = some (true, 0, 1) := by decide +kernel
  obtain ⟨s, hs, hp⟩ := Option.map_eq_some_iff.mp h
  simp only [Prod.mk.injEq] at hp
  obtain ⟨hslab, hr, ha⟩ := hp
  have hcount := (hall smallEnv smallWorld _ s (run_execAll hs) 0).2 hslab
  rw [hr, ha] at hcount
  exact absurd hcount (by decide)

/-! ### No slot outlives its area -/

/-- The slots of the open areas are listed in their entries. -/
structure Mapped (e : Env C) (s : Mm C) : Prop where
  counted : s.Counted
  listed : s.st.Listed e (· ∈ s.areas)

lemma mapped_init (e : Env C) (w : World C) : (init e w).Mapped e where
  counted := counted_init e w
  listed _ _ hu := absurd hu Bool.false_ne_true

/-- The areas that were open keep their entry. -/
lemma Mapped.openArea (h : s.Mapped e) {a : VmArea} {pve : PveId}
    (hs : s.openArea vma a pve = .ok s') (hnew : s.Fresh (.open vma a pve)) : s'.Mapped e := by
  refine ⟨h.counted.openArea hs hnew, ?_⟩
  have hkeep : Opened s vma a s' ∧ ∀ v ∈ s.areas,
      s'.st.infos (s.st.vmas v).info = s.st.infos (s.st.vmas v).info := by
    cases hf : (s.st.infos a.info).isFastmap with
    | true =>
      obtain ⟨x, hx, -⟩ := h.counted.entry hf
      obtain ⟨ho, hi, -⟩ := openArea_shared hs hf hx
      exact ⟨ho, fun v _ => by rw [hi]⟩
    | false =>
      obtain ⟨ho, -, hi, -⟩ := openArea_fresh hs hf
      refine ⟨ho, fun v hv => ?_⟩
      have hne : (s.st.vmas v).info ≠ a.info := by
        intro heq
        have hfm := h.counted.area hv
        rw [heq, hf] at hfm
        exact Bool.false_ne_true hfm
      rw [hi, Function.update_of_ne hne]
  obtain ⟨ho, hkeep⟩ := hkeep
  refine (h.listed.congr ho.pages ho.lists fun v hv => ?_).restrict fun p j _ _ hm => ?_
  · have hne : v ≠ vma := by
      rintro rfl
      exact ho.new hv
    rw [ho.vmas, Function.update_of_ne hne, hkeep v hv]
  · rw [ho.areas]
    exact List.mem_cons_of_mem vma hm

/-- The slots of the area that is closed are released with the entry, unless it has none. -/
lemma Mapped.closeArea (h : s.Mapped e) (hs : s.closeArea e vma = .ok s')
    (hno : s.Unmapped (.close vma)) : s'.Mapped e := by
  refine ⟨h.counted.closeArea hs, ?_⟩
  obtain ⟨x, hc, hcase⟩ := closeArea_inv hs
  have hdrop : (s.dropped vma x).Listed e (· ∈ s.areas) :=
    h.listed.congr rfl (dropped_lists s vma x) fun _ _ => rfl
  rcases hcase with ⟨-, -, hi, hp, hx⟩ | ⟨hone, -, hst⟩
  · have hf := fewerSlots_pveRelease e (s.dropped vma x) x
    have hrel := hdrop.fewer hf
    -- only the flag of the descriptor is changed after the release
    have hpve : ∀ v, (s'.st.infos (s'.st.vmas v).info).pve =
        (((s.dropped vma x).pveRelease e x).infos
          (((s.dropped vma x).pveRelease e x).vmas v).info).pve := by
      intro v
      rw [hc.vmas, hf.vmas, hf.infos, hi]
      change _ = (s.st.infos (s.st.vmas v).info).pve
      by_cases hv : (s.st.vmas v).info = (s.st.vmas vma).info
      · rw [hv, Function.update_self]
      · rw [Function.update_of_ne hv]
    refine (hrel.congr hp (fun y => by rw [hx]) fun v _ => hpve v).restrict fun p j hu hv hm => ?_
    rw [hc.areas, List.mem_erase_of_ne]
    · exact hm
    · intro heq
      rw [hp] at hu hv heq
      -- a slot of the area would have been on a list of the entry
      obtain ⟨-, hr, -⟩ := hf.slot hu hv
      obtain ⟨hu', hv'⟩ : ((s.dropped vma x).pages p).inUse = true ∧
          (((s.dropped vma x).pages p).rmap j).valid = true := ⟨(hf.slot hu hv).1, hr ▸ hv⟩
      obtain ⟨-, y, cpu, hcpu, hy, hmem⟩ := hdrop p j hu' hv'
      rw [← hr, heq] at hy
      obtain rfl : x = y := Option.some.inj (hc.entry.symm.trans hy)
      exact not_mem_of_pveRelease hu hv hcpu hmem
  · rw [hst]
    refine hdrop.restrict fun p j hu hv hm => ?_
    rw [hc.areas, List.mem_erase_of_ne]
    · exact hm
    · refine hno ?_ p j hu hv
      obtain ⟨y, hy, -, hr, hpos⟩ := h.counted.entry (h.counted.area hc.mem)
      obtain rfl : x = y := Option.some.inj (hc.entry.symm.trans hy)
      omega

lemma Mapped.step (h : s.Mapped e) (hs : StepsUnmapped e s op s') : s'.Mapped e := by
  obtain ⟨hno, hfs⟩ := hs
  refine ⟨h.counted.step hfs, ?_⟩
  obtain ⟨hfresh, hs⟩ := hfs
  cases op with
  | «open» vma a pve => exact (h.openArea hs hfresh).listed
  | close vma => exact (h.closeArea hs hno).listed
  | mremap old new a pve pve' cpu => exact hfresh.elim
  | fault vma i f =>
    obtain ⟨hm, hcpu, st, hst, rfl⟩ := fault_inv hs
    exact h.listed.fault hm hcpu hst
  | purge qid =>
    obtain rfl := Except.ok.inj hs
    exact h.listed.fewer (fewerSlots_tryPurgePagesFast e s.st qid)

/-- Every valid slot of a page in use belongs to an area that is open. -/
theorem rmap_of_open_area (e : Env C) (w : World C) (ops : List (AreaOp C)) (s : Mm C)
    (hr : Run (StepsUnmapped e) (init e w) ops s) (p : PageId) (j : Fin maxRmapsPerPage)
    (hu : (s.st.pages p).inUse = true) (hv : ((s.st.pages p).rmap j).valid = true) :
    ((s.st.pages p).rmap j).vma ∈ s.areas := by
  have h : s.Mapped e := hr.invariant (fun _ _ _ h hs => h.step hs) (mapped_init e w)
  exact (h.listed p j hu hv).1

/-- An area with a mapped page that is the last one of its descriptor. -/
theorem rmap_of_open_area_closed :
    ∃ s, Run (StepsUnmapped smallEnv) (init smallEnv smallWorld)
        ([.open 0 wholeFile 0, .fault 0 0 smallFault] ++ [.close 0]) s ∧
      ((s.st.pages 0).rmap lastSlot).valid = false ∧
      ∀ p j, (s.st.pages p).inUse = true → ((s.st.pages p).rmap j).valid = true →
        ((s.st.pages p).rmap j).vma ∈ s.areas := by
  have h : ((execFresh smallEnv (init smallEnv smallWorld)
      [.open 0 wholeFile 0, .fault 0 0 smallFault]).bind fun s =>
        (s.exec smallEnv (.close 0)).toOption.map fun s' =>
          (s.users (s.st.vmas 0).info, ((s'.st.pages 0).rmap lastSlot).valid)) =
            some (1, false) := by
    decide +kernel
  obtain ⟨s, hs, hp⟩ := Option.bind_eq_some_iff.mp h
  obtain ⟨s', hs', hp⟩ := Option.map_eq_some_iff.mp hp
  obtain ⟨hone, hvalid⟩ := Prod.mk.inj hp
  have hr : Run (StepsUnmapped smallEnv) (init smallEnv smallWorld)
      [.open 0 wholeFile 0, .fault 0 0 smallFault] s := by
    refine Run.mono_of_mem (fun s op s' hop hs => ⟨?_, hs⟩) (run_execFresh hs)
    simp only [List.mem_cons, List.not_mem_nil, or_false] at hop
    rcases hop with rfl | rfl <;> exact trivial
  have hclose : StepsUnmapped smallEnv s (.close 0) s' := by
    refine ⟨fun hlt => ?_, trivial, Except.toOption_eq_some.mp hs'⟩
    rw [hone] at hlt
    exact absurd hlt (lt_irrefl 1)
  exact ⟨s', hr.snoc hclose, hvalid, fun p j => rmap_of_open_area _ _ _ s' (hr.snoc hclose) p j⟩

/-- An area that maps a page is closed before another area of its descriptor. -/
theorem rmap_of_closed_area :
    ¬ ∀ (e : Env ℕ) (w : World ℕ) (ops : List (AreaOp ℕ)) (s : Mm ℕ),
      Run (Completes e) (init e w) ops s → ∀ p j, (s.st.pages p).inUse = true →
        ((s.st.pages p).rmap j).valid = true → ((s.st.pages p).rmap j).vma ∈ s.areas := by
  intro hall
  have h : ((execAll smallEnv (init smallEnv smallWorld)
      [.open 0 wholeFile 0, .open 1 wholeFile 1, .fault 0 0 smallFault, .close 0]).map fun s =>
        (s.areas, (s.st.pages 0).inUse, (s.st.pages 0).rmap lastSlot)) =
      some ([1], true, ⟨true, 0, 0, 0⟩) := by decide +kernel
  obtain ⟨s, hs, hp⟩ := Option.map_eq_some_iff.mp h
  simp only [Prod.mk.injEq] at hp
  obtain ⟨hareas, hu, hslot⟩ := hp
  have hmem := hall smallEnv smallWorld _ s (run_execAll hs) 0 lastSlot hu (by rw [hslot])
  rw [hareas, hslot] at hmem
  exact absurd hmem (by decide)

end Mm

end FastMap
