import FastMap.Tables
import FastMap.WriterSteps

/-!
# Page tables under interleaving

An entry maps a page only while a slot of the page records it, and a slot belongs to an area of
the page's file. All threads keep this: a fault fills the slot before the entry, and reclaim
removes the entries that the slots record before it frees the page. So a write fault starts with
a page of the file and the block that it is for.
-/

namespace FastMap

variable {C : Type*}

/-- The page tables and the slots of a page agree. -/
structure PageView.Charted (A : Areas) (x : PageView C) : Prop where
  entry {a : VmaId × ℕ} {w : Bool} : x.pte a = some w → x.page.inUse = true ∧ x.page.covers a
  slot {j : Fin maxRmapsPerPage} : x.page.inUse = true → (x.page.rmap j).valid = true →
    A.Has x.page (x.page.rmap j).vma (x.page.rmap j).vaddr

namespace PageView

variable {A : Areas} {x y : PageView C}

lemma Tracked.charted (h : x.Tracked A) : x.Charted A :=
  ⟨fun ha => ⟨(h.entry ha).1, (h.entry ha).2.1⟩, h.slot⟩

lemma Charted.has (h : x.Charted A) {a : VmaId × ℕ} {w : Bool} (ha : x.pte a = some w) :
    A.Has x.page a.1 a.2 := by
  obtain ⟨hu, j, hv, rfl⟩ := h.entry ha
  exact h.slot hu hv

/-- Entries can lose their permission or vanish. -/
lemma Charted.of_pte (h : x.Charted A) (hu : y.page.inUse = x.page.inUse)
    (hv : y.page.pvd = x.page.pvd) (hi : y.page.index = x.page.index)
    (hr : y.page.rmap = x.page.rmap) (hp : ∀ a w, y.pte a = some w → ∃ w', x.pte a = some w') :
    y.Charted A where
  entry ha := by
    obtain ⟨w', hw'⟩ := hp _ _ ha
    obtain ⟨hu', j, hj⟩ := h.entry hw'
    exact ⟨hu ▸ hu', j, by rw [hr]; exact hj⟩
  slot hu' hj := by
    rw [hr] at hj ⊢
    have := h.slot (hu ▸ hu') hj
    exact ⟨this.live, hv.trans this.pvd, by rw [hi]; exact this.place⟩

/-- A page that is not in use, and that nothing maps. -/
lemma charted_of_unmapped (hu : x.page.inUse = false) (hp : ∀ a, x.pte a = none) :
    x.Charted A where
  entry ha := by simp [hp] at ha
  slot h := absurd (hu.symm.trans h) Bool.false_ne_true

lemma Charted.pte_eq_none (h : x.Charted A)
    (hn : x.page.inUse = false ∨ ∀ j, (x.page.rmap j).valid = false) (a : VmaId × ℕ) :
    x.pte a = none := by
  rw [Option.eq_none_iff_forall_ne_some]
  intro w hw
  obtain ⟨hu, j, hj, -⟩ := h.entry hw
  rcases hn with hn | hn
  · exact Bool.false_ne_true (hn.symm.trans hu)
  · exact Bool.false_ne_true ((hn j).symm.trans hj)

/-- A page that has just been allocated is not mapped. -/
lemma Charted.allocated (h : x.Charted A) (hu : x.page.inUse = false) (cpu : ℕ) (offset : Pgoff)
    (v : PvdId) : (x.allocated cpu offset v).Charted A where
  entry ha := by
    rw [show (x.allocated cpu offset v).pte = x.pte from rfl, h.pte_eq_none (Or.inl hu)] at ha
    exact absurd ha (by simp)
  slot _ hj := absurd hj Bool.false_ne_true

lemma Charted.freed (h : x.Charted A) (hr : ∀ j, (x.page.rmap j).valid = false) :
    x.freed.Charted A :=
  charted_of_unmapped rfl fun a => h.pte_eq_none (Or.inr hr) a

/-- `remove_mappings` -/
lemma Charted.unmapped (h : x.Charted A) : x.unmapped.Charted A := by
  rw [unmapped_eq]
  refine ⟨fun {a w} ha => ?_, fun _ hj => absurd hj Bool.false_ne_true⟩
  have ha : x.unmapped.pte a = some w := ha
  rw [unmapped_pte] at ha
  split_ifs at ha with hc
  exact absurd (h.entry ha).2 hc

/-- `clear_mappings` -/
lemma Charted.wrprotected (h : x.Charted A) : x.wrprotected.Charted A := by
  rw [wrprotected_eq]
  refine h.of_pte rfl rfl rfl rfl fun a w ha => ?_
  have ha : x.wrprotected.pte a = some w := ha
  rw [wrprotected_pte] at ha
  split_ifs at ha
  · obtain ⟨w', hw', -⟩ := Option.map_eq_some_iff.mp ha
    exact ⟨w', hw'⟩
  · exact ⟨w, ha⟩

/-- A new slot for the area of a fault. -/
lemma Charted.addSlot (h : x.Charted A) {i : Fin maxRmapsPerPage}
    (hi : (x.page.rmap i).valid = false)
    {vma : VmaId} {a cpu : ℕ} (ha : A.Has x.page vma a) :
    PageView.Charted A { x with
      page := { x.page with rmap := Function.update x.page.rmap i ⟨true, vma, a, cpu⟩ } } where
  entry hb := by
    obtain ⟨hu, j, hj, hcov⟩ := h.entry hb
    have hji : j ≠ i := by
      rintro rfl
      exact Bool.false_ne_true (hi.symm.trans hj)
    exact ⟨hu, j, by simpa [hji] using hj, by simpa [hji] using hcov⟩
  slot {j} hu hj := by
    by_cases hji : j = i
    · subst hji
      simp only [Function.update_self]
      exact ⟨ha.live, ha.pvd, ha.place⟩
    · simp only [Function.update_of_ne hji] at hj ⊢
      have := h.slot hu hj
      exact ⟨this.live, this.pvd, this.place⟩

/-- A new entry where a slot is. -/
lemma Charted.addEntry (h : x.Charted A) (hu : x.page.inUse = true) {a : VmaId × ℕ}
    (ha : x.page.covers a) (w : Bool) :
    PageView.Charted A { x with pte := Function.update x.pte a (some w) } where
  entry {b w'} hb := by
    by_cases hba : b = a
    · subst hba
      exact ⟨hu, ha⟩
    · exact h.entry (by simpa [hba] using hb)
  slot hu hj := h.slot hu hj

end PageView

namespace State

variable {e : Env C} {s s' : State C} {p : PageId}

/-- All areas of a state, mapped or not. -/
def areas (s : State C) : Areas := ⟨fun _ => True, s.vmas, s.vmaPvd⟩

/-- The page tables and the slots, and the areas they are about. -/
structure Chart where
  inUse : PageId → Bool
  pvd : PageId → Option PvdId
  index : PageId → Pgoff
  rmap : PageId → Fin maxRmapsPerPage → PrVmaRmap
  pte : VmaId × ℕ → Pte
  vmas : VmaId → VmArea
  infos : InfoId → FastmapInfo

def chart (s : State C) : Chart where
  inUse p := (s.pages p).inUse
  pvd p := (s.pages p).pvd
  index p := (s.pages p).index
  rmap p := (s.pages p).rmap
  pte := s.pte
  vmas := s.vmas
  infos := s.infos

lemma chart_of_update {t : TaggedPage C} (hp : s'.pages = Function.update s.pages p t)
    (hm : s'.pte = s.pte) (ha : s'.vmas = s.vmas) (hn : s'.infos = s.infos)
    (hu : t.inUse = (s.pages p).inUse) (hv : t.pvd = (s.pages p).pvd)
    (hi : t.index = (s.pages p).index) (hr : t.rmap = (s.pages p).rmap) :
    s'.chart = s.chart := by
  have hsame : ∀ {α : Type} (f : TaggedPage C → α), f t = f (s.pages p) →
      (fun q => f (s'.pages q)) = fun q => f (s.pages q) := by
    intro α f hf
    funext q
    by_cases hq : q = p
    · rw [hp, hq, Function.update_self, hf]
    · rw [hp, Function.update_of_ne hq]
  simp only [chart, hm, ha, hn, hsame _ hu, hsame _ hv, hsame _ hi, hsame _ hr]

@[simp] lemma chart_trylockTp (s : State C) (p : PageId) (i : Pgoff) :
    (s.trylockTp p i).2.chart = s.chart := by
  simp only [trylockTp]
  split_ifs
  · rfl
  · rfl
  · rfl
  · exact chart_of_update (p := p) rfl rfl rfl rfl rfl rfl rfl rfl

@[simp] lemma chart_unlockTp (s : State C) (p : PageId) : (s.unlockTp p).chart = s.chart :=
  chart_of_update (p := p) rfl rfl rfl rfl rfl rfl rfl rfl

@[simp] lemma chart_remove (s : State C) (q : Queue) (p : PageId) :
    (s.remove q p).chart = s.chart :=
  chart_of_update (p := p) rfl rfl rfl rfl rfl rfl rfl rfl

@[simp] lemma chart_enqueue (s : State C) (q : Queue) (p : PageId) :
    (s.enqueue q p).2.chart = s.chart := by
  simp only [enqueue]
  split_ifs
  · rfl
  · exact chart_of_update (p := p) rfl rfl rfl rfl rfl rfl rfl rfl

@[simp] lemma chart_setDirty (s : State C) (p : PageId) (b : Bool) :
    (s.setDirty p b).chart = s.chart :=
  chart_of_update (p := p) rfl rfl rfl rfl rfl rfl rfl rfl

@[simp] lemma chart_insertPage (s : State C) (p : PageId) (b : Bool) :
    (s.insertPage p b).chart = s.chart := by
  cases b <;> simp [insertPage]

@[simp] lemma chart_treeErase (s : State C) (t : TreeId) (i : Pgoff) :
    (s.treeErase t i).chart = s.chart := rfl

@[simp] lemma chart_treeInsert (s : State C) (k : TreeKind) (v : PvdId) (i : Pgoff) (p : PageId) :
    (s.treeInsert e k v i p).chart = s.chart := rfl

@[simp] lemma chart_removeFromDirtyTree (s : State C) (p : PageId) :
    (s.removeFromDirtyTree e p).chart = s.chart := by
  simp only [removeFromDirtyTree]
  split <;> rfl

@[simp] lemma chart_writePages (s : State C) (v : PvdId) (pgs : List PageId) :
    (s.writePages e v pgs).chart = s.chart := rfl

@[simp] lemma chart_dmapDoPageIo (s : State C) (v : PvdId) (i : Pgoff) (p : PageId)
    (r : ReadResult C) : (s.dmapDoPageIo v i p r).chart = s.chart := by
  have hread : ∀ d, (s.readPage d i p r).chart = s.chart := by
    intro d
    cases r <;> exact chart_of_update (p := p) rfl rfl rfl rfl rfl rfl rfl rfl
  have hfake : (s.readOrFake v i p r).chart = s.chart := by
    simp only [readOrFake]
    split
    · split_ifs
      · exact hread _
      · rfl
    · exact hread _
  simp only [dmapDoPageIo]
  refine Eq.trans (chart_of_update (p := p) rfl rfl rfl rfl rfl rfl rfl rfl) ?_
  split_ifs
  · rfl
  · exact hfake

lemma chart_dequeueIf (s : State C) (q : Queue) {cond : State C → PageId → Bool × State C}
    (hc : ∀ s p, (cond s p).2.chart = s.chart) : (s.dequeueIf q cond).2.chart = s.chart := by
  simp only [dequeueIf]
  split_ifs
  · rfl
  · split
    · rfl
    · rename_i p _ _
      have h := hc s p
      split
      · rename_i heq
        rw [heq] at h
        exact (chart_remove _ q p).trans h
      · rename_i heq
        rw [heq] at h
        exact h

lemma chart_evDeq (s : State C) (p : PageId) : (s.evDeq p).2.chart = s.chart := by
  simp [evDeq]

lemma chart_deq (s : State C) (p : PageId) : (s.deq p).2.chart = s.chart := by
  simp only [deq]
  split
  · rfl
  · split_ifs
    · rfl
    · exact chart_trylockTp s p ulongMax

lemma chart_removeIf (s : State C) (q : Queue) (p : PageId)
    {cond : State C → PageId → Bool × State C} (hc : ∀ s p, (cond s p).2.chart = s.chart) :
    (s.removeIf q p cond).2.chart = s.chart := by
  have h := hc s p
  simp only [removeIf]
  split
  · rename_i heq
    rw [heq] at h
    exact (chart_remove _ q p).trans h
  · rename_i heq
    rw [heq] at h
    exact h

lemma chart_pullOnce {v : PvdId} {cpu : ℕ} {h h' : MinHeap} {b : Option Bool}
    (hs : s.pullOnce v cpu h = .ok (b, s', h')) : s'.chart = s.chart := by
  simp only [pullOnce] at hs
  split at hs
  · obtain ⟨-, rfl, -⟩ : _ ∧ s = s' ∧ _ := by simpa using hs
    rfl
  · rename_i k p _
    have ht := chart_trylockTp s p ulongMax
    split at hs
    · rename_i s₁ heq
      rw [heq] at ht
      split at hs
      · exact absurd hs (by simp)
      · obtain ⟨-, rfl, -⟩ : _ ∧ _ = s' ∧ _ := by simpa using hs
        exact ht
    · rename_i s₁ heq
      rw [heq] at ht
      obtain ⟨-, rfl, -⟩ : _ ∧ _ = s' ∧ _ := by simpa using hs
      exact ht

lemma areas_congr (hv : s'.vmas = s.vmas) (hn : s'.infos = s.infos) :
    s'.areas = s.areas := by
  have hpvd : s'.vmaPvd = s.vmaPvd := by
    funext vma
    simp only [vmaPvd, hv, hn]
  simp only [areas, hv, hpvd]

lemma areas_of_outside (h : s'.outside = s.outside) : s'.areas = s.areas :=
  areas_congr (congrArg Outside.vmas h) (congrArg Outside.infos h)

lemma areas_of_chart (h : s'.chart = s.chart) : s'.areas = s.areas :=
  areas_congr (congrArg Chart.vmas h) (congrArg Chart.infos h)

lemma rmap_of_chart (h : s'.chart = s.chart) (p : PageId) :
    (s'.pages p).rmap = (s.pages p).rmap :=
  congrFun (congrArg Chart.rmap h) p

lemma charted_of_chart (h : s'.chart = s.chart) {A : Areas} (hp : (s.view e p).Charted A) :
    (s'.view e p).Charted A := by
  refine hp.of_pte (congrFun (congrArg Chart.inUse h) p) (congrFun (congrArg Chart.pvd h) p)
    (congrFun (congrArg Chart.index h) p) (rmap_of_chart h p) fun a w ha => ⟨w, ?_⟩
  have hpte : s'.pte = s.pte := congrArg Chart.pte h
  rw [show (s.view e p).pte = s.mapping p from rfl, mapping_eq_some, ← hpte]
  exact mapping_eq_some.mp ha

end State

/-! ### What a thread knows about the page tables -/

/-- The pages that have no slots: new ones, and those that reclaim has unmapped. -/
def Pc.bare : Pc → List PageId
  | .get _ (.fresh p) => [p]
  | .get _ (.insert p) => [p]
  | .get _ (.rollback p) => [p]
  | .purge _ (.take _ _ pgs) => pgs
  | .purge _ (.delete _ _ pgs _) => pgs
  | .purge _ (.unmap _ _ pgs _) => pgs
  | .purge _ (.free pgs) => pgs
  | _ => []

/-- The fault that a thread serves. -/
def Pc.req : Pc → Option Req
  | .get r _ => some r
  | .mkwrite r _ _ => some r
  | .purge ret _ => ret
  | _ => none

/-- The page that a fault has a slot of and is about to map. -/
def Pc.ready : Pc → Option (Req × PageId)
  | .get r (.map p) => some (r, p)
  | _ => none

/-- The fault is for a page of an area. -/
structure Areas.Asks (A : Areas) (r : Req) : Prop where
  live : A.live r.vmf.vma
  pvd : A.pvd r.vmf.vma = some r.pvd
  place : ∃ i, r.vmf.address = (A.area r.vmf.vma).addr i ∧
    r.vmf.pgoff = (A.area r.vmf.vma).vmPgoff + i

lemma Areas.Asks.has {A : Areas} {r : Req} (h : A.Asks r) {t : TaggedPage C}
    (hv : t.pvd = some r.pvd) (hi : t.index = r.vmf.pgoff) : A.Has t r.vmf.vma r.vmf.address := by
  obtain ⟨i, ha, hp⟩ := h.place
  exact ⟨h.live, hv.trans h.pvd.symm, i, ha, hi.trans hp⟩

namespace Machine

open State

structure Charts (e : Env C) (m : Machine C) : Prop where
  page (p : PageId) : (m.st.view e p).Charted m.st.areas
  bare {t : Tid} {p : PageId} : p ∈ (m.pc t).bare → ∀ j, ((m.st.pages p).rmap j).valid = false
  ready {t : Tid} {r : Req} {p : PageId} : (m.pc t).ready = some (r, p) →
    (m.st.pages p).covers (r.vmf.vma, r.vmf.address)
  req {t : Tid} {r : Req} : (m.pc t).req = some r → m.st.areas.Asks r

variable {e : Env C} {m : Machine C} {s' : State C} {t : Tid} {pc pc' : Pc}
  {log : List (BlockWrite C)} {p q : PageId} {w : PageView C} {c : Choice C} {r : Req}

lemma charts_quiescent {s : State C} (h : ∀ p, (s.view e p).Charted s.areas) :
    Charts e (quiescent s) where
  page := h
  bare hp := by simp [quiescent, Pc.bare] at hp
  ready hr := by simp [quiescent, Pc.ready] at hr
  req hr := by simp [quiescent, Pc.req] at hr

lemma holds_of_bare {pc : Pc} (h : p ∈ pc.bare) : pc.Holds p := by
  unfold Pc.bare at h
  split at h <;> simp_all [Pc.Holds, Pc.locks, Pc.fresh]

lemma holds_of_ready {pc : Pc} (h : pc.ready = some (r, p)) : pc.Holds p := by
  unfold Pc.ready at h
  split at h
  · obtain ⟨rfl, rfl⟩ := Prod.mk.inj (Option.some.inj h)
    exact Or.inl (by simp [Pc.locks])
  · exact absurd h (by simp)

/-- A step that the page tables do not notice. -/
lemma Charts.same (h : Charts e m) (hpc : m.pc t = pc) (hc : s'.chart = m.st.chart)
    (hbare : ∀ p ∈ pc'.bare, p ∈ pc.bare) (hready : pc'.ready = none)
    (hreq : ∀ r, pc'.req = some r → pc.req = some r) : Charts e (m.put t s' pc' log) := by
  subst hpc
  have hareas : s'.areas = m.st.areas := areas_of_chart hc
  refine ⟨fun p => ?_, fun {u p} hp j => ?_, fun {u r p} hr => ?_, fun {u r} hr => ?_⟩
  · rw [put_st, hareas]
    exact charted_of_chart hc (h.page p)
  · rw [put_st, rmap_of_chart hc p]
    by_cases hu : u = t
    · subst hu
      rw [put_pc_self] at hp
      exact h.bare (hbare p hp) j
    · rw [put_pc_of_ne hu] at hp
      exact h.bare hp j
  · have hu : u ≠ t := by
      rintro rfl
      simp [hready] at hr
    rw [put_pc_of_ne hu] at hr
    simp only [TaggedPage.covers, put_st, rmap_of_chart hc p]
    exact h.ready hr
  · rw [put_st, hareas]
    by_cases hu : u = t
    · subst hu
      rw [put_pc_self] at hr
      exact h.req (hreq r hr)
    · rw [put_pc_of_ne hu] at hr
      exact h.req hr

/-- Such a step to a point where the thread is not about to map a page. -/
lemma Charts.same_apart (h : Charts e m) (hpc : m.pc t = pc) (hc : s'.chart = m.st.chart)
    (hbare : pc'.bare = []) (hready : pc'.ready = none) (hreq : pc'.req = none) :
    Charts e (m.put t s' pc' log) := by
  apply h.same hpc hc _ hready
  · intro r hr
    rw [hreq] at hr
    exact absurd hr (by simp)
  · intro p hp
    rw [hbare] at hp
    exact absurd hp List.not_mem_nil

/-- A step on the slots and the entries of pages that nobody else holds. Free pages may have been
taken off their lists. -/
lemma Charts.act (h : Charts e m) (hi : Inv e m) (hpc : m.pc t = pc) (P : PageId → Prop)
    (hother : ∀ q, ¬ P q → s'.view e q = m.st.view e q ∨
      Idle (m.st.view e q) ∧ Recycled e q (m.st.view e q) (s'.view e q))
    (hareas : s'.areas = m.st.areas) (hno : ∀ q, P q → ∀ u, u ≠ t → ¬ (m.pc u).Holds q)
    (hw : ∀ q, P q → (s'.view e q).Charted m.st.areas)
    (hbare : ∀ q ∈ pc'.bare, ¬ P q ∧ q ∈ pc.bare ∨ ∀ j, ((s'.pages q).rmap j).valid = false)
    (hready : ∀ r q, pc'.ready = some (r, q) →
      (s'.pages q).covers (r.vmf.vma, r.vmf.address))
    (hreq : ∀ r, pc'.req = some r → pc.req = some r) : Charts e (m.put t s' pc' log) := by
  subst hpc
  -- pages in use are not among those that were lost
  have hsame : ∀ {u q}, ¬ P q → (m.pc u).Holds q → s'.pages q = m.st.pages q := by
    intro u q hq hu
    rcases hother q hq with hv | ⟨hidle, -⟩
    · exact congrArg PageView.page hv
    · exact absurd (hidle.inUse.symm.trans (hi.inUse_of_holds hu)) (by simp)
  refine ⟨fun q => ?_, fun {u q} hq j => ?_, fun {u r q} hr => ?_, fun {u r} hr => ?_⟩
  · rw [put_st, hareas]
    by_cases hq : P q
    · exact hw q hq
    · rcases hother q hq with hv | ⟨hidle, hr⟩
      · rw [hv]
        exact h.page q
      · refine PageView.charted_of_unmapped hr.idle.inUse fun a => ?_
        rw [Option.eq_none_iff_forall_ne_some]
        intro b hb
        have := (h.page q).pte_eq_none (Or.inl hidle.inUse) a
        rw [(hr.pte hb).1] at this
        exact absurd this (by simp)
  · rw [put_st]
    by_cases hu : u = t
    · subst hu
      rw [put_pc_self] at hq
      rcases hbare q hq with ⟨hP, hold⟩ | hv
      · rw [hsame hP (holds_of_bare hold)]
        exact h.bare hold j
      · exact hv j
    · rw [put_pc_of_ne hu] at hq
      have hh := holds_of_bare hq
      rw [hsame (fun hP => hno q hP u hu hh) hh]
      exact h.bare hq j
  · rw [put_st]
    by_cases hu : u = t
    · subst hu
      rw [put_pc_self] at hr
      exact hready r q hr
    · rw [put_pc_of_ne hu] at hr
      have hh := holds_of_ready hr
      rw [hsame (fun hP => hno q hP u hu hh) hh]
      exact h.ready hr
  · rw [put_st, hareas]
    by_cases hu : u = t
    · subst hu
      rw [put_pc_self] at hr
      exact h.req (hreq r hr)
    · rw [put_pc_of_ne hu] at hr
      exact h.req hr

/-- A step on one page that the thread holds. -/
lemma Charts.own (h : Charts e m) (hi : Inv e m) (hpc : m.pc t = pc) (hm : Moves e m.st s' p w)
    (hareas : s'.areas = m.st.areas) (hp : pc.Holds p)
    (hw : (m.st.view e p).Charted m.st.areas → w.Charted m.st.areas)
    (hbare : ∀ q ∈ pc'.bare, q ≠ p ∧ q ∈ pc.bare ∨ q = p ∧ ∀ j, (w.page.rmap j).valid = false)
    (hready : ∀ r q, pc'.ready = some (r, q) → q = p ∧ w.page.covers (r.vmf.vma, r.vmf.address))
    (hreq : ∀ r, pc'.req = some r → pc.req = some r) : Charts e (m.put t s' pc' log) := by
  have hh : (m.pc t).Holds p := by rw [hpc]; exact hp
  refine h.act hi hpc (· = p) (fun q hq => Or.inl (hm.view_of_ne hq)) hareas ?_ ?_ ?_ ?_ hreq
  · rintro q rfl u hu
    exact hi.others hh u hu
  · rintro q rfl
    rw [hm.view_self]
    exact hw (h.page q)
  · intro q hq
    rcases hbare q hq with hold | ⟨rfl, hv⟩
    · exact Or.inl hold
    · right
      rw [hm.pages_self]
      exact hv
  · intro r q hr
    obtain ⟨rfl, hcov⟩ := hready r q hr
    rw [hm.pages_self]
    exact hcov

/-! ### Every step -/

/-- The page that a fault takes off a free list has no slots and no entries. -/
lemma Charts.stepGet_alloc (h : Charts e m) (hi : Inv e m) (hpc : m.pc t = .get r .alloc)
    (hs : m.st.stepGet e c r .alloc = .ok (s', pc')) : Charts e (m.put t s' pc' log) := by
  have hout := outside_allocPageLock e m.st c.node r.vmf.pgoff r.pvd
  simp only [State.stepGet] at hs
  rcases hi.placed.allocPageLock_idle (fun q hf => (hi.idle_of_free hf).1) c.node r.vmf.pgoff
    r.pvd with ⟨s₁, hs₁, -, hv⟩ | ⟨p, s₁, hs₁, hf, hr⟩
  · rw [hs₁] at hs hout
    obtain ⟨rfl, rfl⟩ := Prod.mk.inj (Except.ok.inj hs)
    exact h.act hi hpc (fun _ => False) (fun q _ => hv q) (areas_of_outside hout)
      (fun _ hP => hP.elim) (fun _ hP => hP.elim) (by simp [Pc.bare]) (by simp [Pc.ready])
      fun _ hr => hr
  · rw [hs₁] at hs hout
    obtain ⟨rfl, rfl⟩ := Prod.mk.inj (Except.ok.inj hs)
    have hpage : s₁.pages p = _ := congrArg PageView.page hr.view_self
    refine h.act hi hpc (· = p) (fun q hq => hr.other hq) (areas_of_outside hout) ?_ ?_ ?_
      (by simp [Pc.ready]) fun _ hr => hr
    · rintro q rfl u -
      exact hi.unheld_of_free hf u
    · rintro q rfl
      rw [hr.view_self]
      exact (h.page q).allocated (hi.idle_of_free hf).1.inUse _ _ _
    · intro q hq
      obtain rfl : q = p := by simpa [Pc.bare] using hq
      right
      intro j
      rw [hpage]
      rfl

/-- The slot that a fault writes records the entry that it is about to make. -/
lemma Charts.stepGet_done (h : Charts e m) (hi : Inv e m) (hpc : m.pc t = .get r (.done p))
    (hs : m.st.stepGet e c r (.done p) = .ok (s', pc')) : Charts e (m.put t s' pc' log) := by
  have hp : (Pc.get r (.done p)).Holds p := Or.inl (by simp [Pc.locks])
  have hh : (m.pc t).Holds p := by rw [hpc]; exact hp
  obtain ⟨-, hk⟩ := (hi.page p).held hh
  rw [hpc] at hk
  -- the page is the one that the area has at the address of the fault
  have hhas : m.st.areas.Has (m.st.pages p) r.vmf.vma r.vmf.address :=
    (h.req (t := t) (by rw [hpc]; rfl)).has hk.1 hk.2
  simp only [State.stepGet] at hs
  obtain ⟨s₁, hr, hs⟩ := Except.map_eq_ok.mp hs
  obtain ⟨rfl, rfl⟩ := Prod.mk.inj hs
  obtain ⟨hout, hcase⟩ := hi.placed.dmapAddOrUpdateRmap_cases hr
  rcases hcase with ⟨i, hv, hvma, rfl⟩ | ⟨i, hv, -, hm⟩
  · refine h.own hi hpc (hi.placed.moves_refl p) rfl hp id (by simp [Pc.bare]) ?_ fun _ hr => hr
    intro r' q hr'
    obtain ⟨rfl, rfl⟩ : r = r' ∧ p = q := by simpa [Pc.ready] using hr'
    refine ⟨rfl, i, hv, ?_⟩
    have hslot := (h.page p).slot (hi.inUse_of_holds hh) hv
    rw [show ((m.st.view e p).page.rmap i).vma = r.vmf.vma from hvma] at hslot
    rw [show ((m.st.view e p).page.rmap i).vma = r.vmf.vma from hvma, hslot.addr_unique hhas]
  · refine h.own hi hpc hm (areas_of_outside hout) hp (fun hc => hc.addSlot hv hhas)
      (by simp [Pc.bare]) ?_ fun _ hr => hr
    intro r' q hr'
    obtain ⟨rfl, rfl⟩ : r = r' ∧ p = q := by simpa [Pc.ready] using hr'
    exact ⟨rfl, i, by simp, by simp⟩

lemma Charts.stepGet (h : Charts e m) (hi : Inv e m) {x : GetPc} (hpc : m.pc t = .get r x)
    (hs : m.st.stepGet e c r x = .ok (s', pc')) : Charts e (m.put t s' pc' log) := by
  cases x with
  | lookup =>
    simp only [State.stepGet] at hs
    split at hs
    all_goals
      obtain ⟨rfl, rfl⟩ := Prod.mk.inj (Except.ok.inj hs)
      exact h.same hpc rfl (by simp [Pc.bare]) rfl fun _ hr => hr
  | alloc => exact h.stepGet_alloc hi hpc hs
  | fresh p =>
    obtain ⟨rfl, rfl⟩ := Prod.mk.inj (Except.ok.inj hs)
    exact h.same hpc (chart_trylockTp _ _ _) (fun _ hq => hq) rfl fun _ hr => hr
  | insert p =>
    simp only [State.stepGet, fmapRadixInsert] at hs
    split at hs
    · rename_i ht
      obtain ⟨-, rfl⟩ := Prod.mk.inj ht
      obtain ⟨rfl, rfl⟩ := Prod.mk.inj (Except.ok.inj hs)
      exact h.same hpc rfl (by simp [Pc.bare]) rfl fun _ hr => hr
    · rename_i ht
      obtain ⟨-, rfl⟩ := Prod.mk.inj ht
      obtain ⟨rfl, rfl⟩ := Prod.mk.inj (Except.ok.inj hs)
      exact h.same hpc rfl (fun _ hq => hq) rfl fun _ hr => hr
  | rollback p =>
    obtain ⟨rfl, rfl⟩ := Prod.mk.inj (Except.ok.inj hs)
    have hp : (Pc.get r (.rollback p)).Holds p := Or.inl (by simp [Pc.locks])
    have hat := ((hi.page p).held (t := t) (by rw [hpc]; exact hp)).1
    rw [hpc] at hat
    refine h.own hi hpc (hi.moves_free hat) (areas_of_outside (outside_freePageLock _ _)) hp
      (fun hc => hc.freed (h.bare (t := t) ?_)) (by simp [Pc.bare]) (by simp [Pc.ready])
      fun _ hr => hr
    rw [hpc]
    simp [Pc.bare]
  | enqueue p =>
    obtain ⟨rfl, rfl⟩ := Prod.mk.inj (Except.ok.inj hs)
    exact h.same hpc (chart_insertPage _ _ _) (by simp [Pc.bare]) rfl fun _ hr => hr
  | io p =>
    obtain ⟨rfl, rfl⟩ := Prod.mk.inj (Except.ok.inj hs)
    exact h.same hpc (chart_dmapDoPageIo _ _ _ _ _) (by simp [Pc.bare]) rfl fun _ hr => hr
  | lock p =>
    have hc := chart_trylockTp m.st p ulongMax
    simp only [State.stepGet] at hs
    split at hs
    all_goals
      rename_i heq
      rw [heq] at hc
      obtain ⟨rfl, rfl⟩ := Prod.mk.inj (Except.ok.inj hs)
      exact h.same hpc hc (by simp [Pc.bare]) rfl fun _ hr => hr
  | valid p =>
    simp only [State.stepGet] at hs
    split_ifs at hs
    obtain ⟨rfl, rfl⟩ := Prod.mk.inj (Except.ok.inj hs)
    exact h.same hpc rfl (by simp [Pc.bare]) rfl fun _ hr => hr
  | done p => exact h.stepGet_done hi hpc hs
  | map p =>
    obtain ⟨rfl, rfl⟩ := Prod.mk.inj (Except.ok.inj hs)
    have hp : (Pc.get r (.map p)).Holds p := Or.inl (by simp [Pc.locks])
    have hu := hi.inUse_of_holds (t := t) (by rw [hpc]; exact hp)
    have hcov := h.ready (t := t) (r := r) (p := p) (by rw [hpc]; rfl)
    obtain ⟨f, hf, hm⟩ := hi.placed.moves_finishFault r.vmf p
    refine h.own hi hpc hm ?_ hp (fun hc => ?_) (by simp [Pc.bare]) (by simp [Pc.ready])
      (by simp [Pc.req])
    · simp only [finishFault]
      split_ifs <;> rfl
    · rcases hf with rfl | rfl
      · exact hc.of_pte rfl rfl rfl rfl fun a w ha => ⟨w, ha⟩
      · exact (hc.addEntry hu hcov false).of_pte rfl rfl rfl rfl fun a w ha => ⟨w, ha⟩

lemma Charts.stepMkwrite (h : Charts e m) (hi : Inv e m) {x : MkPc}
    (hpc : m.pc t = .mkwrite r p x) (hs : m.st.stepMkwrite e r p x = .ok (s', pc')) :
    Charts e (m.put t s' pc' log) := by
  cases x with
  | lock =>
    have hc := chart_trylockTp m.st p r.vmf.pgoff
    simp only [State.stepMkwrite] at hs
    split at hs
    all_goals
      rename_i heq
      rw [heq] at hc
      obtain ⟨rfl, rfl⟩ := Prod.mk.inj (Except.ok.inj hs)
      exact h.same hpc hc (by simp [Pc.bare]) rfl (by simp [Pc.req])
  | dirty =>
    simp only [State.stepMkwrite] at hs
    split_ifs at hs
    · obtain ⟨rfl, rfl⟩ := Prod.mk.inj (Except.ok.inj hs)
      exact h.same hpc rfl (by simp [Pc.bare]) rfl fun _ hr => hr
    · obtain ⟨rfl, rfl⟩ := Prod.mk.inj (Except.ok.inj hs)
      exact h.same hpc (chart_setDirty _ _ _) (by simp [Pc.bare]) rfl fun _ hr => hr
  | insert =>
    obtain ⟨rfl, rfl⟩ := Prod.mk.inj (Except.ok.inj hs)
    exact h.same hpc rfl (by simp [Pc.bare]) rfl fun _ hr => hr
  | remove =>
    obtain ⟨rfl, rfl⟩ := Prod.mk.inj (Except.ok.inj hs)
    exact h.same hpc (chart_remove _ _ _) (by simp [Pc.bare]) rfl fun _ hr => hr
  | enqueue =>
    obtain ⟨rfl, rfl⟩ := Prod.mk.inj (Except.ok.inj hs)
    exact h.same hpc (chart_enqueue _ _ _) (by simp [Pc.bare]) rfl fun _ hr => hr
  | map =>
    obtain ⟨rfl, rfl⟩ := Prod.mk.inj (Except.ok.inj hs)
    have hp : (Pc.mkwrite r p .map).Holds p := (holds_mkwrite_iff (by simp)).mpr rfl
    obtain ⟨f, hf, hm⟩ := hi.placed.moves_finishMkwrite r.vmf p
    refine h.own hi hpc hm ?_ hp (fun hc => ?_) (by simp [Pc.bare]) (by simp [Pc.ready])
      (by simp [Pc.req])
    · simp only [finishMkwrite]
      split
      · split_ifs <;> rfl
      · rfl
    · rcases hf with rfl | ⟨⟨b, hb⟩, rfl⟩
      · exact hc.of_pte rfl rfl rfl rfl fun a w ha => ⟨w, ha⟩
      · obtain ⟨hu, hcov⟩ := hc.entry hb
        exact (hc.addEntry hu hcov true).of_pte rfl rfl rfl rfl fun a w ha => ⟨w, ha⟩

lemma Charts.stepPurge (h : Charts e m) (hi : Inv e m) {ret : Option Req} {x : PurgePc}
    (hpc : m.pc t = .purge ret x) (hs : m.st.stepPurge e ret x = .ok (s', pc')) :
    Charts e (m.put t s' pc' log) := by
  have hnodup := hi.table.nodup t
  rw [hpc] at hnodup
  cases x with
  | take qid n pgs =>
    cases n with
    | zero =>
      obtain ⟨rfl, rfl⟩ := Prod.mk.inj (Except.ok.inj hs)
      exact h.same hpc rfl (fun _ hq => hq) rfl fun _ hr => hr
    | succ n =>
      have hc := chart_dequeueIf m.st (.clean qid) chart_deq
      simp only [State.stepPurge] at hs
      split at hs
      all_goals
        rename_i heq
        rw [heq] at hc
        obtain ⟨rfl, rfl⟩ := Prod.mk.inj (Except.ok.inj hs)
        exact h.same hpc hc (fun _ hq => hq) rfl fun _ hr => hr
  | delete qid n pgs p =>
    simp only [State.stepPurge] at hs
    split at hs
    · exact absurd hs (by simp)
    · obtain ⟨rfl, rfl⟩ := Prod.mk.inj (Except.ok.inj hs)
      exact h.same hpc rfl (fun _ hq => hq) rfl fun _ hr => hr
  | unmap qid n pgs p =>
    obtain ⟨rfl, rfl⟩ := Prod.mk.inj (Except.ok.inj hs)
    have hm := hi.placed.moves_removeMappings (p := p)
    have hout : p ∉ pgs := (List.nodup_cons.mp (Multiset.coe_nodup.mp hnodup)).1
    refine h.own hi hpc hm (areas_of_outside (outside_removeMappings _ _))
      (Or.inl (by simp [Pc.locks])) PageView.Charted.unmapped (fun q hq => ?_) (by simp [Pc.ready])
      fun _ hr => hr
    simp only [Pc.bare, List.mem_append, List.mem_singleton] at hq
    rcases hq with hq | rfl
    · exact Or.inl ⟨fun hqp => hout (hqp ▸ hq), hq⟩
    · refine Or.inr ⟨rfl, fun j => ?_⟩
      rw [PageView.unmapped_eq]
  | free pgs =>
    cases pgs with
    | nil =>
      obtain ⟨rfl, rfl⟩ := Prod.mk.inj (Except.ok.inj hs)
      cases ret with
      | none => exact h.same hpc rfl (fun _ hq => absurd hq List.not_mem_nil) rfl fun _ hr => hr
      | some r => exact h.same hpc rfl (fun _ hq => absurd hq List.not_mem_nil) rfl fun _ hr => hr
    | cons p pgs =>
      obtain ⟨rfl, rfl⟩ := Prod.mk.inj (Except.ok.inj hs)
      have hp : (Pc.purge ret (.free (p :: pgs))).Holds p := Or.inl (by simp [Pc.locks])
      have hat := ((hi.page p).held (t := t) (by rw [hpc]; exact hp)).1
      rw [hpc] at hat
      have hout : p ∉ pgs := (List.nodup_cons.mp (Multiset.coe_nodup.mp hnodup)).1
      refine h.own hi hpc (hi.moves_free hat) (areas_of_outside (outside_freePageLock _ _)) hp
        (fun hc => hc.freed (h.bare (t := t) ?_)) (fun q hq => Or.inl ⟨?_, ?_⟩) (by simp [Pc.ready])
        fun _ hr => hr
      · rw [hpc]
        simp [Pc.bare]
      · rintro rfl
        exact hout hq
      · exact List.mem_cons_of_mem p hq

/-- `clear_mappings` on pages that the thread holds. -/
lemma Charts.clear_pages {l : List PageId} (htr : pc.transit = none) (ha : pc.await = none)
    (hf : pc.fresh = none) (hb : pc.bare = []) (hr : pc.ready = none) (h : Charts e m)
    (hi : Inv e m) (hpc : m.pc t = pc) (hl : ∀ p ∈ l, pc.Holds p) :
    Charts e (m.put t (l.foldl clearMappings m.st) pc log) := by
  induction l generalizing m with
  | nil => exact h.same hpc rfl (fun _ hq => hq) hr fun _ hr => hr
  | cons p l ih =>
    have hp := hl p List.mem_cons_self
    have hi₁ : Inv e (m.put t (m.st.clearMappings p) pc log) :=
      Inv.clear_pages (l := [p]) htr ha hf hi hpc fun q hq => by
        rw [List.mem_singleton.mp hq]
        exact hp
    have h₁ : Charts e (m.put t (m.st.clearMappings p) pc log) :=
      h.own hi hpc (hi.placed.moves_clearMappings (p := p))
        (areas_of_outside (outside_clearMappings _ _)) hp PageView.Charted.wrprotected
        (by simp [hb]) (by simp [hr]) fun _ hr => hr
    have := ih h₁ hi₁ put_pc_self fun q hq => hl q (List.mem_cons_of_mem p hq)
    rwa [put_put] at this

lemma Charts.stepEvict (h : Charts e m) (hi : Inv e m) {x : EvictPc} (hpc : m.pc t = .evict x)
    (hs : m.st.stepEvict e x = .ok (s', pc')) : Charts e (m.put t s' pc' log) := by
  cases x with
  | take id =>
    have hc := chart_dequeueIf m.st (.dirty id) chart_evDeq
    simp only [State.stepEvict] at hs
    split at hs
    all_goals
      rename_i heq
      rw [heq] at hc
      obtain ⟨rfl, rfl⟩ := Prod.mk.inj (Except.ok.inj hs)
      exact h.same_apart hpc hc rfl rfl rfl
  | untree id p =>
    simp only [State.stepEvict] at hs
    split at hs
    · exact absurd hs (by simp)
    · obtain ⟨rfl, rfl⟩ := Prod.mk.inj (Except.ok.inj hs)
      exact h.same_apart hpc (chart_removeFromDirtyTree _ _) rfl rfl rfl
  | scan c =>
    simp only [State.stepEvict] at hs
    split_ifs at hs
    · obtain ⟨rfl, rfl⟩ := Prod.mk.inj (Except.ok.inj hs)
      exact h.same_apart hpc rfl rfl rfl rfl
    · split at hs
      all_goals
        obtain ⟨rfl, rfl⟩ := Prod.mk.inj (Except.ok.inj hs)
        exact h.same_apart hpc rfl rfl rfl rfl
  | grab c q =>
    have hc := chart_removeIf m.st (.dirty c.id) q chart_evDeq
    simp only [State.stepEvict] at hs
    split at hs
    all_goals
      rename_i heq
      rw [heq] at hc
      obtain ⟨rfl, rfl⟩ := Prod.mk.inj (Except.ok.inj hs)
      exact h.same_apart hpc hc rfl rfl rfl
  | back c q =>
    obtain ⟨rfl, rfl⟩ := Prod.mk.inj (Except.ok.inj hs)
    exact h.same_apart hpc rfl rfl rfl rfl
  | clear v pgs =>
    obtain ⟨rfl, rfl⟩ := Prod.mk.inj (Except.ok.inj hs)
    have h₁ : Charts e (m.put t (pgs.foldl clearMappings m.st) (.evict (.clear v pgs)) log) :=
      Charts.clear_pages rfl rfl rfl rfl rfl h hi hpc fun p hp =>
        Or.inl (by simpa [Pc.locks] using hp)
    have h₂ : Charts e ((m.put t (pgs.foldl clearMappings m.st) (.evict (.clear v pgs)) log).put t
        (pgs.foldl clearMappings m.st) (.evict (.write v pgs)) log) :=
      h₁.same_apart put_pc_self rfl rfl rfl rfl
    rwa [put_put] at h₂
  | write v pgs =>
    obtain ⟨rfl, rfl⟩ := Prod.mk.inj (Except.ok.inj hs)
    exact h.same_apart hpc rfl rfl rfl rfl
  | insert v done todo =>
    cases todo with
    | nil =>
      obtain ⟨rfl, rfl⟩ := Prod.mk.inj (Except.ok.inj hs)
      exact h.same_apart hpc rfl rfl rfl rfl
    | cons p todo =>
      obtain ⟨rfl, rfl⟩ := Prod.mk.inj (Except.ok.inj hs)
      exact h.same_apart hpc (chart_insertPage _ _ _) rfl rfl rfl
  | unlock todo =>
    cases todo with
    | nil =>
      obtain ⟨rfl, rfl⟩ := Prod.mk.inj (Except.ok.inj hs)
      exact h.same_apart hpc rfl rfl rfl rfl
    | cons p todo =>
      obtain ⟨rfl, rfl⟩ := Prod.mk.inj (Except.ok.inj hs)
      exact h.same_apart hpc (chart_unlockTp _ _) rfl rfl rfl

lemma bare_startCleanup (a : SyncArgs) (p : PageId) (hp : MinHeap) (pgs : List PageId) :
    (startCleanup a p hp pgs).bare = [] ∧ (startCleanup a p hp pgs).ready = none ∧
      (startCleanup a p hp pgs).req = none := by
  obtain ⟨x, hx⟩ := startCleanup_eq a p hp pgs
  rw [hx]
  exact ⟨rfl, rfl, rfl⟩

lemma Charts.stepSync (h : Charts e m) (hi : Inv e m) {a : SyncArgs} {x : SyncPc}
    (hpc : m.pc t = .sync a x) (hs : m.st.stepSync e a x = .ok (s', pc')) :
    Charts e (m.put t s' pc' log) := by
  cases x with
  | fill cpus hp =>
    cases cpus with
    | nil =>
      obtain ⟨rfl, rfl⟩ := Prod.mk.inj (Except.ok.inj hs)
      exact h.same_apart hpc rfl rfl rfl rfl
    | cons cpu cpus =>
      obtain ⟨b, hp', hpull, rfl⟩ := stepSync_fill_cons hs
      exact h.same_apart hpc (chart_pullOnce hpull) rfl rfl rfl
  | min hp pgs =>
    simp only [State.stepSync] at hs
    split_ifs at hs
    all_goals
      obtain ⟨rfl, rfl⟩ := Prod.mk.inj (Except.ok.inj hs)
      exact h.same_apart hpc rfl rfl rfl rfl
  | pull n hp pgs =>
    obtain ⟨b, hp', hpull, rfl⟩ := stepSync_pull hs
    have hc := chart_pullOnce hpull
    split_ifs
    · exact h.same_apart hpc hc rfl rfl rfl
    · obtain ⟨hb, hr, hq⟩ := bare_startCleanup a n.p hp' pgs
      exact h.same_apart hpc hc hb hr hq
  | clear p hp pgs =>
    obtain ⟨rfl, rfl⟩ := Prod.mk.inj (Except.ok.inj hs)
    exact h.own hi hpc (hi.placed.moves_clearMappings (p := p))
      (areas_of_outside (outside_clearMappings _ _)) (Or.inl (by simp [Pc.locks]))
      PageView.Charted.wrprotected (by simp [Pc.bare]) (by simp [Pc.ready]) (by simp [Pc.req])
  | remove p hp pgs =>
    obtain ⟨rfl, rfl⟩ := Prod.mk.inj (Except.ok.inj hs)
    exact h.same_apart hpc (chart_remove _ _ _) rfl rfl rfl
  | enqueue p hp pgs =>
    simp only [State.stepSync] at hs
    split_ifs at hs
    all_goals
      obtain ⟨rfl, rfl⟩ := Prod.mk.inj (Except.ok.inj hs)
      exact h.same_apart hpc ((chart_setDirty _ _ _).trans (chart_enqueue _ _ _)) rfl rfl rfl
  | write hp pgs =>
    obtain ⟨rfl, rfl⟩ := Prod.mk.inj (Except.ok.inj hs)
    exact h.same_apart hpc rfl rfl rfl rfl
  | unlock hp todo =>
    cases todo with
    | nil =>
      obtain ⟨rfl, rfl⟩ := Prod.mk.inj (Except.ok.inj hs)
      exact h.same_apart hpc rfl rfl rfl rfl
    | cons p todo =>
      obtain ⟨rfl, rfl⟩ := Prod.mk.inj (Except.ok.inj hs)
      exact h.same_apart hpc (chart_unlockTp _ _) rfl rfl rfl

lemma Charts.stepThread (h : Charts e m) (hi : Inv e m)
    (hs : m.st.stepThread e c (m.pc t) = .ok (s', pc')) : Charts e (m.put t s' pc' log) := by
  cases hpc : m.pc t with
  | idle => simp [hpc, State.stepThread] at hs
  | get r x =>
    rw [hpc] at hs
    exact h.stepGet hi hpc hs
  | mkwrite r p x =>
    rw [hpc] at hs
    exact h.stepMkwrite hi hpc hs
  | purge ret x =>
    rw [hpc] at hs
    exact h.stepPurge hi hpc hs
  | evict x =>
    rw [hpc] at hs
    exact h.stepEvict hi hpc hs
  | sync a x =>
    rw [hpc] at hs
    exact h.stepSync hi hpc hs

end Machine

end FastMap
