import FastMap.Requests
import FastMap.Unmapping

/-!
# The openers of a device

Every `raw_open` of a device creates a pvd of its own, with its own radix trees, so two openers may
cache one block of the device in two pages. As long as a block is faulted in only while no page of
another opener caches it, there is one copy of every block, and what one opener has stored is what
the others read.
-/

namespace FastMap

variable {C : Type*}

/-! ### The blocks of the device -/

namespace State

variable {e : Env C} {s s' s'' : State C} {d : DevId} {v : PvdId} {p : PageId}

/-- What all calls but faults and stores do to the pages, as blocks of the device: pages may be
dropped, but their content changes nowhere, and a dirty page is dropped or made clean only when it
has been written. -/
structure Passes (d : DevId) (s s' : State C) : Prop where
  page {p : PageId} : (s'.pages p).inUse = true → (s.pages p).inUse = true ∧
    (s'.pages p).index = (s.pages p).index ∧ (s'.pages p).content = (s.pages p).content
  dirty {p : PageId} : (s.pages p).inUse = true → (s.pages p).isDirty = true →
    ((s'.pages p).inUse = true ∧ (s'.pages p).isDirty = true) ∨
      s'.disk (d, (s.pages p).index) = (s.pages p).content
  disk (off : Pgoff) : s'.disk (d, off) = s.disk (d, off) ∨ ∃ p, (s.pages p).inUse = true ∧
    (s.pages p).index = off ∧ s'.disk (d, off) = (s.pages p).content
  bit {a : DevId × Pgoff} : s.bitmap a = true → s'.bitmap a = true

/-- Pages, device and bitmap are the same. -/
lemma passes_of_eq (hp : ∀ p, (s'.pages p).inUse = (s.pages p).inUse ∧
      (s'.pages p).index = (s.pages p).index ∧ (s'.pages p).content = (s.pages p).content ∧
      ((s.pages p).isDirty = true → (s'.pages p).isDirty = true))
    (hd : s'.disk = s.disk) (hb : s'.bitmap = s.bitmap) : Passes d s s' where
  page {p} hu := ⟨(hp p).1 ▸ hu, (hp p).2.1, (hp p).2.2.1⟩
  dirty {p} hu hdirty := Or.inl ⟨(hp p).1.trans hu, (hp p).2.2.2 hdirty⟩
  disk _ := Or.inl (by rw [hd])
  bit ha := by rwa [hb]

lemma Recycles.passes (h : Recycles e s s') : Passes d s s' := by
  have hdisk : s'.disk = s.disk := congrArg Outside.disk h.outside_eq
  have hbit : s'.bitmap = s.bitmap := congrArg Outside.bitmap h.outside_eq
  refine ⟨fun {q} hu => ?_, fun {q} hu hd => ?_, fun _ => Or.inl (by rw [hdisk]),
    fun ha => by rwa [hbit]⟩
  · rcases h.view_cases q with hq | hq
    · have hpage : s'.pages q = s.pages q := congrArg PageView.page hq
      rw [hpage] at hu ⊢
      exact ⟨hu, rfl, rfl⟩
    · exact absurd (hq.idle.inUse.symm.trans hu) Bool.false_ne_true
  · rcases h.view_cases q with hq | hq
    · have hpage : s'.pages q = s.pages q := congrArg PageView.page hq
      rw [hpage]
      exact Or.inl ⟨hu, hd⟩
    · -- only clean pages are reclaimed
      rcases hq.before with hidle | hpurge
      · exact absurd (hidle.inUse.symm.trans hu) Bool.false_ne_true
      · exact absurd (hpurge.2.1.symm.trans hd) Bool.false_ne_true

lemma Batch.passes {cb : Cleanup} {pgs : List PageId}
    (hb : Batch e (s.view e) (Evictable e v) (PageView.synced cb) s' pgs)
    (ho : s'.outside = { s.outside with disk := s'.disk })
    (hs : Synced v (s.view e) s s' pgs) (hv : (s.pvds v).bk = d) : Passes d s s' := by
  have hbit : s'.bitmap = s.bitmap := congrArg Outside.bitmap ho
  have hwritten : ∀ q ∈ pgs, s'.disk (d, (s.pages q).index) = (s.pages q).content := by
    intro q hq
    have hw := hs.written hq
    rw [hv] at hw
    exact hw
  refine ⟨fun {q} hu => ?_, fun {q} hu hd => ?_, fun off => ?_, fun ha => by rwa [hbit]⟩
  · by_cases hq : q ∈ pgs
    · rw [hb.pages_of_mem hq]
      exact ⟨(hb.all hq).1.inUse, rfl, rfl⟩
    · rw [hb.pages_of_not_mem hq] at hu ⊢
      exact ⟨hu, rfl, rfl⟩
  · by_cases hq : q ∈ pgs
    · exact Or.inr (hwritten q hq)
    · rw [hb.pages_of_not_mem hq]
      exact Or.inl ⟨hu, hd⟩
  · by_cases hex : ∃ q ∈ pgs, (s.pages q).index = off
    · obtain ⟨q, hq, rfl⟩ := hex
      exact Or.inr ⟨q, (hb.all hq).1.inUse, rfl, hwritten q hq⟩
    · refine Or.inl (hs.other fun q hq heq => hex ⟨q, hq, ?_⟩)
      exact (Prod.mk.inj heq).2.symm

/-- Pages that are dropped once they are clean. -/
lemma Cleared.passes {pgs : List PageId}
    (hc : Cleared e v (s.view e) PageView.dropped s s' pgs)
    (hclean : ∀ p ∈ pgs, (s.pages p).isDirty = false) : Passes d s s' := by
  have hdisk : s'.disk = s.disk := congrArg Outside.disk hc.outside_eq
  have hbit : s'.bitmap = s.bitmap := congrArg Outside.bitmap hc.outside_eq
  refine ⟨fun {q} hu => ?_, fun {q} hu hd => ?_, fun _ => Or.inl (by rw [hdisk]),
    fun ha => by rwa [hbit]⟩
  · have hq : q ∉ pgs := by
      intro hq
      rw [← view_page e, hc.batch.view_of_mem hq] at hu
      simp [PageView.dropped, PageView.freed] at hu
    rw [hc.batch.pages_of_not_mem hq] at hu ⊢
    exact ⟨hu, rfl, rfl⟩
  · have hq : q ∉ pgs := fun hq => Bool.false_ne_true ((hclean q hq).symm.trans hd)
    rw [hc.batch.pages_of_not_mem hq]
    exact Or.inl ⟨hu, hd⟩

/-- No two pages cache one block, and the bits of the cached blocks are set. -/
structure OneCopy (d : DevId) (s : State C) : Prop where
  single {p q : PageId} : (s.pages p).inUse = true → (s.pages q).inUse = true →
    (s.pages p).index = (s.pages q).index → p = q
  bit {p : PageId} : (s.pages p).inUse = true → s.bitmap (d, (s.pages p).index) = true

lemma OneCopy.passes (h : s.OneCopy d) (hp : Passes d s s') : s'.OneCopy d where
  single hu hu' hi := by
    obtain ⟨hup, hip, -⟩ := hp.page hu
    obtain ⟨huq, hiq, -⟩ := hp.page hu'
    exact h.single hup huq (hip.symm.trans (hi.trans hiq))
  bit hu := by
    obtain ⟨hup, hip, -⟩ := hp.page hu
    rw [hip]
    exact hp.bit (h.bit hup)

/-- A block holds `c`: in the page that caches it, and on the device unless this page is dirty. -/
structure Holds (d : DevId) (off : Pgoff) (c : C) (s : State C) : Prop where
  cached {p : PageId} : (s.pages p).inUse = true → (s.pages p).index = off →
    (s.pages p).content = c
  back : (∀ p, (s.pages p).inUse = true → (s.pages p).index = off → (s.pages p).isDirty = false) →
    s.disk (d, off) = c
  bit : s.bitmap (d, off) = true

variable {off : Pgoff} {c : C}

lemma Holds.passes (h : s.Holds d off c) (hp : Passes d s s') : s'.Holds d off c where
  cached hu hi := by
    obtain ⟨hup, hip, hcp⟩ := hp.page hu
    exact hcp.trans (h.cached hup (hip.symm.trans hi))
  back hclean := by
    by_cases hex : ∃ p, (s.pages p).inUse = true ∧ (s.pages p).index = off ∧
        (s.pages p).isDirty = true
    · obtain ⟨p, hu, hi, hd⟩ := hex
      rcases hp.dirty hu hd with ⟨hu', hd'⟩ | hw
      · have hi' := (hp.page hu').2.1
        exact absurd ((hclean p hu' (hi'.trans hi)).symm.trans hd') Bool.false_ne_true
      · rw [hi] at hw
        exact hw.trans (h.cached hu hi)
    · have hback := h.back fun p hu hi => by
        by_contra hd
        exact hex ⟨p, hu, hi, by simpa using hd⟩
      rcases hp.disk off with heq | ⟨p, hu, hi, hw⟩
      · exact heq.trans hback
      · exact hw.trans (h.cached hu hi)
  bit := hp.bit h.bit

/-! ### Faults and stores -/

/-- A page that a fault has found keeps its block, and no other page changes. -/
lemma passes_of_found (hd : s'.disk = s.disk) (hb : ∀ {a}, s.bitmap a = true → s'.bitmap a = true)
    (ho : ∀ {q}, q ≠ p → ((s'.pages q).inUse = true ∨ (s.pages q).inUse = true) →
      s'.pages q = s.pages q)
    (hp : (s.pages p).inUse = true ∧ (s'.pages p).inUse = true ∧
      (s'.pages p).index = (s.pages p).index ∧ (s'.pages p).content = (s.pages p).content ∧
      ((s.pages p).isDirty = true → (s'.pages p).isDirty = true)) : Passes d s s' := by
  refine ⟨fun {q} hu => ?_, fun {q} hu hdirty => Or.inl ?_, fun _ => Or.inl (by rw [hd]), hb⟩
  · by_cases hq : q = p
    · rw [hq]
      exact ⟨hp.1, hp.2.2.1, hp.2.2.2.1⟩
    · have heq := ho hq (Or.inl hu)
      rw [heq] at hu ⊢
      exact ⟨hu, rfl, rfl⟩
  · by_cases hq : q = p
    · subst hq
      exact ⟨hp.2.1, hp.2.2.2.2 hdirty⟩
    · rw [ho hq (Or.inr hu)]
      exact ⟨hu, hdirty⟩

/-- The page that a fault fills caches a block that no other page caches, if no page of another
pvd does. -/
lemma Inv.absent_of_miss {s₀ : State C} (h : s.Inv e) (hr : Recycles e s s₀)
    (ha : ∀ q v', (s.pages q).inUse = true → (s.pages q).pvd = some v' → (s.pages q).index = off →
      v' = v) (hmiss : s₀.fmapRadixLookup e v off = none) {q : PageId}
    (hu : (s₀.pages q).inUse = true) : (s₀.pages q).index ≠ off := by
  intro hi
  have h₀ := hr.inv h
  have hpage : s₀.pages q = s.pages q := by
    refine congrArg PageView.page ((hr.view_cases q).resolve_right fun hrec => ?_)
    exact Bool.false_ne_true (hrec.idle.inUse.symm.trans hu)
  have hres : Resident e q (s₀.view e q) :=
    (h₀.page q).resolve_left fun hidle => Bool.false_ne_true (hidle.inUse.symm.trans hu)
  obtain ⟨v', hv', -⟩ := view_tree.mp hres.cached
  have hv : v' = v := by
    rw [hpage] at hu hi hv'
    exact ha q v' hu hv' hi
  rw [h₀.lookup_iff.mpr ⟨hu, hv ▸ hv', hi⟩] at hmiss
  exact absurd hmiss (by simp)

/-- Page `p` has been filled with a block that no page has cached. -/
structure Fills (d : DevId) (off : Pgoff) (s s' : State C) (p : PageId) : Prop where
  other {q : PageId} : q ≠ p → (s'.pages q).inUse = true → s'.pages q = s.pages q
  keeps {q : PageId} : (s.pages q).inUse = true → s'.pages q = s.pages q
  absent {q : PageId} : (s.pages q).inUse = true → (s.pages q).index ≠ off
  index : (s'.pages p).index = off
  disk : s'.disk = s.disk
  bitmap {a : DevId × Pgoff} : s.bitmap a = true → s'.bitmap a = true
  bit : s'.bitmap (d, off) = true
  content : s.bitmap (d, off) = true → (s'.pages p).content = s.disk (d, off)

/-- A fault may reclaim pages; then it finds its page or fills one. -/
lemma Inv.fault_fills (h : s.Inv e) {vma : VmaId} {i : ℕ} {f : FaultEnv C}
    (hfull : f.read = .full)
    (hraw : ∀ v, s.vmaPvd vma = some v → (s.pvds v).type = .blkd ∧ (s.pvds v).bk = d)
    (ha : ∀ q v, (s.pages q).inUse = true → (s.pages q).pvd = some v →
      (s.pages q).index = (s.vmas vma).vmPgoff + i → s.vmaPvd vma = some v)
    (hs : s.fault e vma i f = .ok s') : ∃ s₀, Passes d s s₀ ∧
      (Passes d s₀ s' ∨ ∃ p, Fills d ((s.vmas vma).vmPgoff + i) s₀ s' p) := by
  obtain ⟨s₀, v, p, x, y, hf⟩ := h.fault hs
  refine ⟨s₀, hf.recycles.passes, ?_⟩
  have hv : s.vmaPvd vma = some v := hf.pvd
  obtain ⟨hblkd, hbk⟩ := hraw v hv
  have h₀ := hf.recycles.inv h
  have hdisk₀ : s₀.disk = s.disk := congrArg Outside.disk hf.recycles.outside_eq
  have hbit₀ : s₀.bitmap = s.bitmap := congrArg Outside.bitmap hf.recycles.outside_eq
  have hdisk : s'.disk = s₀.disk := (congrArg Outside.disk hf.outside_eq).trans hdisk₀.symm
  have hbits : ∀ {a}, s₀.bitmap a = true → s'.bitmap a = true := by
    intro a ha
    rw [hbit₀] at ha
    exact hf.bitmap ha
  have hpage : s'.pages p = { x.page with rmap := y.page.rmap, locked := false } := by
    rw [← view_page e, hf.resolves.view_self]
    exact congrArg PageView.page hf.mapped.same
  -- another page that is in use before or after the fault is the same
  have hother : ∀ {q}, q ≠ p → ((s'.pages q).inUse = true ∨ (s₀.pages q).inUse = true) →
      s'.pages q = s₀.pages q := by
    intro q hq hu
    rcases hf.resolves.other hq with hv | ⟨hidle, hrec⟩
    · exact congrArg PageView.page hv
    · rcases hu with hu | hu
      · exact absurd (hrec.idle.inUse.symm.trans hu) Bool.false_ne_true
      · exact absurd (hidle.inUse.symm.trans hu) Bool.false_ne_true
  rcases hf.found with ⟨hres, -, -, -, rfl⟩ | ⟨hfree, hmiss, rfl⟩
  · left
    apply passes_of_found hdisk hbits hother
    · rw [hpage]
      exact ⟨hres.inUse, hres.inUse, rfl, rfl, fun hd => hd⟩
  · right
    have hidle := Idle.of_free (h₀.page p) hfree
    have hne : ∀ {q}, (s₀.pages q).inUse = true → q ≠ p := by
      rintro q hu rfl
      exact Bool.false_ne_true (hidle.inUse.symm.trans hu)
    refine ⟨p, fun hq hu => hother hq (Or.inl hu), fun hu => hother (hne hu) (Or.inr hu), ?_, ?_,
      hdisk, hbits, ?_, fun hb => ?_⟩
    · intro q hu
      apply h.absent_of_miss hf.recycles _ hmiss hu
      intro q v' hu hv' hiq
      exact Option.some_injective _ ((ha q v' hu hv' hiq).symm.trans hv)
    · rw [hpage]
      rfl
    · rw [← hbk]
      exact hf.bit hfree hblkd
    · rw [hdisk₀, ← hbk, hpage]
      refine loaded_full hfull (fun _ => ?_) _
      rw [hbk, ← hbit₀]
      exact hb

lemma OneCopy.fills (h : s.OneCopy d) (hf : Fills d off s s' p) : s'.OneCopy d := by
  have hne : ∀ {q}, q ≠ p → (s'.pages q).inUse = true →
      (s.pages q).inUse = true ∧ s'.pages q = s.pages q := by
    intro q hq hu
    have heq := hf.other hq hu
    rw [heq] at hu
    exact ⟨hu, heq⟩
  constructor
  · intro q r huq hur hqr
    by_cases hq : q = p <;> by_cases hr : r = p
    · rw [hq, hr]
    · obtain ⟨hur', heq⟩ := hne hr hur
      rw [hq, hf.index, heq] at hqr
      exact absurd hqr.symm (hf.absent hur')
    · obtain ⟨huq', heq⟩ := hne hq huq
      rw [hr, hf.index, heq] at hqr
      exact absurd hqr (hf.absent huq')
    · obtain ⟨huq', heq⟩ := hne hq huq
      obtain ⟨hur', heq'⟩ := hne hr hur
      rw [heq, heq'] at hqr
      exact h.single huq' hur' hqr
  · intro q hu
    by_cases hq : q = p
    · rw [hq, hf.index]
      exact hf.bit
    · obtain ⟨hu', heq⟩ := hne hq hu
      rw [heq]
      exact hf.bitmap (h.bit hu')

lemma Holds.fills {off' : Pgoff} (h : s.Holds d off c) (hf : Fills d off' s s' p) :
    s'.Holds d off c := by
  constructor
  · intro q hu hi
    by_cases hq : q = p
    · -- no page has cached the block, so the device holds it
      subst hq
      obtain rfl : off' = off := hf.index.symm.trans hi
      rw [hf.content h.bit]
      exact h.back fun r hur hir => absurd hir (hf.absent hur)
    · have heq := hf.other hq hu
      rw [heq] at hu hi ⊢
      exact h.cached hu hi
  · intro hcl
    rw [hf.disk]
    apply h.back
    intro q hu hi
    have heq := hf.keeps hu
    rw [← heq] at hu hi ⊢
    exact hcl q hu hi
  · exact hf.bitmap h.bit

/-- A store into another block. -/
lemma Holds.store (h : s.Holds d off c) (hq : s.Placed e) {vma : VmaId} {i : ℕ} {f : C → C}
    (hne : ∀ p, s.pte (vma, (s.vmas vma).addr i) = .map p true → (s.pages p).index ≠ off)
    (hs : s.store vma i f = .ok s') : s'.Holds d off c := by
  obtain ⟨p, hp, ho, hm⟩ := hq.store hs
  have hdisk : s'.disk = s.disk := congrArg Outside.disk ho
  have hbit : s'.bitmap = s.bitmap := congrArg Outside.bitmap ho
  have hother : ∀ {q}, (s'.pages q).index = off → s'.pages q = s.pages q := by
    intro q hi
    refine congrArg PageView.page (hm.view_of_ne ?_)
    rintro rfl
    rw [hm.pages_self] at hi
    exact hne q hp hi
  constructor
  · intro q hu hi
    have heq := hother hi
    rw [heq] at hu hi ⊢
    exact h.cached hu hi
  · intro hcl
    rw [hdisk]
    apply h.back
    intro q hu hi
    have hqp : q ≠ p := by
      rintro rfl
      exact hne q hp hi
    have heq : s'.pages q = s.pages q := congrArg PageView.page (hm.view_of_ne hqp)
    rw [← heq] at hu hi ⊢
    exact hcl q hu hi
  · rw [hbit]
    exact h.bit

end State

namespace Vfs

open State

/-! ### The calls of the openers -/

/-- The calls on one bound device, and those that work on the buffer alone. -/
inductive RawCall (C : Type*) where
  | open (i : InfoId) (v : PvdId)
  | mmap (vma : VmaId) (a : VmArea) (pve : PveId)
  | munmap (vma : VmaId)
  | fsync (i : InfoId)
  | release (i : InfoId)
  | buffer (op : Op C)

def rawCall (e : Env C) (d : DevId) (s : Vfs C) : RawCall C → Except Halt (Vfs C)
  | .open i v => s.rawOpen d i v
  | .mmap vma a pve => s.dmapMmap vma a pve
  | .munmap vma => s.munmap e vma
  | .fsync i => s.fsync e i
  | .release i => s.release e i
  | .buffer op => s.call e (.buffer op)

/-- A completed call. -/
def RawCalls (e : Env C) (d : DevId) (s : Vfs C) (c : RawCall C) (s' : Vfs C) : Prop :=
  s.rawCall e d c = .ok s'

/-- A block is faulted in only while no page of another opener caches it, and is read in full. No
batch has a run of pages that is too long, and an area leaves no slot behind. -/
def Apart (e : Env C) (s : Vfs C) : RawCall C → Prop
  | .munmap vma => s.Unmappable e vma
  | .fsync i => ∀ v, (s.st.infos i).pvd = some v → ShortRuns s.st (s.st.syncBatches e .fsync v)
  | .release i => ∀ v, (s.st.infos i).pvd = some v → ShortRuns s.st (s.st.syncBatches e .release v)
  | .buffer (.fault vma i f) => f.read = .full ∧ ∀ p v, (s.st.pages p).inUse = true →
      (s.st.pages p).pvd = some v → (s.st.pages p).index = (s.st.vmas vma).vmPgoff + i →
      s.st.vmaPvd vma = some v
  | .buffer (.evictor id held) => ShortRuns s.st [s.st.evictorBatchHeld e id held]
  | _ => True

/-- The call finds room in the arrays that it writes. -/
def RawFits (e : Env C) (s : Vfs C) : RawCall C → Prop
  | .fsync i => s.SyncFits e i
  | .release i => s.SyncFits e i
  | .buffer op => s.st.Fits e op
  | _ => True

/-- A completed call that meets these conditions. -/
def RawSteps (e : Env C) (d : DevId) (s : Vfs C) (c : RawCall C) (s' : Vfs C) : Prop :=
  s.Apart e c ∧ s.RawFits e c ∧ RawCalls e d s c s'

/-- The call is not a store into the block. -/
def Spares (s : Vfs C) (off : Pgoff) : RawCall C → Prop
  | .buffer (.store vma i _) => (s.st.vmas vma).vmPgoff + i ≠ off
  | _ => True

variable {e : Env C} {s s' : Vfs C} {d : DevId}

/-- The pvds in use are those of the openers, and there is one copy of every block. -/
structure RawOk (e : Env C) (d : DevId) (s : Vfs C) : Prop where
  ok : s.Ok e
  raw {v : PvdId} : s.pvdInUse v = true → (s.st.pvds v).type = .blkd ∧ (s.st.pvds v).bk = d
  copy : s.st.OneCopy d

lemma rawOk_init (e : Env C) (d : DevId) (w : World C) : (init e w).RawOk e d where
  ok := ok_init e w
  raw hv := absurd hv Bool.false_ne_true
  copy := ⟨fun hu => by simp [init, initParams, TaggedPage.init] at hu,
    fun hu => by simp [init, initParams, TaggedPage.init] at hu⟩

/-- What a call does to the blocks: it passes, or it stores into one. -/
def Serves (d : DevId) (s s' : Vfs C) (c : RawCall C) : Prop :=
  ∀ off x, s.st.Holds d off x → s.Spares off c → s'.st.Holds d off x

/-- A call that passes. -/
lemma RawOk.passes (h : s.RawOk e d) {c : RawCall C} (hok : s'.Ok e) (hu : s'.pvdInUse = s.pvdInUse)
    (hv : s'.st.pvds = s.st.pvds) (hp : Passes d s.st s'.st) : s'.RawOk e d ∧ Serves d s s' c := by
  refine ⟨⟨hok, fun {v} hin => ?_, h.copy.passes hp⟩, fun off x hx _ => hx.passes hp⟩
  rw [hu] at hin
  rw [hv]
  exact h.raw hin

lemma RawOk.vmaPvd (h : s.RawOk e d) {vma : VmaId} {v : PvdId} (hm : vma ∈ s.areas)
    (hv : s.st.vmaPvd vma = some v) : (s.st.pvds v).type = .blkd ∧ (s.st.pvds v).bk = d :=
  h.raw (h.ok.info_pvd (h.ok.area_open hm) hv)

/-- A page that is written back is a page of an opener. -/
lemma RawOk.bk_of_evictable (h : s.RawOk e d) {p : PageId} {v : PvdId}
    (hp : Evictable e v p (s.st.view e p)) : (s.st.pvds v).bk = d :=
  (h.raw (h.ok.page_pvd hp.1.inUse hp.2.2.2)).2

/-- A batch that has been written. -/
lemma RawOk.passes_batch (h : s.RawOk e d) (he : e.writeAsync = driverWriter) {cb : Cleanup}
    {v : PvdId} {st : State C} {bs : List (List PageId)}
    (hb : Batch e (s.st.view e) (Evictable e v) (PageView.synced cb) st bs.flatten)
    (ho : st.outside = { s.st.outside with disk := st.disk })
    (hs : (∀ pgs ∈ bs, e.WritesBatch v (s.st.view e) pgs) →
      Synced v (s.st.view e) s.st st bs.flatten)
    (hr : ShortRuns s.st bs) : Passes d s.st st := by
  have hsync := hs fun pgs hm => writesBatch_of_not_longRun he v (hr pgs hm)
  by_cases hnil : bs.flatten = []
  · -- nothing has been written
    rw [hnil] at hb hsync
    refine passes_of_eq (fun p => ?_) (funext fun a => hsync.other (by simp))
      (congrArg Outside.bitmap ho)
    rw [hb.pages_of_not_mem List.not_mem_nil]
    exact ⟨rfl, rfl, rfl, id⟩
  · obtain ⟨p, hp⟩ := List.exists_mem_of_ne_nil _ hnil
    exact hb.passes ho hsync (h.bk_of_evictable (hb.all hp))

lemma RawOk.fsync (h : s.RawOk e d) (he : e.writeAsync = driverWriter) {i : InfoId}
    (ha : s.Apart e (.fsync i)) (hs : s.fsync e i = .ok s') :
    s'.RawOk e d ∧ Serves d s s' (.fsync i) := by
  have hok := h.ok.fsync hs
  rcases fsync_cases hs with rfl | ⟨v, st, hv, hw, rfl⟩
  · exact ⟨h, fun _ _ hx _ => hx⟩
  · have hl := h.ok.quiet.inv.writeDirtyPages hw
    refine h.passes hok rfl (congrArg Outside.pvds hl.outside_eq) ?_
    exact h.passes_batch he hl.batch hl.outside_eq hl.synced (ha v hv)

lemma RawOk.release (h : s.RawOk e d) (he : e.writeAsync = driverWriter) {i : InfoId}
    (ha : s.Apart e (.release i)) (hs : s.release e i = .ok s') :
    s'.RawOk e d ∧ Serves d s s' (.release i) := by
  have hopen : s.isOpen i = true := by
    by_contra hno
    have hclosed : s.isOpen i = false := by simpa using hno
    simp [Vfs.release, hclosed] at hs
  have htype : ∀ v, (s.st.infos i).pvd = some v → (s.st.pvds v).type = .blkd :=
    fun v hv => (h.raw (h.ok.info_pvd hopen hv)).1
  have hok : s'.Ok e := by
    refine h.ok.release (fun v hv ht => ?_) hs
    rw [htype v hv] at ht
    exact absurd ht (by simp)
  simp only [Vfs.release] at hs
  split_ifs at hs
  cases hv : (s.st.infos i).pvd with
  | none =>
    obtain rfl : _ = s' := by simpa [hv] using hs
    exact h.passes hok rfl rfl (passes_of_eq (fun _ => ⟨rfl, rfl, rfl, id⟩) rfl rfl)
  | some v =>
    simp only [hv, htype v hv] at hs
    obtain ⟨st, hw, rfl⟩ := Except.map_eq_ok.mp hs
    -- the dirty pages are written first, and then all pages are dropped
    obtain ⟨st₁, pgs, -, hl, hc⟩ := h.ok.quiet.inv.rawRelease hw
    have hp := h.passes_batch he hl.batch hl.outside_eq hl.synced (ha v hv)
    have hp' : Passes d st₁ st :=
      hc.passes fun p hm => hl.clean_after (hc.batch.all hm).1 (hc.batch.all hm).2.1
    have hpvds : st.pvds = s.st.pvds :=
      (congrArg Outside.pvds hc.outside_eq).trans (congrArg Outside.pvds hl.outside_eq)
    refine ⟨⟨hok, fun {u} hu => ?_, (h.copy.passes hp).passes hp'⟩, fun _ _ hx _ =>
      (hx.passes hp).passes hp'⟩
    rw [show st.pvds = s.st.pvds from hpvds]
    exact h.raw hu

/-- A write fault makes a page dirty. -/
lemma RawOk.mkwrite (h : s.RawOk e d) {vma : VmaId} {i : ℕ} {st : State C}
    (hok : ({ s with st := st } : Vfs C).Ok e) (hs : s.st.mkwrite e vma i = .ok st) :
    ({ s with st := st } : Vfs C).RawOk e d ∧
      Serves d s { s with st := st } (.buffer (.mkwrite vma i)) := by
  have hc : s.st.cachedMapping e vma i = true :=
    h.ok.tracks.cachedMapping h.ok.quiet.inv rfl rfl (vmaPvd_of_mkwrite hs) i
  rcases h.ok.quiet.inv.mkwrite hc hs with rfl | ⟨p, v, w, -, -, -, -, -, -, ho, hm⟩
  · exact ⟨h, fun _ _ hx _ => hx⟩
  · refine h.passes hok rfl (congrArg Outside.pvds ho) (passes_of_eq (fun q => ?_)
      (congrArg Outside.disk ho) (congrArg Outside.bitmap ho))
    by_cases hq : q = p
    · rw [hq, hm.pages_self]
      exact ⟨rfl, rfl, rfl, fun _ => rfl⟩
    · rw [← view_page e st, hm.view_of_ne hq]
      exact ⟨rfl, rfl, rfl, id⟩

/-- The page that an entry maps caches the block that the area has there. -/
lemma RawOk.index_of_pte (h : s.RawOk e d) {vma : VmaId} {i : ℕ} {p : PageId} {w : Bool}
    (hp : s.st.pte (vma, (s.st.vmas vma).addr i) = .map p w) :
    (s.st.pages p).inUse = true ∧ (s.st.pages p).index = (s.st.vmas vma).vmPgoff + i := by
  obtain ⟨hu, hhas⟩ := h.ok.tracks.has hp
  obtain ⟨j, hj, hidx⟩ := hhas.place
  have hij : i = j := (s.st.vmas vma).addr_injective hj
  exact ⟨hu, hij ▸ hidx⟩

lemma RawOk.store (h : s.RawOk e d) {vma : VmaId} {i : ℕ} {f : C → C} {st : State C}
    (hok : ({ s with st := st } : Vfs C).Ok e) (hs : s.st.store vma i f = .ok st) :
    ({ s with st := st } : Vfs C).RawOk e d ∧
      Serves d s { s with st := st } (.buffer (.store vma i f)) := by
  obtain ⟨p, hp, ho, hm⟩ := h.ok.quiet.placed.store hs
  have hpvds : st.pvds = s.st.pvds := congrArg Outside.pvds ho
  have hbit : st.bitmap = s.st.bitmap := congrArg Outside.bitmap ho
  have hpage : ∀ q, (st.pages q).inUse = (s.st.pages q).inUse ∧
      (st.pages q).index = (s.st.pages q).index := by
    intro q
    by_cases hq : q = p
    · rw [hq, hm.pages_self]
      exact ⟨rfl, rfl⟩
    · rw [← view_page e st, hm.view_of_ne hq]
      exact ⟨rfl, rfl⟩
  refine ⟨⟨hok, fun {v} hv => ?_, fun {q r} hq hr hi => ?_, fun {q} hq => ?_⟩,
    fun off x hx hsp => ?_⟩
  · rw [show st.pvds = s.st.pvds from hpvds]
    exact h.raw hv
  · rw [(hpage q).1] at hq
    rw [(hpage r).1] at hr
    rw [(hpage q).2, (hpage r).2] at hi
    exact h.copy.single hq hr hi
  · rw [(hpage q).1] at hq
    rw [hbit, (hpage q).2]
    exact h.copy.bit hq
  · refine hx.store h.ok.quiet.placed (fun q hq => ?_) hs
    rw [(h.index_of_pte hq).2]
    exact hsp

lemma RawOk.fault (h : s.RawOk e d) {vma : VmaId} {i : ℕ} {f : FaultEnv C} {st : State C}
    (ha : s.Apart e (.buffer (.fault vma i f))) (hm : vma ∈ s.areas)
    (hok : ({ s with st := st } : Vfs C).Ok e) (hs : s.st.fault e vma i f = .ok st) :
    ({ s with st := st } : Vfs C).RawOk e d ∧
      Serves d s { s with st := st } (.buffer (.fault vma i f)) := by
  obtain ⟨hfull, hapart⟩ := ha
  have hpvds : st.pvds = s.st.pvds :=
    congrArg Outside.pvds (h.ok.quiet.outside_of_exec (.fault vma i f) rfl hs)
  have hraw : ∀ {v}, s.pvdInUse v = true → (st.pvds v).type = .blkd ∧ (st.pvds v).bk = d := by
    intro v hv
    rw [hpvds]
    exact h.raw hv
  obtain ⟨st₀, hp, hcase⟩ := h.ok.quiet.inv.fault_fills hfull (fun v => h.vmaPvd hm) hapart hs
  rcases hcase with hp' | ⟨p, hf⟩
  · exact ⟨⟨hok, hraw, (h.copy.passes hp).passes hp'⟩, fun _ _ hx _ => (hx.passes hp).passes hp'⟩
  · exact ⟨⟨hok, hraw, (h.copy.passes hp).fills hf⟩, fun _ _ hx _ => (hx.passes hp).fills hf⟩

lemma RawOk.buffer (h : s.RawOk e d) (he : e.writeAsync = driverWriter) {op : Op C}
    (ha : s.Apart e (.buffer op)) (hs : s.rawCall e d (.buffer op) = .ok s') :
    s'.RawOk e d ∧ Serves d s s' (.buffer op) := by
  obtain ⟨hr, st, hx, rfl⟩ := exec_of_buffer hs
  have hok := h.ok.buffer hr hx
  cases op with
  | fault vma i f => exact h.fault ha (by simpa [reaches] using hr) hok hx
  | mkwrite vma i => exact h.mkwrite hok hx
  | store vma i f => exact h.store hok hx
  | evictor id held =>
    obtain rfl : s.st.evictorRoundHeld e id held = st := by simpa [State.exec] using hx
    obtain ⟨v, hb, ho, hsync⟩ := h.ok.quiet.evictorRoundHeld id held
    refine h.passes hok rfl (congrArg Outside.pvds ho) ?_
    have hb' : Batch e (s.st.view e) (Evictable e v) (PageView.synced .fsync)
        (s.st.evictorRoundHeld e id held) [s.st.evictorBatchHeld e id held].flatten := by
      rw [List.flatten_singleton]
      exact hb
    refine h.passes_batch he hb' ho (fun hw => ?_) ha
    rw [List.flatten_singleton]
    exact hsync.synced (hw _ (by simp))
  | purge qid =>
    obtain rfl : s.st.tryPurgePagesFast e qid = st := by simpa [State.exec] using hx
    have hrec := h.ok.quiet.inv.recycles_tryPurgePagesFast qid
    exact h.passes hok rfl (congrArg Outside.pvds hrec.outside_eq) hrec.passes
  | writeDirty cb v => exact absurd hr Bool.false_ne_true
  | rawRelease v => exact absurd hr Bool.false_ne_true

/-- Opening and mapping leave the pages alone. -/
lemma RawOk.open (h : s.RawOk e d) {i : InfoId} {v : PvdId} (hs : s.rawOpen d i v = .ok s') :
    s'.RawOk e d ∧ Serves d s s' (.open i v) := by
  have hok := h.ok.rawOpen hs
  simp only [Vfs.rawOpen] at hs
  split_ifs at hs with hno
  obtain rfl : _ = s' := by simpa using hs
  have hp : Passes d s.st ((s.createPvd v .blkd d).setInfo i v).st :=
    passes_of_eq (fun _ => ⟨rfl, rfl, rfl, id⟩) rfl rfl
  refine ⟨⟨hok, fun {u} hu => ?_, h.copy.passes hp⟩, fun _ _ hx _ => hx.passes hp⟩
  by_cases huv : u = v
  · subst huv
    simp [setInfo, createPvd]
  · simp only [setInfo, createPvd, Function.update_of_ne huv] at hu ⊢
    exact h.raw hu

lemma RawOk.mmap (h : s.RawOk e d) {vma : VmaId} {a : VmArea} {pve : PveId}
    (hs : s.dmapMmap vma a pve = .ok s') : s'.RawOk e d ∧ Serves d s s' (.mmap vma a pve) := by
  have hok := h.ok.dmapMmap hs
  simp only [Vfs.dmapMmap] at hs
  split_ifs at hs with hno
  rw [not_or, Bool.not_eq_false] at hno
  cases hp : (s.st.infos a.info).pvd with
  | none => simp [hp] at hs
  | some v =>
    have ht := (h.raw (h.ok.info_pvd hno.2 hp)).1
    simp only [hp, ht] at hs
    obtain rfl := Except.ok.inj hs
    set st : State C := { s.st with vmas := Function.update s.st.vmas vma a } with hst
    have hsame : (st.permaVmaOpen vma pve).pages = s.st.pages ∧
        (st.permaVmaOpen vma pve).pvds = s.st.pvds ∧ (st.permaVmaOpen vma pve).disk = s.st.disk ∧
        (st.permaVmaOpen vma pve).bitmap = s.st.bitmap := by
      simp only [permaVmaOpen]
      split <;> exact ⟨rfl, rfl, rfl, rfl⟩
    obtain ⟨hpages, hpvds, hdisk, hbit⟩ := hsame
    refine h.passes hok rfl hpvds (passes_of_eq (fun p => ?_) hdisk hbit)
    rw [hpages]
    exact ⟨rfl, rfl, rfl, id⟩

lemma RawOk.munmap (h : s.RawOk e d) {vma : VmaId} (ha : s.Apart e (.munmap vma))
    (hs : s.munmap e vma = .ok s') : s'.RawOk e d ∧ Serves d s s' (.munmap vma) := by
  have hsh := h.ok.sheds_munmap hs
  have hok := h.ok.munmap ha hs
  obtain ⟨-, -, hs'⟩ := munmap_inv hs
  refine h.passes hok (by rw [hs']) (congrArg Outside.pvds hsh.outside_eq)
    (passes_of_eq (fun p => ?_) (congrArg Outside.disk hsh.outside_eq)
      (congrArg Outside.bitmap hsh.outside_eq))
  rw [hsh.pages_eq p]
  exact ⟨rfl, rfl, rfl, id⟩

lemma RawOk.step (h : s.RawOk e d) (he : e.writeAsync = driverWriter) {c : RawCall C}
    (hs : RawSteps e d s c s') : s'.RawOk e d ∧ Serves d s s' c := by
  obtain ⟨ha, -, hs⟩ := hs
  cases c with
  | «open» i v => exact h.open hs
  | mmap vma a pve => exact h.mmap hs
  | munmap vma => exact h.munmap ha hs
  | fsync i => exact h.fsync he ha hs
  | release i => exact h.release he ha hs
  | buffer op => exact h.buffer he ha hs

/-- A call that is not a store into the block. -/
def RawStepsSparing (e : Env C) (d : DevId) (off : Pgoff) (s : Vfs C) (c : RawCall C)
    (s' : Vfs C) : Prop :=
  s.Spares off c ∧ RawSteps e d s c s'

/-- A store fixes what its block holds. -/
lemma RawOk.holds_of_store (h : s.RawOk e d) {vma : VmaId} {i : ℕ} {f : C → C}
    (hs : RawCalls e d s (.buffer (.store vma i f)) s') :
    ∃ c, s'.st.load vma i = some c ∧ s'.st.Holds d ((s.st.vmas vma).vmPgoff + i) c := by
  obtain ⟨-, st, hx, rfl⟩ := exec_of_buffer hs
  obtain ⟨p, hp, ho, hm⟩ := h.ok.quiet.placed.store hx
  have hvmas : st.vmas = s.st.vmas := congrArg Outside.vmas ho
  obtain ⟨hu, hi⟩ := h.index_of_pte hp
  have hpte : st.pte (vma, (s.st.vmas vma).addr i) = .map p true := by
    apply mapping_eq_some.mp
    have hv : (st.view e p).pte = (s.st.view e p).pte := by rw [hm.view_self]
    exact (congrFun hv _).trans (mapping_eq_some.mpr hp)
  -- the page is dirty, and it is the only one that caches the block
  have hdirty : (st.pages p).isDirty = true := by
    rw [hm.pages_self]
    exact h.ok.tracks.dirty_of_writable hp
  have hsingle : ∀ q, (st.pages q).inUse = true →
      (st.pages q).index = (s.st.vmas vma).vmPgoff + i → q = p := by
    intro q huq hiq
    by_contra hq
    rw [← view_page e, hm.view_of_ne hq] at huq hiq
    exact hq (h.copy.single huq hu (hiq.trans hi.symm))
  refine ⟨(st.pages p).content, by simp only [State.load, hvmas, hpte], ?_, ?_, ?_⟩
  · intro q huq hiq
    rw [hsingle q huq hiq]
  · intro hclean
    have hup : (st.pages p).inUse = true := by
      rw [hm.pages_self]
      exact hu
    have hip : (st.pages p).index = (s.st.vmas vma).vmPgoff + i := by
      rw [hm.pages_self]
      exact hi
    exact absurd ((hclean p hup hip).symm.trans hdirty) Bool.false_ne_true
  · rw [show st.bitmap = s.st.bitmap from congrArg Outside.bitmap ho, ← hi]
    exact h.copy.bit hu

/-- What a fault makes visible. -/
lemma RawOk.load_of_fault (h : s.RawOk e d) (h' : s'.RawOk e d) {vma : VmaId} {i : ℕ}
    {f : FaultEnv C} {c : C} (hs : RawCalls e d s (.buffer (.fault vma i f)) s')
    (hc : s'.st.Holds d ((s.st.vmas vma).vmPgoff + i) c) : s'.st.load vma i = some c := by
  obtain ⟨-, st, hx, rfl⟩ := exec_of_buffer hs
  obtain ⟨s₀, v, q, x, y, hf⟩ := h.ok.quiet.inv.fault hx
  have hvmas : st.vmas = s.st.vmas := congrArg Outside.vmas hf.outside_eq
  have hsome : st.pte (vma, (st.vmas vma).addr i) ≠ .none := by
    rw [hvmas]
    exact hf.pte
  cases hpte : st.pte (vma, (st.vmas vma).addr i) with
  | none => exact absurd hpte hsome
  | map p w =>
    obtain ⟨hu, hi⟩ := h'.index_of_pte hpte
    simp only [hvmas] at hi
    have hcont : (st.pages p).content = c := hc.cached hu hi
    simp only [State.load, hpte, hcont]

/-- A call that finds room does not write outside an array. -/
lemma RawOk.not_overruns (h : s.RawOk e d) {c : RawCall C} (hfits : s.RawFits e c) :
    ¬ Overruns (s.rawCall e d c) := by
  cases c with
  | «open» i v => exact h.ok.not_overruns (c := .rawOpen d i v) trivial
  | mmap vma a pve => exact h.ok.not_overruns (c := .mmap vma a pve) trivial
  | munmap vma =>
    simp only [rawCall, Vfs.munmap]
    split_ifs
    · split
      · rename_i x hx
        simp only [permaVmaClose] at hx
        split at hx
        · obtain rfl : .nullDeref = x := by simpa using hx
          exact not_overruns_error (by simp) (by simp)
        · split_ifs at hx
      · exact not_overruns_ok _
    · exact not_overruns_error (by simp) (by simp)
  | fsync i => exact h.ok.not_overruns (c := .fsync i) hfits
  | release i => exact h.ok.not_overruns (c := .release i) fun _ => hfits
  | buffer op => exact h.ok.not_overruns (c := .buffer op) hfits

/-- As long as blocks are faulted in only while no other opener caches them, and the calls find room
in the arrays that they write, at most one page caches a block of the device, and a fault of any
opener returns what was last stored in the block. -/
theorem one_copy_per_block (e : Env C) (he : e.writeAsync = driverWriter) (d : DevId) (w : World C)
    (cs : List (RawCall C)) (s : Vfs C) (hr : Run (RawSteps e d) (init e w) cs s) :
    (∀ p q u v, (s.st.pages p).inUse = true → (s.st.pages q).inUse = true →
      (s.st.pages p).pvd = some u → (s.st.pages q).pvd = some v →
      (s.st.pvds u).bk = (s.st.pvds v).bk → (s.st.pages p).index = (s.st.pages q).index → p = q) ∧
    (∀ vma i f s₁, RawSteps e d s (.buffer (.store vma i f)) s₁ →
      ∀ cs' s₂, Run (RawStepsSparing e d ((s.st.vmas vma).vmPgoff + i)) s₁ cs' s₂ →
      ∀ vma' i' f' s₃, (s₂.st.vmas vma').vmPgoff + i' = (s.st.vmas vma).vmPgoff + i →
      RawSteps e d s₂ (.buffer (.fault vma' i' f')) s₃ →
        s₃.st.load vma' i' = s₁.st.load vma i) ∧
    ∀ c, s.RawFits e c → ¬ Overruns (s.rawCall e d c) := by
  have h : s.RawOk e d := hr.invariant (fun _ _ _ h hs => (h.step he hs).1) (rawOk_init e d w)
  refine ⟨fun p q _ _ hp hq _ _ _ hi => h.copy.single hp hq hi, ?_, fun c hf => h.not_overruns hf⟩
  intro vma i f s₁ hstore cs' s₂ hrun vma' i' f' s₃ hoff hfault
  obtain ⟨c, hload, hc⟩ := h.holds_of_store hstore.2.2
  rw [hload]
  -- the block holds the stored content from the store on
  have hkeep : s₂.RawOk e d ∧ s₂.st.Holds d ((s.st.vmas vma).vmPgoff + i) c := by
    refine hrun.invariant (I := fun t => t.RawOk e d ∧
      t.st.Holds d ((s.st.vmas vma).vmPgoff + i) c) ?_ ⟨(h.step he hstore).1, hc⟩
    rintro t call t' ⟨ht, hct⟩ ⟨hsp, hst⟩
    obtain ⟨ht', hserve⟩ := ht.step he hst
    exact ⟨ht', hserve _ _ hct hsp⟩
  obtain ⟨h₂, hc₂⟩ := hkeep
  obtain ⟨h₃, hserve⟩ := h₂.step he hfault
  have hc₃ := hserve _ _ hc₂ trivial
  rw [← hoff] at hc₃
  exact h₂.load_of_fault h₃ hfault.2.2 hc₃

/-- The state after a sequence of calls, if all of them complete. -/
def rawCallAll (e : Env C) (d : DevId) (s : Vfs C) (cs : List (RawCall C)) : Option (Vfs C) :=
  cs.foldlM (fun s c => (s.rawCall e d c).toOption) s

lemma run_rawCallAll {cs : List (RawCall C)} (h : rawCallAll e d s cs = some s') :
    Run (RawCalls e d) s cs s' :=
  Run.of_foldlM (fun _ _ _ hs => Except.toOption_eq_some.mp hs) h

/-- A test of the conditions, for the calls of the examples below. -/
def apart (e : Env C) (s : Vfs C) : RawCall C → Bool
  | .munmap _ => false
  | .release _ => false
  | .fsync _ => false
  | .buffer (.fault vma i f) => (f.read matches .full) && (List.range e.numPages).all fun p =>
      !(s.st.pages p).inUse || (s.st.pages p).index != (s.st.vmas vma).vmPgoff + i
  | .buffer (.evictor id held) => (s.st.evictorBatchHeld e id held).length ≤ 256
  | _ => true

lemma RawOk.apart (h : s.RawOk e d) {c : RawCall C} (ha : s.apart e c = true) : s.Apart e c := by
  cases c with
  | «open» i v => trivial
  | mmap vma a pve => trivial
  | munmap vma => exact absurd ha Bool.false_ne_true
  | fsync i => exact absurd ha Bool.false_ne_true
  | release i => exact absurd ha Bool.false_ne_true
  | buffer op =>
    cases op with
    | fault vma i f =>
      simp only [Vfs.apart, Bool.and_eq_true, List.all_eq_true, List.mem_range] at ha
      obtain ⟨hfull, hfree⟩ := ha
      refine ⟨?_, fun p v hu _ hi => ?_⟩
      · cases hread : f.read with
        | full => rfl
        | short mix => simp [hread] at hfull
      · have hlt : p < e.numPages :=
          ((h.ok.quiet.page p).phase.resolve_left fun hidle =>
            Bool.false_ne_true (hidle.inUse.symm.trans hu)).lt
        have hp := hfree p hlt
        simp [hu, hi] at hp
    | evictor id held =>
      have hle : (s.st.evictorBatchHeld e id held).length ≤ 256 := by simpa [Vfs.apart] using ha
      rintro b hb ⟨k, hk, -⟩
      rw [List.mem_singleton.mp hb] at hk
      omega
    | _ => trivial

/-- On a block that is not cached a fault finds room. -/
lemma RawOk.rawFits (h : s.RawOk e d) (hcpus : e.ncpus ≤ maxCpus) {c : RawCall C}
    (ha : s.apart e c = true) : s.RawFits e c := by
  cases c with
  | fsync i => exact fun v _ => syncFits_of_ncpus hcpus
  | release i => exact fun v _ => syncFits_of_ncpus hcpus
  | buffer op =>
    apply h.ok.quiet.fits hcpus
    cases op with
    | fault vma i f =>
      simp only [Vfs.apart, Bool.and_eq_true, List.all_eq_true, List.mem_range] at ha
      simp only [State.fits, List.all_eq_true, List.mem_range]
      intro p hp
      have hfree := ha.2 p hp
      simp only [Bool.or_eq_true] at hfree ⊢
      exact Or.inl (Or.inl hfree)
    | _ => rfl
  | _ => trivial

/-- A call that passes the test and completes. -/
def rawStep (e : Env C) (d : DevId) (s : Vfs C) (c : RawCall C) : Option (Vfs C) :=
  if s.apart e c then (s.rawCall e d c).toOption else none

lemma RawOk.steps_rawStep (h : s.RawOk e d) (hcpus : e.ncpus ≤ maxCpus) {c : RawCall C}
    (hs : rawStep e d s c = some s') : RawSteps e d s c s' := by
  simp only [rawStep] at hs
  split_ifs at hs with ha
  exact ⟨h.apart ha, h.rawFits hcpus ha, Except.toOption_eq_some.mp hs⟩

lemma RawOk.run_rawStep (h : s.RawOk e d) (he : e.writeAsync = driverWriter)
    (hcpus : e.ncpus ≤ maxCpus) {cs : List (RawCall C)} (hs : cs.foldlM (rawStep e d) s = some s') :
    Run (RawSteps e d) s cs s' ∧ s'.RawOk e d := by
  have hr : Run (fun s c s' => rawStep e d s c = some s') s cs s' :=
    Run.of_foldlM (fun _ _ _ hs => hs) hs
  refine hr.mono_invariant (fun t c t' ht hc => ?_) h
  have hstep := ht.steps_rawStep hcpus hc
  exact ⟨hstep, (ht.step he hstep).1⟩

/-- Two openers of device 0, each with an area of its own; the first has its first block mapped
writable. -/
def twoOpeners : List (RawCall ℕ) :=
  [.open 0 0, .open 1 1, .mmap 0 ⟨0, 8 * pageSize, 0, 0⟩ 0, .mmap 1 ⟨0, 8 * pageSize, 0, 1⟩ 1,
    .buffer (.fault 0 0 smallFault), .buffer (.mkwrite 0 0)]

set_option maxRecDepth 4000 in
/-- The page that the first opener has written is evicted and reclaimed before the second one faults
on the block. -/
theorem one_copy_per_block_evicted :
    ∃ s s₁ s₂ s₃, Run (RawSteps smallEnv 0) (init smallEnv smallWorld) twoOpeners s ∧
      RawSteps smallEnv 0 s (.buffer (.store 0 0 fun _ => 7)) s₁ ∧ s₁.st.load 0 0 = some 7 ∧
      Run (RawStepsSparing smallEnv 0 0) s₁ [.buffer (.evictor 0 []), .buffer (.purge 0)] s₂ ∧
      RawSteps smallEnv 0 s₂ (.buffer (.fault 1 0 smallFault)) s₃ ∧ s₃.st.load 1 0 = some 7 := by
  have h : ((twoOpeners.foldlM (rawStep smallEnv 0) (init smallEnv smallWorld)).bind fun s =>
      (rawStep smallEnv 0 s (.buffer (.store 0 0 fun _ => 7))).bind fun s₁ =>
        ([.buffer (.evictor 0 []), .buffer (.purge 0)].foldlM (rawStep smallEnv 0) s₁).bind
          fun s₂ =>
          (rawStep smallEnv 0 s₂ (.buffer (.fault 1 0 smallFault))).map fun _ =>
            (s₁.st.load 0 0, (s.st.vmas 0).vmPgoff, (s₂.st.vmas 1).vmPgoff)) =
      some (some 7, 0, 0) := by decide +kernel
  obtain ⟨s, hs, h⟩ := Option.bind_eq_some_iff.mp h
  obtain ⟨s₁, hs₁, h⟩ := Option.bind_eq_some_iff.mp h
  obtain ⟨s₂, hs₂, h⟩ := Option.bind_eq_some_iff.mp h
  obtain ⟨s₃, hs₃, h⟩ := Option.map_eq_some_iff.mp h
  obtain ⟨hload, hoff⟩ := Prod.mk.inj h
  obtain ⟨hoff, hoff'⟩ := Prod.mk.inj hoff
  obtain ⟨hr, hok⟩ := (rawOk_init smallEnv 0 smallWorld).run_rawStep rfl (by decide) hs
  have hstore := hok.steps_rawStep (by decide) hs₁
  have hok₁ := (hok.step rfl hstore).1
  obtain ⟨hr₂, hok₂⟩ := hok₁.run_rawStep rfl (by decide) hs₂
  have hfault := hok₂.steps_rawStep (by decide) hs₃
  have hspare : ∀ off, Run (RawStepsSparing smallEnv 0 off) s₁
      [.buffer (.evictor 0 []), .buffer (.purge 0)] s₂ := by
    intro off
    refine Run.mono_of_mem (fun t c t' hc ht => ⟨?_, ht⟩) hr₂
    simp only [List.mem_cons, List.not_mem_nil, or_false] at hc
    rcases hc with rfl | rfl <;> trivial
  have hread := (one_copy_per_block smallEnv rfl 0 smallWorld twoOpeners s hr).2.1 0 0 _ s₁
    hstore _ s₂
    (hspare _) 1 0 smallFault s₃ (by rw [hoff, hoff']) hfault
  exact ⟨s, s₁, s₂, s₃, hr, hstore, hload, hspare 0, hfault, hread.trans hload⟩

set_option maxRecDepth 4000 in
/-- The second opener faults on the block that the first one has written: there are two copies, and
the second opener does not see what was stored. -/
theorem two_copies_of_block : ∃ s,
    Run (RawCalls smallEnv 0) (init smallEnv smallWorld)
      (twoOpeners ++ [.buffer (.store 0 0 fun _ => 7), .buffer (.fault 1 0 smallFault)]) s ∧
    (s.st.pages 0).inUse = true ∧ (s.st.pages 1).inUse = true ∧
    (s.st.pages 0).pvd = some 0 ∧ (s.st.pages 1).pvd = some 1 ∧
    (s.st.pvds 0).bk = (s.st.pvds 1).bk ∧ (s.st.pages 0).index = (s.st.pages 1).index ∧
    s.st.load 0 0 = some 7 ∧ s.st.load 1 0 = some 0 := by
  have h : ((rawCallAll smallEnv 0 (init smallEnv smallWorld)
      (twoOpeners ++ [.buffer (.store 0 0 fun _ => 7), .buffer (.fault 1 0 smallFault)])).map
        fun s =>
        decide ((s.st.pages 0).inUse = true ∧ (s.st.pages 1).inUse = true ∧
          (s.st.pages 0).pvd = some 0 ∧ (s.st.pages 1).pvd = some 1 ∧
          (s.st.pvds 0).bk = (s.st.pvds 1).bk ∧ (s.st.pages 0).index = (s.st.pages 1).index ∧
          s.st.load 0 0 = some 7 ∧ s.st.load 1 0 = some 0)) = some true := by decide +kernel
  obtain ⟨s, hs, hp⟩ := Option.map_eq_some_iff.mp h
  exact ⟨s, run_rawCallAll hs, of_decide_eq_true hp⟩

end Vfs

end FastMap
