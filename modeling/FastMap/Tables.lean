import FastMap.Sync
import FastMap.Teardown
import FastMap.System

/-!
# Page tables and reverse mappings

An entry that maps a page is recorded in a slot of the page, and a slot belongs to an area of the
page's file. `Tracked` says so for one page, together with the rule that only dirty pages are
mapped writable. It is the part of the invariant that write protection and removal of mappings
rely on.
-/

namespace FastMap

variable {C : Type*}

/-- The mapped areas: where they lie and which file they map. -/
structure Areas where
  live : VmaId → Prop
  area : VmaId → VmArea
  pvd : VmaId → Option PvdId

/-- The page is the one that an area has at address `a`. -/
structure Areas.Has (A : Areas) (t : TaggedPage C) (vma : VmaId) (a : ℕ) : Prop where
  live : A.live vma
  pvd : t.pvd = A.pvd vma
  place : ∃ i, a = (A.area vma).addr i ∧ t.index = (A.area vma).vmPgoff + i

/-- What the page tables may say about a page. -/
structure PageView.Tracked (A : Areas) (x : PageView C) : Prop where
  entry {a : VmaId × ℕ} {w : Bool} : x.pte a = some w →
    x.page.inUse = true ∧ x.page.covers a ∧ (w = true → x.page.isDirty = true)
  slot {j : Fin maxRmapsPerPage} : x.page.inUse = true → (x.page.rmap j).valid = true →
    A.Has x.page (x.page.rmap j).vma (x.page.rmap j).vaddr

variable {A : Areas} {e : Env C} {p : PageId} {x y : PageView C}

lemma VmArea.addr_injective (a : VmArea) : Function.Injective a.addr := by
  intro i j h
  simp only [VmArea.addr, pageSize] at h
  omega

/-- An area has a page at one address only. -/
lemma Areas.Has.addr_unique {t : TaggedPage C} {vma : VmaId} {a b : ℕ} (ha : A.Has t vma a)
    (hb : A.Has t vma b) : a = b := by
  obtain ⟨i, rfl, hi⟩ := ha.place
  obtain ⟨j, rfl, hj⟩ := hb.place
  rw [Nat.add_left_cancel (hi.symm.trans hj)]

namespace PageView

lemma Tracked.has (h : x.Tracked A) {a : VmaId × ℕ} {w : Bool} (ha : x.pte a = some w) :
    A.Has x.page a.1 a.2 := by
  obtain ⟨hu, ⟨j, hv, rfl⟩, -⟩ := h.entry ha
  exact h.slot hu hv

/-- A page that is not in use is not mapped. -/
lemma Tracked.pte_eq_none (h : x.Tracked A) (hu : x.page.inUse = false) (a : VmaId × ℕ) :
    x.pte a = none := by
  rw [Option.eq_none_iff_forall_ne_some]
  intro w hw
  exact Bool.false_ne_true (hu.symm.trans (h.entry hw).1)

lemma tracked_of_unmapped (hu : x.page.inUse = false) (hp : ∀ a, x.pte a = none) :
    x.Tracked A where
  entry ha := by simp [hp] at ha
  slot h := absurd (hu.symm.trans h) Bool.false_ne_true

/-- A reclaimed page is not mapped. -/
lemma Tracked.recycled (h : x.Tracked A) (hr : Recycled e p x y) : y.Tracked A := by
  refine tracked_of_unmapped hr.idle.inUse fun a => ?_
  rw [Option.eq_none_iff_forall_ne_some]
  intro w hw
  obtain ⟨hx, hc⟩ := hr.pte hw
  obtain ⟨hu, hcov, -⟩ := h.entry hx
  exact hc hu hcov

/-- A page that a fault has filled is not mapped yet. -/
lemma Tracked.filled (h : x.Tracked A) (hu : x.page.inUse = false) (cpu : ℕ) (offset : Pgoff)
    (v : PvdId) (c : C) : (x.filled cpu offset v c).Tracked A where
  entry ha := by
    rw [show (x.filled cpu offset v c).pte = x.pte from rfl, h.pte_eq_none hu] at ha
    exact absurd ha (by simp)
  slot _ hv := absurd hv Bool.false_ne_true

/-- Mapping a page of the area at the address of the fault. -/
lemma Tracked.mapped (h : x.Tracked A) {vmf : VmFault} (hm : Mapped vmf x y)
    (hu : x.page.inUse = true) (ha : A.Has x.page vmf.vma vmf.address) : y.Tracked A := by
  have hpage : y.page = { x.page with rmap := y.page.rmap, locked := false } :=
    congrArg PageView.page hm.same
  have hx : ∀ {vma a}, A.Has y.page vma a ↔ A.Has x.page vma a := by
    intro vma a
    rw [hpage]
    exact ⟨fun h => ⟨h.live, h.pvd, h.place⟩, fun h => ⟨h.live, h.pvd, h.place⟩⟩
  have hu' : y.page.inUse = true := by
    rw [hpage]
    exact hu
  -- the slots: the old ones, and one for the area of the fault
  have hcov : (∀ a, x.page.covers a → y.page.covers a) ∧
      y.page.covers (vmf.vma, vmf.address) ∧
      ∀ j, (y.page.rmap j).valid = true →
        A.Has y.page (y.page.rmap j).vma (y.page.rmap j).vaddr := by
    rcases hm.rmap with ⟨i, hv, hvma, hr⟩ | ⟨i, cpu, hv, -, hr⟩
    · refine ⟨fun a => ?_, ⟨i, by rw [hr]; exact hv, ?_⟩, fun j hj => ?_⟩
      · simp only [TaggedPage.covers, hr, imp_self]
      · have hi := h.slot hu hv
        rw [hvma] at hi
        rw [hr, hvma, hi.addr_unique ha]
      · rw [hx, hr]
        rw [hr] at hj
        exact h.slot hu hj
    · refine ⟨?_, ⟨i, by rw [hr, Function.update_self], by rw [hr, Function.update_self]⟩,
        fun j hj => ?_⟩
      · rintro a ⟨j, hj, rfl⟩
        have hji : j ≠ i := by
          rintro rfl
          exact Bool.false_ne_true (hv.symm.trans hj)
        exact ⟨j, by rw [hr, Function.update_of_ne hji]; exact hj,
          by rw [hr, Function.update_of_ne hji]⟩
      · rw [hx]
        by_cases hji : j = i
        · subst hji
          rw [hr, Function.update_self]
          exact ha
        · rw [hr, Function.update_of_ne hji] at hj ⊢
          exact h.slot hu hj
  obtain ⟨hold, hnew, hslot⟩ := hcov
  refine ⟨fun {a w} hy => ⟨hu', ?_⟩, fun _ hj => hslot _ hj⟩
  have hcase : x.pte a = some w ∨ a = (vmf.vma, vmf.address) ∧ w = false := by
    rcases hm.pte with hp | hp
    · exact Or.inl (hp ▸ hy)
    · rw [hp] at hy
      by_cases hav : a = (vmf.vma, vmf.address)
      · subst hav
        exact Or.inr ⟨rfl, by simpa using hy.symm⟩
      · rw [Function.update_of_ne hav] at hy
        exact Or.inl hy
  rcases hcase with hp | ⟨rfl, rfl⟩
  · obtain ⟨-, hc, hd⟩ := h.entry hp
    refine ⟨hold a hc, fun hw => ?_⟩
    rw [hpage]
    exact hd hw
  · exact ⟨hnew, fun hw => absurd hw (by simp)⟩

/-- A dirty page may be mapped writable wherever it is mapped. -/
lemma Tracked.dirtied (h : x.Tracked A) {a : VmaId × ℕ} {w : Bool} (ha : x.pte a = some w) :
    PageView.Tracked A { x.dirtied with pte := Function.update x.pte a (some true) } where
  entry {b w'} hb := by
    have hx : ∃ w'', x.pte b = some w'' := by
      by_cases hba : b = a
      · exact ⟨w, hba ▸ ha⟩
      · exact ⟨w', by simpa [Function.update_of_ne hba] using hb⟩
    obtain ⟨w'', hw''⟩ := hx
    obtain ⟨hu, hc, -⟩ := h.entry hw''
    exact ⟨hu, hc, fun _ => rfl⟩
  slot hu hv := ⟨(h.slot hu hv).live, (h.slot hu hv).pvd, (h.slot hu hv).place⟩

/-- A page that is made clean while nothing maps it writable. -/
lemma Tracked.cleaned (h : x.Tracked A) (hw : ∀ a, x.pte a ≠ some true) :
    x.cleaned.Tracked A where
  entry {a w} ha := by
    obtain ⟨hu, hc, -⟩ := h.entry (show x.pte a = some w from ha)
    exact ⟨hu, hc, fun h1 => absurd (h1 ▸ ha) (hw a)⟩
  slot hu hv := ⟨(h.slot hu hv).live, (h.slot hu hv).pvd, (h.slot hu hv).place⟩

/-- `clear_mappings` leaves no writable entry of the page. -/
lemma Tracked.wrprotected_pte (h : x.Tracked A) (a : VmaId × ℕ) :
    x.wrprotected.pte a = (x.pte a).map fun _ => false := by
  rw [PageView.wrprotected_pte]
  split_ifs with hc
  · rfl
  · cases hx : x.pte a with
    | none => rfl
    | some w => exact absurd (h.entry hx).2.1 hc

lemma Tracked.evicted (h : x.Tracked A) : x.evicted.Tracked A where
  entry {a w} ha := by
    rw [show x.evicted.pte = x.wrprotected.pte from rfl, h.wrprotected_pte,
      Option.map_eq_some_iff] at ha
    obtain ⟨w', hx, rfl⟩ := ha
    obtain ⟨hu, hc, -⟩ := h.entry hx
    exact ⟨hu, hc, fun h1 => absurd h1 (by simp)⟩
  slot hu hv := ⟨(h.slot hu hv).live, (h.slot hu hv).pvd, (h.slot hu hv).place⟩

lemma Tracked.content (h : x.Tracked A) (c : C) :
    PageView.Tracked A { x with page := { x.page with content := c } } where
  entry ha := h.entry ha
  slot hu hv := ⟨(h.slot hu hv).live, (h.slot hu hv).pvd, (h.slot hu hv).place⟩

end PageView

namespace State

variable {s s' : State C} {v : PvdId}

/-- Every page is tracked. -/
def Tracks (e : Env C) (A : Areas) (s : State C) : Prop := ∀ p, (s.view e p).Tracked A

lemma Tracks.recycles (h : s.Tracks e A) (hr : Recycles e s s') : s'.Tracks e A := by
  intro q
  rcases hr.view_cases q with hq | hq
  · rw [hq]
    exact h q
  · exact (h q).recycled hq

lemma Tracks.resolves (h : s.Tracks e A) (hr : Resolves e s s' p y) (hy : y.Tracked A) :
    s'.Tracks e A := by
  intro q
  by_cases hq : q = p
  · rw [hq, hr.view_self]
    exact hy
  · rcases hr.other hq with hv | ⟨-, hv⟩
    · rw [hv]
      exact h q
    · exact (h q).recycled hv

lemma Tracks.batch (h : s.Tracks e A) {P : PageId → PageView C → Prop}
    {g : PageView C → PageView C} {pgs : List PageId} (hb : Batch e (s.view e) P g s' pgs)
    (hg : ∀ p ∈ pgs, P p (s.view e p) → (g (s.view e p)).Tracked A) : s'.Tracks e A := by
  intro q
  by_cases hq : q ∈ pgs
  · rw [hb.view_of_mem hq]
    exact hg q hq (hb.all hq)
  · rw [hb.view_of_not_mem hq]
    exact h q

/-- Only the areas that are mapped matter. -/
lemma Tracks.areas {B : Areas} (h : s.Tracks e A) (hl : ∀ vma, A.live vma →
    B.live vma ∧ B.area vma = A.area vma ∧ B.pvd vma = A.pvd vma) : s.Tracks e B := by
  intro p
  constructor
  · exact (h p).entry
  · intro j hu hv
    have hj := (h p).slot hu hv
    obtain ⟨hlive, harea, hpvd⟩ := hl _ hj.live
    exact ⟨hlive, hj.pvd.trans hpvd.symm, by rw [harea]; exact hj.place⟩

lemma Tracks.of_view (h : s.Tracks e A) (hv : s'.view e = s.view e) : s'.Tracks e A := by
  intro p
  rw [hv]
  exact h p

/-- The page that an entry maps. -/
lemma Tracks.has (h : s.Tracks e A) {a : VmaId × ℕ} {w : Bool} (hp : s.pte a = .map p w) :
    (s.pages p).inUse = true ∧ A.Has (s.pages p) a.1 a.2 :=
  ⟨((h p).entry (mapping_eq_some.mpr hp)).1, (h p).has (mapping_eq_some.mpr hp)⟩

lemma Tracks.dirty_of_writable (h : s.Tracks e A) {a : VmaId × ℕ} (hp : s.pte a = .map p true) :
    (s.pages p).isDirty = true :=
  ((h p).entry (mapping_eq_some.mpr hp)).2.2 rfl

/-- A page that an entry maps is cached for the file of the area. -/
lemma Tracks.lookup (h : s.Tracks e A) (hi : s.Inv e) {a : VmaId × ℕ} {w : Bool}
    (hp : s.pte a = .map p w) (hv : A.pvd a.1 = some v) :
    Resident e p (s.view e p) ∧ (s.pages p).pvd = some v ∧
      s.fmapRadixLookup e v (s.pages p).index = some p := by
  obtain ⟨hu, hh⟩ := h.has hp
  have hr : Resident e p (s.view e p) :=
    (hi.page p).resolve_left fun hidle => Bool.false_ne_true (hidle.inUse.symm.trans hu)
  have hpv : (s.pages p).pvd = some v := hh.pvd.trans hv
  exact ⟨hr, hpv, hi.placed.treeLookup_iff.mpr ⟨hr.cached, hpv, rfl⟩⟩

/-! ### Every call -/

lemma Tracks.fault (h : s.Tracks e A) (hi : s.Inv e) {vma : VmaId} {i : ℕ} {f : FaultEnv C}
    (hl : A.live vma) (hv : A.pvd vma = s.vmaPvd vma) (ha : A.area vma = s.vmas vma)
    (hs : s.fault e vma i f = .ok s') : s'.Tracks e A := by
  obtain ⟨s₀, v, p, x, y, hf⟩ := hi.fault hs
  have h₀ := h.recycles hf.recycles
  have hres := hf.resident hi
  have hx : x.Tracked A ∧ x.page.pvd = some v ∧ x.page.index = (s.vmFault vma i).pgoff := by
    rcases hf.found with ⟨-, -, hpv, hpi, rfl⟩ | ⟨hfree, -, rfl⟩
    · exact ⟨h₀ p, hpv, hpi⟩
    · have hidle := Idle.of_free ((hf.recycles.inv hi).page p) hfree
      exact ⟨(h₀ p).filled hidle.inUse _ _ _ _, rfl, rfl⟩
  obtain ⟨hx, hpv, hpi⟩ := hx
  refine h₀.resolves hf.resolves (hx.mapped hf.mapped hres.inUse ⟨hl, ?_, i, ?_, ?_⟩)
  · exact hpv.trans (hf.pvd.symm.trans hv.symm)
  · rw [show A.area (s.vmFault vma i).vma = s.vmas vma from ha]
    rfl
  · rw [show A.area (s.vmFault vma i).vma = s.vmas vma from ha]
    exact hpi

/-- Where the tables are tracked, a write fault is taken on a page of the area's file. -/
lemma Tracks.cachedMapping (h : s.Tracks e A) (hi : s.Inv e) {vma : VmaId}
    (hv : A.pvd vma = s.vmaPvd vma) (ha : A.area vma = s.vmas vma) (hs : (s.vmaPvd vma).isSome)
    (i : ℕ) : s.cachedMapping e vma i = true := by
  obtain ⟨v, hv'⟩ := Option.isSome_iff_exists.mp hs
  simp only [State.cachedMapping]
  cases hp : s.pte (vma, (s.vmas vma).addr i) with
  | none => rfl
  | map p w =>
    obtain ⟨-, -, hl⟩ := h.lookup hi hp (hv.trans hv')
    obtain ⟨-, hh⟩ := h.has hp
    obtain ⟨j, hj, hidx⟩ := hh.place
    simp only [ha] at hj hidx
    rw [← (s.vmas vma).addr_injective hj] at hidx
    rw [hidx] at hl
    simp [hv', hl]

/-- A write fault needs a file to complete. -/
lemma vmaPvd_of_mkwrite {vma : VmaId} {i : ℕ} (hs : s.mkwrite e vma i = .ok s') :
    (s.vmaPvd vma).isSome := by
  simp only [State.mkwrite, permaPageMkwrite] at hs
  cases hv : s.vmaPvd vma with
  | none =>
    split at hs
    · exact absurd hs (by simp)
    · simp [State.vmFault, hv] at hs
  | some v => rfl

lemma Tracks.mkwrite (h : s.Tracks e A) (hi : s.Inv e) {vma : VmaId} {i : ℕ}
    (hc : s.cachedMapping e vma i = true) (hs : s.mkwrite e vma i = .ok s') : s'.Tracks e A := by
  rcases hi.mkwrite hc hs with rfl | ⟨p, v, w, hp, -, -, -, -, -, -, hm⟩
  · exact h
  · exact h.resolves hm.resolves ((h p).dirtied (mapping_eq_some.mpr hp))

lemma Tracks.store (h : s.Tracks e A) (hi : s.Inv e) {vma : VmaId} {i : ℕ} {f : C → C}
    (hs : s.store vma i f = .ok s') : s'.Tracks e A := by
  obtain ⟨p, -, -, hm⟩ := hi.placed.store hs
  exact h.resolves hm.resolves ((h p).content _)

/-- A sync with the callback of an fsync; one with the callback of a release, if nothing maps a
dirty page of the file writable. -/
lemma Tracks.writeDirtyPages (h : s.Tracks e A) (hi : s.Inv e) {cb : Cleanup}
    (hcb : cb = .release → ∀ p a, (s.pages p).pvd = some v → (s.pages p).isDirty = true →
      s.pte a ≠ .map p true) (hs : s.writeDirtyPages e cb v = .ok s') : s'.Tracks e A := by
  have hl := hi.writeDirtyPages hs
  refine h.batch hl.batch fun p _ hp => ?_
  cases cb with
  | fsync => exact (h p).evicted
  | release =>
    refine (h p).cleaned fun a ha => ?_
    exact hcb rfl p a hp.2.2.2 hp.2.1 (mapping_eq_some.mp ha)

/-- A release of a device, if nothing maps its pages. -/
lemma Tracks.rawRelease (h : s.Tracks e A) (hi : s.Inv e)
    (hn : ∀ p, (s.pages p).pvd = some v → ∀ a w, s.pte a ≠ .map p w)
    (hs : s.rawRelease e v = .ok s') : s'.Tracks e A := by
  obtain ⟨s₁, pgs, hw, hl, hc⟩ := hi.rawRelease hs
  have h₁ : s₁.Tracks e A := by
    apply h.writeDirtyPages hi _ hw
    intro _ p a hp _
    exact hn p hp a true
  refine h₁.batch hc.batch fun p _ hp => ?_
  apply PageView.tracked_of_unmapped rfl
  intro a
  rw [Option.eq_none_iff_forall_ne_some]
  intro b hb
  -- the page was as unmapped before the sync
  have hb₁ : (s₁.view e p).pte a = some b := hb
  have hv₁ : (s₁.view e p).page.pvd = some v := hp.2.1
  by_cases hpl : p ∈ (s.syncBatches e .release v).flatten
  · rw [hl.batch.view_of_mem hpl] at hb₁ hv₁
    exact hn p hv₁ a b (mapping_eq_some.mp hb₁)
  · rw [hl.batch.view_of_not_mem hpl] at hb₁ hv₁
    exact hn p hv₁ a b (mapping_eq_some.mp hb₁)

lemma Tracks.evictor (h : s.Tracks e A) (hq : s.Quiet e) (id : ℕ) (held : List PageId) :
    (s.evictorRoundHeld e id held).Tracks e A := by
  obtain ⟨v, hb, -⟩ := hq.evictorRoundHeld id held
  exact h.batch hb fun p _ _ => (h p).evicted

end State

end FastMap
