import FastMap.Capacity

/-!
# Writable pages are dirty

Several descriptors of a file share one pvd. A sync through any of them makes pages clean that
another one maps. `fsync` write protects these pages first; the release of a file does not. As
long as no file is released while one of its dirty pages is mapped writable, only dirty pages are
ever mapped writable.
-/

namespace FastMap

variable {C : Type*}

namespace State

variable {e : Env C} {s s' : State C} {p : PageId} {v : PvdId}

/-- After a call a page caches a block of the file it cached before, unless it was filled by a
fault. -/
lemma Quiet.pvd_of_exec (h : s.Quiet e) {op : Op C} (hi : s.issued e op = true)
    (hs : s.exec e op = .ok s') (hu : (s'.pages p).inUse = true) (hv : (s'.pages p).pvd = some v) :
    ((s.pages p).inUse = true ∧ (s.pages p).pvd = some v) ∨
      ∃ vma i f, op = .fault vma i f ∧ s.vmaPvd vma = some v := by
  have hrec : ∀ {t t' : State C}, Recycles e t t' → (t'.pages p).inUse = true →
      t'.pages p = t.pages p := by
    intro t t' hr hu'
    rcases hr.view_cases p with hp | hp
    · exact congrArg PageView.page hp
    · exact absurd (hp.idle.inUse.symm.trans hu') Bool.false_ne_true
  have hbatch : ∀ (cb : Cleanup) {v' : PvdId} {pgs : List PageId} {t : State C},
      Batch e (s.view e) (Evictable e v') (PageView.synced cb) t pgs →
      (t.pages p).inUse = (s.pages p).inUse ∧ (t.pages p).pvd = (s.pages p).pvd := by
    intro cb v' pgs t hb
    by_cases hp : p ∈ pgs
    · rw [hb.pages_of_mem hp]
      exact ⟨rfl, rfl⟩
    · rw [hb.pages_of_not_mem hp]
      exact ⟨rfl, rfl⟩
  -- one page changes, and keeps its owner
  have hmove : ∀ {q : PageId} {x : PageView C}, Moves e s s' q x →
      x.page.inUse = (s.pages q).inUse → x.page.pvd = (s.pages q).pvd →
        (s.pages p).inUse = true ∧ (s.pages p).pvd = some v := by
    intro q x hm hxu hxv
    by_cases hpq : p = q
    · subst hpq
      rw [hm.pages_self] at hu hv
      exact ⟨hxu.symm.trans hu, hxv.symm.trans hv⟩
    · rw [← view_page e, hm.view_of_ne hpq] at hu hv
      exact ⟨hu, hv⟩
  cases op with
  | fault vma i f =>
    obtain ⟨s₀, v', q, x, y, hf⟩ := h.inv.fault hs
    have hback : s'.pages p = s₀.pages p → (s.pages p).inUse = true ∧ (s.pages p).pvd = some v := by
      intro heq
      rw [heq] at hu hv
      rw [← hrec hf.recycles hu]
      exact ⟨hu, hv⟩
    by_cases hpq : p = q
    · subst hpq
      have hpage : s'.pages p = { x.page with rmap := y.page.rmap, locked := false } := by
        rw [← view_page e, hf.resolves.view_self]
        exact congrArg PageView.page hf.mapped.same
      rw [hpage] at hv
      refine Or.inr ⟨vma, i, f, rfl, ?_⟩
      rcases hf.found with ⟨-, -, hpv, -, rfl⟩ | ⟨-, -, rfl⟩
      · exact hf.pvd.trans (hpv.symm.trans hv)
      · exact hf.pvd.trans hv
    · rcases hf.resolves.other hpq with heq | ⟨-, hr⟩
      · exact Or.inl (hback (congrArg PageView.page heq))
      · exact absurd (hr.idle.inUse.symm.trans hu) Bool.false_ne_true
  | mkwrite vma i =>
    rcases h.inv.mkwrite hi hs with rfl | ⟨q, v', w, -, -, -, -, -, -, -, hm⟩
    · exact Or.inl ⟨hu, hv⟩
    · exact Or.inl (hmove hm rfl rfl)
  | store vma i f =>
    obtain ⟨q, -, -, hm⟩ := h.placed.store hs
    exact Or.inl (hmove hm rfl rfl)
  | evictor id held =>
    obtain rfl : s.evictorRoundHeld e id held = s' := by simpa [exec] using hs
    obtain ⟨v', hb, -⟩ := h.evictorRoundHeld id held
    obtain ⟨h₁, h₂⟩ := hbatch .fsync hb
    exact Or.inl ⟨h₁.symm.trans hu, h₂.symm.trans hv⟩
  | writeDirty cb v' =>
    have hl := h.inv.writeDirtyPages hs
    obtain ⟨h₁, h₂⟩ := hbatch _ hl.batch
    exact Or.inl ⟨h₁.symm.trans hu, h₂.symm.trans hv⟩
  | purge qid =>
    obtain rfl : s.tryPurgePagesFast e qid = s' := by simpa [exec] using hs
    have heq := hrec (h.inv.recycles_tryPurgePagesFast qid) hu
    rw [heq] at hu hv
    exact Or.inl ⟨hu, hv⟩
  | rawRelease v' =>
    obtain ⟨s₁, pgs, -, hl, hc⟩ := h.inv.rawRelease hs
    have hp : p ∉ pgs := by
      intro hp
      rw [← view_page e, hc.batch.view_of_mem hp] at hu
      simp [PageView.dropped, PageView.freed] at hu
    rw [hc.batch.pages_of_not_mem hp] at hu hv
    obtain ⟨h₁, h₂⟩ := hbatch _ hl.batch
    exact Or.inl ⟨h₁.symm.trans hu, h₂.symm.trans hv⟩

end State

namespace Vfs

open State

/-! ### The calls -/

/-- The calls on descriptors and areas, and those that work on the buffer alone. -/
inductive Call (C : Type*) where
  | wrapfsOpen (ino : DevId) (i : InfoId) (v : PvdId)
  | rawOpen (bdev : DevId) (i : InfoId) (v : PvdId)
  | mmap (vma : VmaId) (a : VmArea) (pve : PveId)
  | fsync (i : InfoId)
  | release (i : InfoId)
  | buffer (op : Op C)

/-- The driver when it has been loaded. -/
def init (e : Env C) (w : World C) : Vfs C where
  st := initParams e w
  inoPvdCache _ := none
  pvdInUse _ := false
  isOpen _ := false
  areas := []

/-- Faults and stores are made through mapped areas. Syncs and releases are made through
descriptors only. -/
def reaches (s : Vfs C) : Op C → Bool
  | .fault vma _ _ => decide (vma ∈ s.areas)
  | .mkwrite vma _ => decide (vma ∈ s.areas)
  | .store vma _ _ => decide (vma ∈ s.areas)
  | .evictor _ _ => true
  | .purge _ => true
  | .writeDirty _ _ => false
  | .rawRelease _ => false

def call (e : Env C) (s : Vfs C) : Call C → Except Halt (Vfs C)
  | .wrapfsOpen ino i v => s.wrapfsOpen ino i v
  | .rawOpen bdev i v => s.rawOpen bdev i v
  | .mmap vma a pve => s.dmapMmap vma a pve
  | .fsync i => s.fsync e i
  | .release i => s.release e i
  | .buffer op =>
    if s.reaches op then (s.st.exec e op).map fun st => { s with st := st }
    else .error .notIssued

/-- A file is released, and its dirty pages are written, only while none of them is mapped
writable. -/
def Careful (s : Vfs C) : Call C → Prop
  | .release i => ∀ v, (s.st.infos i).pvd = some v → (s.st.pvds v).type = .file →
      releaseWrites (s.st.pvds v) = true → ∀ p a, (s.st.pages p).pvd = some v →
      (s.st.pages p).isDirty = true → s.st.pte a ≠ .map p true
  | _ => True

/-- A write-back of the file or device that is open there finds room in the heap. -/
def SyncFits (e : Env C) (s : Vfs C) (i : InfoId) : Prop :=
  ∀ v, (s.st.infos i).pvd = some v → s.st.SyncFits e v

/-- The call finds room in the arrays that it writes. -/
def Fits (e : Env C) (s : Vfs C) : Call C → Prop
  | .fsync i => s.SyncFits e i
  | .release i => (∀ v, (s.st.infos i).pvd = some v → (s.st.pvds v).type = .file →
      releaseWrites (s.st.pvds v) = true) → s.SyncFits e i
  | .buffer op => s.st.Fits e op
  | _ => True

/-- A completed call. -/
def Calls (e : Env C) (s : Vfs C) (c : Call C) (s' : Vfs C) : Prop := s.call e c = .ok s'

/-- A completed call that meets these conditions. -/
def Steps (e : Env C) (s : Vfs C) (c : Call C) (s' : Vfs C) : Prop :=
  s.Careful c ∧ s.Fits e c ∧ Calls e s c s'

/-! ### The invariant -/

/-- The mapped areas. -/
def mapped (s : Vfs C) : Areas where
  live vma := vma ∈ s.areas
  area := s.st.vmas
  pvd := s.st.vmaPvd

/-- What holds of descriptors, areas and buffer between calls. -/
structure Ok (e : Env C) (s : Vfs C) : Prop where
  quiet : s.st.Quiet e
  tracks : s.st.Tracks e s.mapped
  area_open {vma : VmaId} : vma ∈ s.areas → s.isOpen (s.st.vmas vma).info = true
  info_pvd {i : InfoId} {v : PvdId} : s.isOpen i = true → (s.st.infos i).pvd = some v →
    s.pvdInUse v = true
  cache_pvd {ino : DevId} {v : PvdId} : s.inoPvdCache ino = some v →
    s.pvdInUse v = true ∧ (s.st.pvds v).type = .file
  /-- A device has a pvd for each descriptor. -/
  raw_one {i j : InfoId} {v : PvdId} : (s.st.pvds v).type = .blkd →
    s.isOpen i = true → (s.st.infos i).pvd = some v →
    s.isOpen j = true → (s.st.infos j).pvd = some v → i = j
  page_pvd {p : PageId} {v : PvdId} : (s.st.pages p).inUse = true →
    (s.st.pages p).pvd = some v → s.pvdInUse v = true

variable {e : Env C} {s s' : Vfs C} {st : State C}

lemma ok_init (e : Env C) (w : World C) : (init e w).Ok e where
  quiet := quiet_initParams e w
  tracks _ := ⟨fun h => by simp [init, State.view, mapping, initParams] at h, fun h => by
    simp [init, State.view, initParams, TaggedPage.init] at h⟩
  area_open h := absurd h List.not_mem_nil
  info_pvd h := absurd h Bool.false_ne_true
  cache_pvd h := by simp [init] at h
  raw_one _ h := absurd h Bool.false_ne_true
  page_pvd h := by simp [init, initParams, TaggedPage.init] at h

/-- A call on the buffer alone. -/
lemma Ok.exec (h : s.Ok e) (op : Op C) (hi : s.st.issued e op = true)
    (hs : s.st.exec e op = .ok st) (ht : st.Tracks e s.mapped)
    (hf : ∀ vma i f, op = .fault vma i f → vma ∈ s.areas) : ({ s with st := st } : Vfs C).Ok e := by
  have ho := h.quiet.outside_of_exec op hi hs
  have hpvds : st.pvds = s.st.pvds := congrArg Outside.pvds ho
  have hvmas : st.vmas = s.st.vmas := congrArg Outside.vmas ho
  have hinfos : st.infos = s.st.infos := congrArg Outside.infos ho
  have hmap : ({ s with st := st } : Vfs C).mapped = s.mapped := by
    simp only [mapped, hvmas]
    congr 1
    funext vma
    simp only [vmaPvd, hvmas, hinfos]
  constructor
  · exact h.quiet.step ⟨hi, hs⟩
  · rw [hmap]
    exact ht
  · intro vma hv
    rw [hvmas]
    exact h.area_open hv
  · intro i v ho hp
    rw [hinfos] at hp
    exact h.info_pvd ho hp
  · intro ino v hc
    rw [hpvds]
    exact h.cache_pvd hc
  · intro i j v
    rw [hpvds, hinfos]
    exact h.raw_one
  · intro p v hu hv
    rcases h.quiet.pvd_of_exec hi hs hu hv with ⟨hu', hv'⟩ | ⟨vma, i, f, rfl, hv'⟩
    · exact h.page_pvd hu' hv'
    · exact h.info_pvd (h.area_open (hf vma i f rfl)) hv'

/-- A descriptor is closed. -/
lemma Ok.close (h : s.Ok e) {i : InfoId} (hn : ∀ vma ∈ s.areas, (s.st.vmas vma).info ≠ i) :
    ({ s with isOpen := Function.update s.isOpen i false } : Vfs C).Ok e := by
  have hopen : ∀ {j}, Function.update s.isOpen i false j = true → s.isOpen j = true := by
    intro j hj
    by_cases hji : j = i
    · simp [hji] at hj
    · rwa [Function.update_of_ne hji] at hj
  constructor
  · exact h.quiet
  · exact h.tracks
  · intro vma hv
    change Function.update s.isOpen i false (s.st.vmas vma).info = true
    rw [Function.update_of_ne (hn vma hv)]
    exact h.area_open hv
  · intro j v hj hp
    exact h.info_pvd (hopen hj) hp
  · exact h.cache_pvd
  · intro j k v ht hj hjv hk hkv
    exact h.raw_one ht (hopen hj) hjv (hopen hk) hkv
  · exact h.page_pvd

/-- The data of a closed descriptor does not matter. -/
lemma Ok.setClosed (h : s.Ok e) {i : InfoId} (hi : s.isOpen i = false) (x : FastmapInfo) :
    ({ s with st := { s.st with infos := Function.update s.st.infos i x } } : Vfs C).Ok e := by
  have hne : ∀ {j}, s.isOpen j = true → Function.update s.st.infos i x j = s.st.infos j := by
    intro j hj
    apply Function.update_of_ne
    rintro rfl
    exact Bool.false_ne_true (hi.symm.trans hj)
  constructor
  · exact ⟨{ h.quiet.placed with }, h.quiet.page⟩
  · apply Tracks.areas (A := s.mapped) h.tracks
    intro vma hv
    refine ⟨hv, rfl, ?_⟩
    simp only [mapped, vmaPvd, hne (h.area_open hv)]
  · exact h.area_open
  · intro j v hj hp
    exact h.info_pvd hj ((congrArg FastmapInfo.pvd (hne hj)).symm.trans hp)
  · exact h.cache_pvd
  · intro j k v ht hj hjv hk hkv
    exact h.raw_one ht hj ((congrArg FastmapInfo.pvd (hne hj)).symm.trans hjv) hk
      ((congrArg FastmapInfo.pvd (hne hk)).symm.trans hkv)
  · exact h.page_pvd

/-! ### Every call -/

lemma Ok.buffer (h : s.Ok e) {op : Op C} (hr : s.reaches op = true)
    (hs : s.st.exec e op = .ok st) : ({ s with st := st } : Vfs C).Ok e := by
  cases op with
  | fault vma i f =>
    have hv : vma ∈ s.areas := by simpa [reaches] using hr
    apply h.exec _ rfl hs (h.tracks.fault h.quiet.inv hv rfl rfl hs)
    rintro _ _ _ ⟨⟩
    exact hv
  | mkwrite vma i =>
    have hc : s.st.cachedMapping e vma i = true :=
      h.tracks.cachedMapping h.quiet.inv rfl rfl (vmaPvd_of_mkwrite hs) i
    exact h.exec (.mkwrite vma i) hc hs (h.tracks.mkwrite h.quiet.inv hc hs) (by simp)
  | store vma i f => exact h.exec _ rfl hs (h.tracks.store h.quiet.inv hs) (by simp)
  | evictor id held =>
    obtain rfl : s.st.evictorRoundHeld e id held = st := by simpa [State.exec] using hs
    exact h.exec _ rfl hs (h.tracks.evictor h.quiet id held) (by simp)
  | purge qid =>
    obtain rfl : s.st.tryPurgePagesFast e qid = st := by simpa [State.exec] using hs
    exact h.exec _ rfl hs (h.tracks.recycles (h.quiet.inv.recycles_tryPurgePagesFast qid)) (by simp)
  | writeDirty cb v => exact absurd hr Bool.false_ne_true
  | rawRelease v => exact absurd hr Bool.false_ne_true

/-- `fsync` does nothing for a descriptor without a pvd. -/
lemma fsync_cases {i : InfoId} (hs : s.fsync e i = .ok s') : s' = s ∨
    ∃ v st, (s.st.infos i).pvd = some v ∧ s.st.writeDirtyPages e .fsync v = .ok st ∧
      s' = { s with st := st } := by
  simp only [Vfs.fsync] at hs
  split_ifs at hs
  cases hv : (s.st.infos i).pvd with
  | none =>
    rw [hv] at hs
    exact Or.inl (Except.ok.inj hs).symm
  | some v =>
    rw [hv] at hs
    obtain ⟨st, hw, hst⟩ := Except.map_eq_ok.mp hs
    exact Or.inr ⟨v, st, rfl, hw, hst.symm⟩

lemma Ok.fsync (h : s.Ok e) {i : InfoId} (hs : s.fsync e i = .ok s') : s'.Ok e := by
  rcases fsync_cases hs with rfl | ⟨v, st, -, hw, rfl⟩
  · exact h
  · exact h.exec (.writeDirty .fsync v) rfl hw
      (h.tracks.writeDirtyPages h.quiet.inv (by simp) hw) (by simp)

lemma Ok.wrapfsFileRelease (h : s.Ok e) {i : InfoId} {v : PvdId}
    (hn : ∀ vma ∈ s.areas, (s.st.vmas vma).info ≠ i)
    (hc : releaseWrites (s.st.pvds v) = true → ∀ p a, (s.st.pages p).pvd = some v →
      (s.st.pages p).isDirty = true → s.st.pte a ≠ .map p true)
    (hs : s.wrapfsFileRelease e i v = .ok s') : s'.Ok e := by
  simp only [Vfs.wrapfsFileRelease] at hs
  split_ifs at hs with hrel
  · obtain ⟨st, hw, hs⟩ := Except.map_eq_ok.mp hs
    have hst : ({ s with st := st } : Vfs C).Ok e :=
      h.exec (.writeDirty .release v) rfl hw
        (h.tracks.writeDirtyPages h.quiet.inv (fun _ => hc hrel) hw) (by simp)
    have hvmas : st.vmas = s.st.vmas :=
      congrArg Outside.vmas (h.quiet.outside_of_exec (.writeDirty .release v) rfl hw)
    have hclosed := hst.close (i := i) (by
      intro vma hv
      rw [show st.vmas = s.st.vmas from hvmas]
      exact hn vma hv)
    have hfin := hclosed.setClosed (i := i) (Function.update_self _ _ _)
      { st.infos i with pvd := none }
    rw [← hs]
    exact hfin
  · obtain rfl : _ = s' := by simpa using hs
    exact h.close hn

/-- Nothing maps a page of a device whose descriptor is being released. -/
lemma Ok.unmapped_raw (h : s.Ok e) {i : InfoId} {v : PvdId} (hi : s.isOpen i = true)
    (hv : (s.st.infos i).pvd = some v) (ht : (s.st.pvds v).type = .blkd)
    (hn : ∀ vma ∈ s.areas, (s.st.vmas vma).info ≠ i) (p : PageId)
    (hp : (s.st.pages p).pvd = some v) (a : VmaId × ℕ) (w : Bool) : s.st.pte a ≠ .map p w := by
  intro hpte
  obtain ⟨-, hhas⟩ := h.tracks.has hpte
  have hlive : a.1 ∈ s.areas := hhas.live
  have hpv : (s.st.infos (s.st.vmas a.1).info).pvd = some v := hhas.pvd.symm.trans hp
  exact hn a.1 hlive (h.raw_one ht (h.area_open hlive) hpv hi hv)

lemma Ok.release (h : s.Ok e) {i : InfoId} (hc : s.Careful (.release i))
    (hs : s.release e i = .ok s') : s'.Ok e := by
  simp only [Vfs.release] at hs
  split_ifs at hs with hno
  rw [not_or, not_exists, Bool.not_eq_false] at hno
  obtain ⟨hi, hno⟩ := hno
  have hn : ∀ vma ∈ s.areas, (s.st.vmas vma).info ≠ i := fun vma hv he => hno vma ⟨hv, he⟩
  cases hv : (s.st.infos i).pvd with
  | none =>
    obtain rfl : _ = s' := by simpa [hv] using hs
    exact h.close hn
  | some v =>
    simp only [hv] at hs
    cases ht : (s.st.pvds v).type with
    | file =>
      simp only [ht] at hs
      exact h.wrapfsFileRelease hn (hc v hv ht) hs
    | blkd =>
      simp only [ht] at hs
      obtain ⟨st, hw, hs⟩ := Except.map_eq_ok.mp hs
      have hst : ({ s with st := st } : Vfs C).Ok e :=
        h.exec (.rawRelease v) rfl hw
          (h.tracks.rawRelease h.quiet.inv (h.unmapped_raw hi hv ht hn) hw) (by simp)
      have hvmas : st.vmas = s.st.vmas :=
        congrArg Outside.vmas (h.quiet.outside_of_exec (.rawRelease v) rfl hw)
      rw [← hs]
      apply hst.close
      intro vma hv
      rw [show st.vmas = s.st.vmas from hvmas]
      exact hn vma hv

/-- A new pvd starts with empty trees. -/
lemma Ok.createPvd (h : s.Ok e) {v : PvdId} (hv : s.pvdInUse v = false) (type : PvdType)
    (bk : DevId) : (s.createPvd v type bk).Ok e := by
  have hne : ∀ {v'}, s.pvdInUse v' = true → v' ≠ v := by
    rintro v' hv' rfl
    exact Bool.false_ne_true (hv.symm.trans hv')
  have hused : ∀ {v'}, s.pvdInUse v' = true → (s.createPvd v type bk).pvdInUse v' = true := by
    intro v' hv'
    simpa [Vfs.createPvd, hne hv'] using hv'
  -- no tree of the new pvd held a page
  have hview : (s.createPvd v type bk).st.view e = s.st.view e := by
    funext p
    refine view_eq_of rfl (view_free e s.st p).symm (view_clean e s.st p).symm
      (view_dirty e s.st p).symm (funext fun k => ?_) rfl
    change (s.createPvd v type bk).st.linked e p k = s.st.linked e p k
    simp only [linked]
    cases hp : (s.st.pages p).pvd with
    | none => simp [Vfs.createPvd, hp]
    | some v' =>
      simp only [Vfs.createPvd, treeLookup, hp]
      by_cases hvv : v' = v
      · subst hvv
        have hidle : Idle (s.st.view e p) := by
          refine (h.quiet.page p).phase.resolve_right fun hr => ?_
          exact Bool.false_ne_true (hv.symm.trans (h.page_pvd hr.inUse hp))
        have hk := hidle.unlinked.tree k
        simp only [State.view, linked, hp, treeLookup] at hk
        simpa using hk
      · simp [hvv]
  have hplaced : (s.createPvd v type bk).st.Placed e := by
    refine { h.quiet.placed with tree_own := fun {t i p} hl => ?_ }
    simp only [Vfs.createPvd] at hl
    split_ifs at hl
    · simp at hl
    · exact h.quiet.placed.tree_own hl
  constructor
  · exact ⟨hplaced, fun p => hview ▸ h.quiet.page p⟩
  · exact Tracks.of_view h.tracks hview
  · exact h.area_open
  · intro i v' hi hp
    exact hused (h.info_pvd hi hp)
  · intro ino v' hc
    obtain ⟨hu, ht⟩ := h.cache_pvd hc
    refine ⟨hused hu, ?_⟩
    simpa [Vfs.createPvd, hne hu] using ht
  · intro i j v' ht hi hiv hj hjv
    simp only [Vfs.createPvd, Function.update_of_ne (hne (h.info_pvd hi hiv))] at ht
    exact h.raw_one ht hi hiv hj hjv
  · intro p v' hu hp
    exact hused (h.page_pvd hu hp)

/-- A descriptor is opened on a pvd that is in use; a pvd of a device is given to one only. -/
lemma Ok.setInfo (h : s.Ok e) {i : InfoId} {v : PvdId} (hi : s.isOpen i = false)
    (hv : s.pvdInUse v = true) (ht : (s.st.pvds v).type = .blkd → ∀ j, s.isOpen j = true →
      (s.st.infos j).pvd ≠ some v) : (s.setInfo i v).Ok e := by
  have hset := h.setClosed hi ⟨false, some v, none⟩
  -- an open descriptor is the new one or an old one
  have hcase : ∀ {j v'}, (s.setInfo i v).isOpen j = true →
      ((s.setInfo i v).st.infos j).pvd = some v' →
      (j = i ∧ v' = v) ∨ j ≠ i ∧ s.isOpen j = true ∧ (s.st.infos j).pvd = some v' := by
    intro j v' hj hp
    by_cases hji : j = i
    · subst hji
      simp only [Vfs.setInfo, Function.update_self, Option.some.injEq] at hp
      exact Or.inl ⟨rfl, hp.symm⟩
    · simp only [Vfs.setInfo, Function.update_of_ne hji] at hj hp
      exact Or.inr ⟨hji, hj, hp⟩
  constructor
  · exact hset.quiet
  · exact hset.tracks
  · intro vma hvma
    have hne : (s.st.vmas vma).info ≠ i := by
      intro hvi
      exact Bool.false_ne_true (hi.symm.trans (hvi ▸ h.area_open hvma))
    change Function.update s.isOpen i true (s.st.vmas vma).info = true
    rw [Function.update_of_ne hne]
    exact h.area_open hvma
  · intro j v' hj hp
    rcases hcase hj hp with ⟨-, rfl⟩ | ⟨-, hj', hp'⟩
    · exact hv
    · exact h.info_pvd hj' hp'
  · exact h.cache_pvd
  · intro j k v' htv hj hjv hk hkv
    rcases hcase hj hjv with ⟨hji, hv'⟩ | ⟨-, hj', hjv'⟩ <;>
      rcases hcase hk hkv with ⟨hki, hv''⟩ | ⟨-, hk', hkv'⟩
    · exact hji.trans hki.symm
    · subst hv'
      exact absurd hkv' (ht htv k hk')
    · subst hv''
      exact absurd hjv' (ht htv j hj')
    · exact h.raw_one htv hj' hjv' hk' hkv'
  · exact h.page_pvd

lemma Ok.wrapfsOpen (h : s.Ok e) {ino : DevId} {i : InfoId} {v : PvdId}
    (hs : s.wrapfsOpen ino i v = .ok s') : s'.Ok e := by
  rw [Vfs.wrapfsOpen] at hs
  by_cases hi : s.isOpen i = true
  · simp [hi] at hs
  have hi' : s.isOpen i = false := by simpa using hi
  rw [if_neg hi] at hs
  cases hc : s.inoPvdCache ino with
  | some w =>
    obtain rfl : s.setInfo i w = s' := by simpa [hc] using hs
    obtain ⟨hu, ht⟩ := h.cache_pvd hc
    exact h.setInfo hi' hu fun hb => by simp [ht] at hb
  | none =>
    simp only [hc] at hs
    split_ifs at hs with hv
    obtain rfl : _ = s' := by simpa using hs
    have h₁ := h.createPvd (by simpa using hv) .file ino
    have hu : (s.createPvd v .file ino).pvdInUse v = true := by simp [Vfs.createPvd]
    have ht : ((s.createPvd v .file ino).st.pvds v).type = .file := by simp [Vfs.createPvd]
    have h₂ : ({ s.createPvd v .file ino with
        inoPvdCache := Function.update (s.createPvd v .file ino).inoPvdCache ino (some v) } :
        Vfs C).Ok e := by
      refine { h₁ with cache_pvd := fun {ino' v'} hc' => ?_ }
      by_cases hii : ino' = ino
      · subst hii
        obtain rfl : v = v' := by simpa using hc'
        exact ⟨hu, ht⟩
      · exact h₁.cache_pvd ((Function.update_of_ne hii _ _).symm.trans hc')
    exact h₂.setInfo hi' hu fun hb => by simp [ht] at hb

lemma Ok.rawOpen (h : s.Ok e) {bdev : DevId} {i : InfoId} {v : PvdId}
    (hs : s.rawOpen bdev i v = .ok s') : s'.Ok e := by
  simp only [Vfs.rawOpen] at hs
  split_ifs at hs with hno
  rw [not_or, Bool.not_eq_true, Bool.not_eq_true] at hno
  obtain ⟨hi, hv⟩ := hno
  obtain rfl : _ = s' := by simpa using hs
  have h₁ := h.createPvd hv .blkd bdev
  apply h₁.setInfo hi (by simp [Vfs.createPvd])
  intro _ j hj hp
  exact Bool.false_ne_true (hv.symm.trans (h.info_pvd hj hp))

/-- A new area refers to an open descriptor. -/
lemma Ok.dmapMmap (h : s.Ok e) {vma : VmaId} {a : VmArea} {pve : PveId}
    (hs : s.dmapMmap vma a pve = .ok s') : s'.Ok e := by
  simp only [Vfs.dmapMmap] at hs
  split_ifs at hs with hno
  rw [not_or, Bool.not_eq_false] at hno
  obtain ⟨hnew, hopen⟩ := hno
  cases hp : (s.st.infos a.info).pvd with
  | none => simp [hp] at hs
  | some v =>
    rw [hp] at hs
    dsimp only at hs
    obtain ⟨st₁, hfile, hblkd, hs⟩ : ∃ st₁,
        ((s.st.pvds v).type = .file →
          st₁ = s.st.modifyPvd v fun d => { d with mmaped := true, isMmap := true }) ∧
        ((s.st.pvds v).type = .blkd → st₁ = s.st) ∧
        Except.ok { s with
          st := ({ st₁ with vmas := Function.update st₁.vmas vma a } : State C).permaVmaOpen vma pve
          areas := vma :: s.areas } = (.ok s' : Except Halt (Vfs C)) := by
      refine ⟨_, fun ht => ?_, fun ht => ?_, hs⟩
      · rw [ht]
      · rw [ht]
    set st₂ := ({ st₁ with vmas := Function.update st₁.vmas vma a } : State C).permaVmaOpen vma pve
      with hst₂
    obtain rfl : ({ s with st := st₂, areas := vma :: s.areas } : Vfs C) = s' :=
      Except.ok.inj hs
    -- the flags of the pvd, the area and the entry are all that has changed
    have h₁ : st₁.view e = s.st.view e ∧ (s.st.Placed e → st₁.Placed e) ∧ st₁.vmas = s.st.vmas ∧
        st₁.infos = s.st.infos ∧ ∀ v', (st₁.pvds v').type = (s.st.pvds v').type := by
      cases ht : (s.st.pvds v).type with
      | blkd =>
        rw [hblkd ht]
        exact ⟨rfl, id, rfl, rfl, fun _ => rfl⟩
      | file =>
        rw [hfile ht]
        refine ⟨rfl, fun hpl => { hpl with }, rfl, rfl, fun v' => ?_⟩
        by_cases hvv : v' = v
        · simp [modifyPvd, hvv]
        · simp [modifyPvd, hvv]
    obtain ⟨hview₁, hpl₁, hvmas₁, hinfos₁, htype₁⟩ := h₁
    have h₂ : st₂.view e = s.st.view e ∧ st₂.Placed e ∧ st₂.vmas = Function.update s.st.vmas vma a ∧
        (∀ j, (st₂.infos j).pvd = (s.st.infos j).pvd) ∧ st₂.pvds = st₁.pvds := by
      rw [hst₂, ← hvmas₁, ← hinfos₁]
      simp only [permaVmaOpen]
      split
      · exact ⟨hview₁, { hpl₁ h.quiet.placed with }, rfl, fun _ => rfl, rfl⟩
      · refine ⟨hview₁, { hpl₁ h.quiet.placed with }, rfl, fun j => ?_, rfl⟩
        by_cases hj : j = a.info
        · simp [hj]
        · simp [hj]
    obtain ⟨hview, hplaced, hvmas, hinfos, hpvds⟩ := h₂
    have hold : ∀ vma' ∈ s.areas, st₂.vmas vma' = s.st.vmas vma' := by
      intro vma' hv'
      have hne : vma' ≠ vma := by
        rintro rfl
        exact hnew hv'
      rw [hvmas, Function.update_of_ne hne]
    constructor
    · exact ⟨hplaced, fun p => hview ▸ h.quiet.page p⟩
    · apply Tracks.areas (A := s.mapped) (Tracks.of_view h.tracks hview)
      intro vma' hv'
      refine ⟨List.mem_cons_of_mem _ hv', hold vma' hv', ?_⟩
      simp only [mapped, vmaPvd, hold vma' hv', hinfos]
    · intro vma' hv'
      rcases List.mem_cons.mp hv' with rfl | hv'
      · rw [hvmas, Function.update_self]
        exact hopen
      · rw [hold vma' hv']
        exact h.area_open hv'
    · intro j v' hj hpv
      rw [hinfos] at hpv
      exact h.info_pvd hj hpv
    · intro ino v' hc
      rw [hpvds, htype₁]
      exact h.cache_pvd hc
    · intro j k v' ht hj hjv hk hkv
      rw [hpvds, htype₁] at ht
      rw [hinfos] at hjv hkv
      exact h.raw_one ht hj hjv hk hkv
    · intro p v' hu hpv
      rw [← view_page e, hview] at hu hpv
      exact h.page_pvd hu hpv

/-- A call that reaches the buffer. -/
lemma exec_of_buffer {op : Op C} (hs : s.call e (.buffer op) = .ok s') :
    s.reaches op = true ∧ ∃ st, s.st.exec e op = .ok st ∧ s' = { s with st := st } := by
  simp only [call] at hs
  split_ifs at hs with hr
  obtain ⟨st, hx, hst⟩ := Except.map_eq_ok.mp hs
  exact ⟨hr, st, hx, hst.symm⟩

lemma Ok.step (h : s.Ok e) {c : Call C} (hs : Steps e s c s') : s'.Ok e := by
  obtain ⟨hc, -, hs⟩ := hs
  cases c with
  | wrapfsOpen ino i v => exact h.wrapfsOpen hs
  | rawOpen bdev i v => exact h.rawOpen hs
  | mmap vma a pve => exact h.dmapMmap hs
  | fsync i => exact h.fsync hs
  | release i => exact h.release hc hs
  | buffer op =>
    obtain ⟨hr, st, hx, rfl⟩ := exec_of_buffer hs
    exact h.buffer hr hx

/-! ### Room in the arrays -/

/-- A call that finds room does not write outside an array. -/
lemma Ok.not_overruns (h : s.Ok e) {c : Call C} (hfits : s.Fits e c) : ¬ Overruns (s.call e c) := by
  have hissued : ¬ Overruns (.error .notIssued : Except Halt (Vfs C)) :=
    not_overruns_error (by simp) (by simp)
  cases c with
  | wrapfsOpen ino i v =>
    simp only [call, Vfs.wrapfsOpen]
    by_cases hi : s.isOpen i = true
    · rwa [if_pos hi]
    · rw [if_neg hi]
      cases s.inoPvdCache ino with
      | some w => exact not_overruns_ok _
      | none =>
        by_cases hv : s.pvdInUse v = true
        · simpa only [if_pos hv] using hissued
        · simp only [if_neg hv]
          exact not_overruns_ok _
  | rawOpen bdev i v =>
    simp only [call, Vfs.rawOpen]
    split_ifs
    · exact hissued
    · exact not_overruns_ok _
  | mmap vma a pve =>
    simp only [call, Vfs.dmapMmap]
    split_ifs
    · exact hissued
    · split
      · exact not_overruns_error (by simp) (by simp)
      · exact not_overruns_ok _
  | fsync i =>
    simp only [call, Vfs.fsync]
    split_ifs
    · exact hissued
    · cases hp : (s.st.infos i).pvd with
      | none => exact not_overruns_ok _
      | some v =>
        obtain ⟨st, hst⟩ := h.quiet.writeDirtyPages_ok (hfits v hp) .fsync
        simp [hst, Except.map]
  | release i =>
    simp only [call, Vfs.release]
    split_ifs
    · exact hissued
    · cases hp : (s.st.infos i).pvd with
      | none => exact not_overruns_ok _
      | some v =>
        have hv : ∀ {v'}, (s.st.infos i).pvd = some v' → v = v' :=
          fun hp' => Option.some.inj (hp.symm.trans hp')
        cases ht : (s.st.pvds v).type with
        | file =>
          by_cases hw : releaseWrites (s.st.pvds v) = true
          · have hsync := hfits (fun v' hp' _ => hv hp' ▸ hw) v hp
            obtain ⟨st, hst⟩ := h.quiet.writeDirtyPages_ok hsync .release
            simp [ht, Vfs.wrapfsFileRelease, hw, hst, Except.map]
          · simp [ht, Vfs.wrapfsFileRelease, hw]
        | blkd =>
          have hsync := hfits (fun v' hp' ht' => by simp [← hv hp', ht] at ht') v hp
          obtain ⟨st, hst⟩ := h.quiet.rawRelease_ok hsync
          simp [ht, hst, Except.map]
  | buffer op =>
    simp only [call]
    split_ifs
    · exact fun ho => h.quiet.not_overruns hfits (overruns_map ho)
    · exact hissued

/-! ### Reclaim and the main result -/

/-- Calls that reclaim pages. -/
def Reclaims : Call C → Prop
  | .buffer (.fault _ _ _) => True
  | .buffer (.purge _) => True
  | _ => False

/-- A page that a call has reclaimed was not dirty. -/
lemma Ok.clean_of_reclaimed (h : s.Ok e) {c : Call C} (hc : Reclaims c) (hs : Steps e s c s')
    {p : PageId} {v : PvdId} {off : Pgoff} (hp : (s.st.pages p).Caches v off)
    (hn : ¬ (s'.st.pages p).Caches v off) : (s.st.pages p).isDirty = false := by
  have hrec : ∀ {t}, Recycles e s.st t → ¬ (t.pages p).Caches v off →
      (s.st.pages p).isDirty = false := by
    intro t hr hnt
    rcases hr.view_cases p with hq | hq
    · rw [← view_page e t, hq] at hnt
      exact absurd hp hnt
    · rcases hq.before with hidle | hpurge
      · exact absurd (hidle.inUse.symm.trans hp.1) Bool.false_ne_true
      · exact hpurge.2.1
  obtain ⟨-, -, hs⟩ := hs
  cases c with
  | buffer op =>
    obtain ⟨-, st, hx, rfl⟩ := exec_of_buffer hs
    cases op with
    | fault vma i f =>
      obtain ⟨s₀, v', q, x, y, hf⟩ := h.quiet.inv.fault hx
      refine hrec hf.recycles fun hc₀ => hn ?_
      -- a page that was not reclaimed stays as it is
      by_cases hpq : p = q
      · subst hpq
        rcases hf.found with ⟨-, -, -, -, rfl⟩ | ⟨hfree, -, -⟩
        · rw [← view_page e, hf.resolves.view_self, hf.mapped.same]
          exact hc₀
        · have hidle := Idle.of_free ((hf.recycles.inv h.quiet.inv).page p) hfree
          exact absurd (hidle.inUse.symm.trans hc₀.1) Bool.false_ne_true
      · rcases hf.resolves.other hpq with heq | ⟨hidle, -⟩
        · rw [← view_page e, heq]
          exact hc₀
        · exact absurd (hidle.inUse.symm.trans hc₀.1) Bool.false_ne_true
    | purge qid =>
      obtain rfl : s.st.tryPurgePagesFast e qid = st := by simpa [State.exec] using hx
      exact hrec (h.quiet.inv.recycles_tryPurgePagesFast qid) hn
    | _ => exact absurd hc not_false
  | _ => exact absurd hc not_false

/-- Only dirty pages are mapped writable, and no page that is reclaimed is mapped writable, as long
as no file is released while a dirty page of it is mapped writable, and the calls find room in the
arrays that they write. No call that does is left out of the runs for an overrun. -/
theorem writable_is_dirty (e : Env C) (w : World C) (cs : List (Call C)) (s : Vfs C)
    (hr : Run (Steps e) (init e w) cs s) :
    (∀ a p, s.st.pte a = .map p true → (s.st.pages p).isDirty = true) ∧
    (∀ c s', Reclaims c → Steps e s c s' → ∀ p v off, (s.st.pages p).Caches v off →
      ¬ (s'.st.pages p).Caches v off → ∀ a, s.st.pte a ≠ .map p true) ∧
    ∀ c, s.Fits e c → ¬ Overruns (s.call e c) := by
  have h : s.Ok e := hr.invariant (fun _ _ _ hok hs => hok.step hs) (ok_init e w)
  refine ⟨fun a p hp => h.tracks.dirty_of_writable hp, fun c s' hc hs p v off hp hn a ha => ?_,
    fun c hfits => h.not_overruns hfits⟩
  have hclean := h.clean_of_reclaimed hc hs hp hn
  exact Bool.false_ne_true (hclean.symm.trans (h.tracks.dirty_of_writable ha))

/-- The state after a sequence of calls, if all of them complete. -/
def callAll (e : Env C) (s : Vfs C) (cs : List (Call C)) : Option (Vfs C) :=
  cs.foldlM (fun s c => (s.call e c).toOption) s

lemma run_callAll {cs : List (Call C)} (h : callAll e s cs = some s') : Run (Calls e) s cs s' :=
  Run.of_foldlM (fun _ _ _ hs => Except.toOption_eq_some.mp hs) h

/-- A test of the conditions, for calls that release nothing. -/
def fits (e : Env C) (s : Vfs C) : Call C → Bool
  | .release _ => false
  | .buffer op => s.st.fits e op
  | _ => true

/-- A completed call that passes the test. -/
def stepFits (e : Env C) (s : Vfs C) (c : Call C) : Option (Vfs C) :=
  if s.fits e c then (s.call e c).toOption else none

lemma Ok.steps_stepFits (h : s.Ok e) (hcpus : e.ncpus ≤ maxCpus) {c : Call C}
    (hs : stepFits e s c = some s') : Steps e s c s' := by
  simp only [stepFits] at hs
  split_ifs at hs with hc
  refine ⟨?_, ?_, Except.toOption_eq_some.mp hs⟩
  · cases c with
    | release i => exact absurd hc Bool.false_ne_true
    | _ => trivial
  · cases c with
    | fsync i => exact fun v _ => syncFits_of_ncpus hcpus
    | release i => exact absurd hc Bool.false_ne_true
    | buffer op => exact h.quiet.fits hcpus hc
    | _ => trivial

/-- The state after a sequence of calls, if all of them pass the test. -/
def fitsAll (e : Env C) (s : Vfs C) (cs : List (Call C)) : Option (Vfs C) :=
  cs.foldlM (stepFits e) s

lemma Ok.run_fitsAll (h : s.Ok e) (hcpus : e.ncpus ≤ maxCpus) {cs : List (Call C)}
    (hs : fitsAll e s cs = some s') : Run (Steps e) s cs s' ∧ s'.Ok e := by
  have hr : Run (fun s c s' => stepFits e s c = some s') s cs s' :=
    Run.of_foldlM (fun _ _ _ hs => hs) hs
  refine hr.mono_invariant (fun t c t' ht hc => ?_) h
  have hstep := ht.steps_stepFits hcpus hc
  exact ⟨hstep, ht.step hstep⟩

/-- The first page of a file is dirty and mapped writable through one descriptor of two. -/
def twoDescriptors : List (Call ℕ) :=
  [.wrapfsOpen 0 0 0, .wrapfsOpen 0 1 0, .mmap 0 ⟨0, 8 * pageSize, 0, 0⟩ 0,
    .buffer (.fault 0 0 smallFault), .buffer (.mkwrite 0 0)]

set_option maxRecDepth 4000 in
/-- The other descriptor is released after a sync. -/
theorem writable_is_dirty_synced :
    ∃ s, Run (Steps smallEnv) (init smallEnv smallWorld)
        (twoDescriptors ++ [.fsync 0] ++ [.release 1]) s ∧
      s.st.pte (0, 0) = .map 0 false ∧
      ∀ a p, s.st.pte a = .map p true → (s.st.pages p).isDirty = true := by
  have h : ((fitsAll smallEnv (init smallEnv smallWorld) (twoDescriptors ++ [.fsync 0])).bind
      fun s => (s.call smallEnv (.release 1)).toOption.map fun s' =>
        ((List.range 4).map fun p => (s.st.pages p).isDirty, s'.st.pte (0, 0))) =
      some ([false, false, false, false], .map 0 false) := by decide +kernel
  obtain ⟨s, hs, hp⟩ := Option.bind_eq_some_iff.mp h
  obtain ⟨s', hs', hp⟩ := Option.map_eq_some_iff.mp hp
  obtain ⟨hd, hpte⟩ := Prod.mk.inj hp
  obtain ⟨hr, hok⟩ := (ok_init smallEnv smallWorld).run_fitsAll (by decide) hs
  -- only the first four pages are ever in use, and none is dirty after the sync
  have hclean : ∀ p, (s.st.pages p).isDirty = false := by
    intro p
    rcases (hok.quiet.page p).phase with hi | hres
    · exact hi.isDirty
    · have hlt : p < 4 := hres.lt
      have hdp := congrArg (fun l => l.getD p false) hd
      interval_cases p <;> simpa [List.range_succ] using hdp
  have hcall : s.call smallEnv (.release 1) = .ok s' := Except.toOption_eq_some.mp hs'
  have hr' := hr.snoc (⟨fun _ _ _ _ p _ _ hdp => by simp [hclean p] at hdp,
    fun _ _ _ => syncFits_of_ncpus (by decide), hcall⟩ : Steps smallEnv s (.release 1) s')
  exact ⟨s', hr', hpte, (writable_is_dirty smallEnv smallWorld _ s' hr').1⟩

set_option maxRecDepth 4000 in
/-- The other descriptor is released without a sync: the page is clean and still writable. -/
theorem release_leaves_clean_writable :
    ¬ ∀ (e : Env ℕ) (w : World ℕ) (cs : List (Call ℕ)) (s : Vfs ℕ),
      Run (Calls e) (init e w) cs s →
        ∀ a p, s.st.pte a = .map p true → (s.st.pages p).isDirty = true := by
  intro hall
  have h : ((callAll smallEnv (init smallEnv smallWorld) (twoDescriptors ++ [.release 1])).map
      fun s => (s.st.pte (0, 0), (s.st.pages 0).isDirty)) = some (.map 0 true, false) := by
    decide +kernel
  obtain ⟨s, hs, hp⟩ := Option.map_eq_some_iff.mp h
  obtain ⟨hpte, hd⟩ := Prod.mk.inj hp
  have := hall smallEnv smallWorld _ s (run_callAll hs) (0, 0) 0 hpte
  exact Bool.false_ne_true (hd.symm.trans this)

end Vfs

end FastMap
