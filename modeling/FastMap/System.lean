import FastMap.Lib.Run
import FastMap.Resolve
import FastMap.Teardown

/-!
# Calls one at a time

The calls of the driver as operations on the state, and what every sequence of completed calls
preserves: each page is free, clean or dirty, and all records of that agree.
-/

namespace FastMap

variable {C : Type*}

/-- The calls, with what the environment contributes to them. -/
inductive Op (C : Type*) where
  /-- A read fault. -/
  | fault (vma : VmaId) (i : ℕ) (f : State.FaultEnv C)
  /-- A write fault on a mapped page. -/
  | mkwrite (vma : VmaId) (i : ℕ)
  /-- A store through a writable entry. -/
  | store (vma : VmaId) (i : ℕ) (f : C → C)
  /-- A round of an evictor, while other threads hold the locks of some pages. -/
  | evictor (id : ℕ) (held : List PageId)
  | writeDirty (cb : Cleanup) (v : PvdId)
  | purge (qid : ℕ)
  | rawRelease (v : PvdId)

namespace State

/-- A round of an evictor during which the locks of some pages are taken. -/
def evictorRoundHeld (e : Env C) (s : State C) (id : ℕ) (held : List PageId) : State C :=
  let s := held.foldl (fun s p => (s.trylockTp p ulongMax).2) s
  held.foldl unlockTp (s.evictorRound e id)

/-- The batch of such a round. -/
def evictorBatchHeld (e : Env C) (s : State C) (id : ℕ) (held : List PageId) : List PageId :=
  (held.foldl (fun s p => (s.trylockTp p ulongMax).2) s).evictorBatch e id

def exec (e : Env C) (s : State C) : Op C → Except Halt (State C)
  | .fault vma i f => s.fault e vma i f
  | .mkwrite vma i => s.mkwrite e vma i
  | .store vma i f => s.store vma i f
  | .evictor id held => .ok (s.evictorRoundHeld e id held)
  | .writeDirty cb v => s.writeDirtyPages e cb v
  | .purge qid => .ok (s.tryPurgePagesFast e qid)
  | .rawRelease v => s.rawRelease e v

/-- When a call is made: a write fault is taken on a page that is mapped and cached. -/
def issued (e : Env C) (s : State C) : Op C → Bool
  | .mkwrite vma i => s.cachedMapping e vma i
  | _ => true

/-- A completed call. -/
def Completes (e : Env C) (s : State C) (op : Op C) (s' : State C) : Prop :=
  s.issued e op = true ∧ s.exec e op = .ok s'

/-- A page between calls. -/
structure Settled (e : Env C) (p : PageId) (x : PageView C) : Prop where
  phase : Idle x ∨ Resident e p x
  unlocked : x.page.locked = false
  free : e.OneNode → p < e.numPages → x.page.inUse = false → x.free = true

/-- The buffer between calls. -/
structure Quiet (e : Env C) (s : State C) : Prop where
  placed : s.Placed e
  page (p : PageId) : Settled e p (s.view e p)

variable {e : Env C} {s s' : State C} {p : PageId} {x y : PageView C}

lemma Quiet.inv (h : s.Quiet e) : s.Inv e := ⟨h.placed, fun p => (h.page p).phase⟩

lemma Settled.of_resident (h : Resident e p x) (hl : x.page.locked = false) : Settled e p x :=
  ⟨Or.inr h, hl, fun _ _ hu => by simp [h.inUse] at hu⟩

lemma Settled.of_recycled (h : Settled e p x) (hr : Recycled e p x y) : Settled e p y :=
  ⟨Or.inl hr.idle, hr.locked h.unlocked, fun ho hp _ => hr.free ho (h.free ho hp)⟩

/-! ### Initially -/

lemma numPages_eq (e : Env C) : e.numPages = e.ncpus * e.pagesPerCpu := rfl

lemma mem_initParams_fl {w : World C} {cpu : ℕ} :
    p ∈ (initParams e w).fl cpu ↔ p < e.numPages ∧ e.home p = cpu := by
  simp only [initParams, Env.home, numPages_eq]
  split_ifs with hc
  · simp only [List.mem_range'_1]
    constructor
    · rintro ⟨h₁, h₂⟩
      have hpos : 0 < e.pagesPerCpu := by omega
      refine ⟨?_, ?_⟩
      · calc p < cpu * e.pagesPerCpu + e.pagesPerCpu := h₂
          _ = (cpu + 1) * e.pagesPerCpu := by ring
          _ ≤ e.ncpus * e.pagesPerCpu := Nat.mul_le_mul_right _ hc
      · exact Nat.div_eq_of_lt_le h₁ (by linarith)
    · rintro ⟨h₁, rfl⟩
      have hpos : 0 < e.pagesPerCpu := Nat.pos_of_ne_zero fun h0 => by simp [h0] at h₁
      refine ⟨Nat.div_mul_le_self _ _, ?_⟩
      have := Nat.lt_div_mul_add hpos (a := p)
      linarith
  · constructor
    · intro h
      exact absurd h List.not_mem_nil
    · rintro ⟨h₁, rfl⟩
      have hpos : 0 < e.pagesPerCpu := Nat.pos_of_ne_zero fun h0 => by simp [h0] at h₁
      exact absurd (Nat.div_lt_of_lt_mul (by rwa [Nat.mul_comm] at h₁)) hc

lemma placed_initParams (e : Env C) (w : World C) : (initParams e w).Placed e where
  fl_nodup cpu := by
    simp only [initParams]
    split_ifs
    · exact List.nodup_range'
    · exact .nil
  fl_lt hp := (mem_initParams_fl.mp hp).1
  fl_home hp := (mem_initParams_fl.mp hp).2
  queue_nodup _ := .nil
  queue_lt hp := absurd hp List.not_mem_nil
  queue_own hp := absurd hp List.not_mem_nil
  queue_one hp := absurd hp List.not_mem_nil
  queue_size _ := rfl
  queue_maxSize _ := rfl
  tree_own ht := by simp [initParams] at ht
  enqueue_ok := rfl

lemma quiet_initParams (e : Env C) (w : World C) : (initParams e w).Quiet e := by
  refine ⟨placed_initParams e w, fun p => ⟨Or.inl ⟨rfl, ⟨rfl, rfl, fun _ => rfl⟩, rfl, rfl⟩, rfl,
    fun _ hp _ => ?_⟩⟩
  rw [view_free]
  exact mem_initParams_fl.mpr ⟨hp, rfl⟩

/-! ### Every call -/

lemma Quiet.recycles (h : s.Quiet e) (hr : Recycles e s s') : s'.Quiet e := by
  refine ⟨hr.placed, fun q => ?_⟩
  rcases hr.view_cases q with hq | hq
  · rw [hq]
    exact h.page q
  · exact (h.page q).of_recycled hq

lemma Quiet.resolves (h : s.Quiet e) (hr : Resolves e s s' p y) (hy : Settled e p y) :
    s'.Quiet e := by
  refine ⟨hr.placed, fun q => ?_⟩
  by_cases hq : q = p
  · subst hq
    rw [hr.view_self]
    exact hy
  · rcases hr.other hq with hv | ⟨-, hv⟩
    · rw [hv]
      exact h.page q
    · exact (h.page q).of_recycled hv

lemma Quiet.batch (h : s.Quiet e) {P : PageId → PageView C → Prop} {g : PageView C → PageView C}
    {pgs : List PageId} (hb : Batch e (s.view e) P g s' pgs)
    (hg : ∀ p ∈ pgs, P p (s.view e p) → Settled e p (g (s.view e p))) : s'.Quiet e := by
  refine ⟨hb.placed, fun q => ?_⟩
  by_cases hq : q ∈ pgs
  · rw [hb.view_of_mem hq]
    exact hg q hq (hb.all hq)
  · rw [hb.view_of_not_mem hq]
    exact h.page q

lemma settled_synced (cb : Cleanup) (h : Resident e p x) : Settled e p (x.synced cb) :=
  .of_resident (resident_synced h) (by rw [PageView.synced_page]; rfl)

lemma settled_dropped {v : PvdId} (h : Owned e v p x) (hd : x.page.isDirty = false) :
    Settled e p x.dropped := by
  refine ⟨Or.inl ⟨rfl, ⟨rfl, rfl, fun k => ?_⟩, rfl, rfl⟩, rfl, fun _ _ _ => rfl⟩
  cases k with
  | rdx => simp [PageView.dropped, PageView.freed, PageView.uncached]
  | dirty => exact h.1.tree.trans hd

/-- Mapping a resident page keeps it resident. -/
lemma settled_mapped {vmf : VmFault} (h : Mapped vmf x y) (hr : Resident e p x) :
    Settled e p y := by
  rw [h.same]
  exact .of_resident
    ⟨hr.lt, hr.inUse, hr.free, hr.cpuid, hr.cached, hr.tree, hr.clean, hr.dirty, hr.bufferId⟩ rfl

/-- A free page that has been filled is resident. -/
lemma resident_filled {cpu : ℕ} {offset : Pgoff} {v : PvdId} {c : C} (hi : Idle x)
    (hp : p < e.numPages) (hc : cpu = e.home p) : Resident e p (x.filled cpu offset v c) where
  lt := hp
  inUse := rfl
  free := rfl
  cpuid := hc
  cached := by simp [PageView.filled, PageView.inserted]
  tree := hi.unlinked.tree .dirty
  clean := rfl
  dirty := hi.unlinked.dirty
  bufferId := rfl

/-- The page of a fault is resident before it is mapped. -/
lemma Faulted.resident {s₀ : State C} {vmf : VmFault} {f : FaultEnv C} {v : PvdId}
    (h : s.Inv e) (hf : Faulted e s s₀ s' vmf f v p x y) : Resident e p x := by
  rcases hf.found with ⟨hr, -, -, -, rfl⟩ | ⟨hfree, -, rfl⟩
  · exact hr
  · exact resident_filled (Idle.of_free ((hf.recycles.inv h).page p) hfree)
      (hf.recycles.placed.fl_lt ((view_free e s₀ p).mp hfree)) rfl

lemma Quiet.fault (h : s.Quiet e) {vma : VmaId} {i : ℕ} {f : FaultEnv C}
    (hs : s.fault e vma i f = .ok s') : s'.Quiet e := by
  obtain ⟨s₀, v, p, x, y, hf⟩ := h.inv.fault hs
  exact (h.recycles hf.recycles).resolves hf.resolves (settled_mapped hf.mapped (hf.resident h.inv))

lemma Quiet.mkwrite (h : s.Quiet e) {vma : VmaId} {i : ℕ} (hc : s.cachedMapping e vma i = true)
    (hs : s.mkwrite e vma i = .ok s') : s'.Quiet e := by
  rcases h.inv.mkwrite hc hs with rfl | ⟨p, v, w, -, hr, hl, -, -, -, -, hm⟩
  · exact h
  · have hd := hr.dirtied
    exact h.resolves hm.resolves (.of_resident
      ⟨hd.lt, hd.inUse, hd.free, hd.cpuid, hd.cached, hd.tree, hd.clean, hd.dirty, hd.bufferId⟩ hl)

/-- A store writes into the page that a writable entry maps. -/
lemma Placed.store (h : s.Placed e) {vma : VmaId} {i : ℕ} {f : C → C}
    (hs : s.store vma i f = .ok s') :
    ∃ p, s.pte (vma, (s.vmas vma).addr i) = .map p true ∧ s'.outside = s.outside ∧
      Moves e s s' p
        { s.view e p with page := { s.pages p with content := f (s.pages p).content } } := by
  simp only [State.store] at hs
  split at hs
  · rename_i p hp
    obtain rfl : s.modifyPage p _ = s' := by simpa using hs
    exact ⟨p, hp, rfl, h.moves_modifyPage p rfl rfl⟩
  · exact absurd hs (by simp)

lemma Settled.of_fields (h : Settled e p x) (hf : y.free = x.free) (hc : y.clean = x.clean)
    (hd : y.dirty = x.dirty) (ht : y.tree = x.tree) (hu : y.page.inUse = x.page.inUse)
    (hi : y.page.isDirty = x.page.isDirty) (hb : y.page.bufferId = x.page.bufferId)
    (hcpu : y.page.cpuid = x.page.cpuid) (hl : y.page.locked = false) : Settled e p y := by
  refine ⟨?_, hl, fun ho hp hn => by rw [hf]; exact h.free ho hp (hu ▸ hn)⟩
  rcases h.phase with hx | hx
  · exact Or.inl ⟨hu.trans hx.inUse, ⟨hc.trans hx.unlinked.clean, hd.trans hx.unlinked.dirty,
      fun k => by rw [ht]; exact hx.unlinked.tree k⟩, hb.trans hx.bufferId, hi.trans hx.isDirty⟩
  · refine Or.inr ⟨hx.lt, hu.trans hx.inUse, hf.trans hx.free, hcpu.trans hx.cpuid, ?_, ?_, ?_, ?_,
      ?_⟩
    · rw [ht]
      exact hx.cached
    · rw [ht, hi]
      exact hx.tree
    · rw [hc, hi]
      exact hx.clean
    · rw [hd, hi]
      exact hx.dirty
    · rw [hb, hi]
      exact hx.bufferId

lemma Quiet.store (h : s.Quiet e) {vma : VmaId} {i : ℕ} {f : C → C}
    (hs : s.store vma i f = .ok s') : s'.Quiet e := by
  obtain ⟨p, -, -, hm⟩ := h.placed.store hs
  exact h.resolves hm.resolves
    ((h.page p).of_fields rfl rfl rfl rfl rfl rfl rfl rfl (h.page p).unlocked)

lemma Quiet.writeDirtyPages (h : s.Quiet e) {cb : Cleanup} {v : PvdId}
    (hs : s.writeDirtyPages e cb v = .ok s') : s'.Quiet e := by
  have hl := h.inv.writeDirtyPages hs
  exact h.batch hl.batch fun p _ hp => settled_synced cb hp.1

lemma Quiet.rawRelease (h : s.Quiet e) {v : PvdId} (hs : s.rawRelease e v = .ok s') :
    s'.Quiet e := by
  obtain ⟨s₁, pgs, hw, hl, hc⟩ := h.inv.rawRelease hs
  have h₁ := h.writeDirtyPages hw
  refine h₁.batch hc.batch fun p _ hp => settled_dropped hp ?_
  exact hl.clean_after hp.1 hp.2.1

/-! ### Evictors -/

/-- A loop that only takes or releases page locks. -/
lemma Placed.foldl_locks {f : State C → PageId → State C}
    (hf : ∀ s p, s.Placed e →
      ∃ b, Moves e s (f s p) p { s.view e p with page := { s.pages p with locked := b } })
    (l : List PageId) (h : s.Placed e) : (l.foldl f s).Placed e ∧
      ∀ q, (∃ b, (l.foldl f s).view e q =
        { s.view e q with page := { s.pages q with locked := b } }) ∧
        (q ∉ l → (l.foldl f s).view e q = s.view e q) := by
  induction l generalizing s with
  | nil => exact ⟨h, fun q => ⟨⟨_, rfl⟩, fun _ => rfl⟩⟩
  | cons p l ih =>
    obtain ⟨b, hm⟩ := hf s p h
    obtain ⟨hp, hq⟩ := ih hm.placed
    refine ⟨hp, fun q => ?_⟩
    obtain ⟨⟨b', hb'⟩, hsame⟩ := hq q
    rw [List.foldl_cons]
    by_cases hqp : q = p
    · subst hqp
      rw [hm.view_self, hm.pages_self] at hb'
      exact ⟨⟨b', hb'⟩, fun hn => absurd List.mem_cons_self hn⟩
    · have hv := hm.view_of_ne hqp
      rw [hv, ← view_page e, hv] at hb'
      exact ⟨⟨b', hb'⟩, fun hn => (hsame fun hl => hn (List.mem_cons_of_mem _ hl)).trans hv⟩

lemma moves_trylock (h : s.Placed e) (p : PageId) : ∃ b,
    Moves e s (s.trylockTp p ulongMax).2 p
      { s.view e p with page := { s.pages p with locked := b } } := by
  rcases s.trylockTp_cases p ulongMax with ⟨r, -, ht⟩ | ⟨-, -, -, ht⟩
  · rw [ht]
    exact ⟨_, h.moves_refl p⟩
  · rw [ht]
    exact ⟨true, h.moves_modifyPage p (f := fun t => { t with locked := true }) rfl rfl⟩

lemma foldl_unlockTp (l : List PageId) (q : PageId)
    (hq : q ∈ l ∨ (s.pages q).locked = false) : ((l.foldl unlockTp s).pages q).locked = false := by
  induction l generalizing s with
  | nil => exact hq.resolve_left List.not_mem_nil
  | cons p l ih =>
    refine ih ?_
    by_cases hqp : q = p
    · subst hqp
      exact Or.inr (by simp [unlockTp, modifyPage])
    · rcases hq with hq | hq
      · exact Or.inl ((List.mem_cons.mp hq).resolve_left hqp)
      · exact Or.inr (by simpa [unlockTp, modifyPage, hqp] using hq)

/-- What a round does, up to locks: pages of one pvd that are dirty are made clean. -/
lemma Quiet.evictorRoundHeld (h : s.Quiet e) (id : ℕ) (held : List PageId) : ∃ v,
    Batch e (s.view e) (Evictable e v) PageView.evicted (s.evictorRoundHeld e id held)
      (s.evictorBatchHeld e id held) ∧
    (s.evictorRoundHeld e id held).outside =
      { s.outside with disk := (s.evictorRoundHeld e id held).disk } ∧
    WrittenBack e v (s.view e) s (s.evictorRoundHeld e id held) (s.evictorBatchHeld e id held) := by
  simp only [State.evictorBatchHeld]
  set s₁ := held.foldl (fun s p => (s.trylockTp p ulongMax).2) s with hs₁
  obtain ⟨hp₁, hv₁⟩ := Placed.foldl_locks (fun s p hs => moves_trylock hs p) held h.placed
  rw [← hs₁] at hp₁ hv₁
  have hout₁ : s₁.outside = s.outside :=
    foldl_outside (fun s p => outside_trylockTp s p ulongMax) held s
  have hinv₁ : s₁.Inv e := by
    refine ⟨hp₁, fun q => ?_⟩
    obtain ⟨⟨b, hb⟩, -⟩ := hv₁ q
    rw [hb]
    rcases (h.page q).phase with hx | hx
    · exact Or.inl ⟨hx.inUse, ⟨hx.unlinked.clean, hx.unlinked.dirty, hx.unlinked.tree⟩,
        hx.bufferId, hx.isDirty⟩
    · exact Or.inr ⟨hx.lt, hx.inUse, hx.free, hx.cpuid, hx.cached, hx.tree, hx.clean, hx.dirty,
        hx.bufferId⟩
  obtain ⟨v, hb, hout, hsync⟩ := hinv₁.evictorRound id
  set pgs := s₁.evictorBatch e id with hpgs
  set s₂ := s₁.evictorRound e id with hs₂
  -- a page of the batch was not locked
  have hx : ∀ q ∈ pgs, s₁.view e q = s.view e q := by
    intro q hq
    obtain ⟨⟨b, hbq⟩, -⟩ := hv₁ q
    have hl := (hb.all hq).2.2.1
    rw [hbq] at hl
    have hl' : b = (s.pages q).locked := (hl : b = false).trans (h.page q).unlocked.symm
    rw [hbq, hl']
    rfl
  obtain ⟨hp₃, hv₃⟩ := Placed.foldl_locks (f := unlockTp)
    (fun s p hs => ⟨false, hs.moves_modifyPage p rfl rfl⟩) held hb.placed
  have hout₃ : (held.foldl unlockTp s₂).outside = s₂.outside :=
    foldl_outside (fun s p => outside_unlockTp s p) held s₂
  have hdisk : (s.evictorRoundHeld e id held).disk = s₂.disk := congrArg Outside.disk hout₃
  have hlock : ∀ q, ((s.evictorRoundHeld e id held).pages q).locked = false := by
    intro q
    refine foldl_unlockTp held q ?_
    by_cases hq : q ∈ held
    · exact Or.inl hq
    · right
      rw [← view_page e, hb.view_eq, (hv₁ q).2 hq]
      split_ifs
      · rfl
      · exact (h.page q).unlocked
  have hfin : ∀ q, ∃ y, s₂.view e q = y ∧ (s.evictorRoundHeld e id held).view e q =
      { y with page := { y.page with locked := false } } := by
    intro q
    obtain ⟨⟨b, hbq⟩, -⟩ := hv₃ q
    refine ⟨_, rfl, ?_⟩
    have hl := hlock q
    rw [← view_page e, State.evictorRoundHeld, ← hs₁, ← hs₂, hbq] at hl
    rw [State.evictorRoundHeld, ← hs₁, ← hs₂, hbq, show b = false from hl]
    rfl
  refine ⟨v, ⟨hp₃, hb.nodup, fun hq => hx _ hq ▸ hb.all hq, fun q => ?_⟩, ?_, ?_⟩
  · obtain ⟨y, hy, hyq⟩ := hfin q
    rw [hyq, ← hy, hb.view_eq]
    split_ifs with hq
    · rw [hx q hq]
      rfl
    · obtain ⟨⟨b, hbq⟩, -⟩ := hv₁ q
      have hl := (h.page q).unlocked
      rw [hbq, ← hl]
      rfl
  · rw [show (s.evictorRoundHeld e id held).outside = s₂.outside from hout₃, hout, hout₁, hdisk]
  · exact hsync.congr (fun q hq => (hx q hq).symm) (congrArg Outside.pvds hout₁).symm
      (congrArg Outside.disk hout₁).symm hdisk

/-! ### Runs -/

/-- Between calls the buffer is quiet again. -/
lemma Quiet.step (h : s.Quiet e) {op : Op C} (hs : Completes e s op s') : s'.Quiet e := by
  obtain ⟨hi, hs⟩ := hs
  cases op with
  | fault vma i f => exact h.fault hs
  | mkwrite vma i => exact h.mkwrite hi hs
  | store vma i f => exact h.store hs
  | evictor id held =>
    obtain rfl : s.evictorRoundHeld e id held = s' := by simpa [exec] using hs
    obtain ⟨v, hb, -⟩ := h.evictorRoundHeld id held
    exact h.batch hb fun p _ hp => settled_synced .fsync hp.1
  | writeDirty cb v => exact h.writeDirtyPages hs
  | purge qid =>
    obtain rfl : s.tryPurgePagesFast e qid = s' := by simpa [exec] using hs
    exact h.recycles (h.inv.recycles_tryPurgePagesFast qid)
  | rawRelease v => exact h.rawRelease hs

/-- Calls change the device and set bits of the bitmap, and change nothing else outside the
buffer. -/
lemma Quiet.outside_bitmap_of_exec (h : s.Quiet e) (op : Op C) (hi : s.issued e op = true)
    (hs : s.exec e op = .ok s') :
    s'.outside = { s.outside with disk := s'.disk, bitmap := s'.bitmap } ∧
      ∀ a, s.bitmap a = true → s'.bitmap a = true := by
  -- it is enough that some device fits
  have hof : ∀ d, s'.outside = { s.outside with disk := d } →
      s'.outside = { s.outside with disk := s'.disk, bitmap := s'.bitmap } ∧
        ∀ a, s.bitmap a = true → s'.bitmap a = true := by
    intro d ho
    have hbit : s'.bitmap = s.bitmap := congrArg Outside.bitmap ho
    rw [show s'.disk = d from congrArg Outside.disk ho, hbit, ho]
    exact ⟨rfl, fun _ ha => ha⟩
  cases op with
  | fault vma i f =>
    obtain ⟨s₀, v, p, x, y, hf⟩ := h.inv.fault hs
    have hdisk : s'.disk = s.disk := congrArg Outside.disk hf.outside_eq
    rw [hdisk]
    exact ⟨hf.outside_eq, fun _ => hf.bitmap⟩
  | mkwrite vma i =>
    rcases h.inv.mkwrite hi hs with rfl | ⟨p, v, w, -, -, -, -, -, -, ho, -⟩
    · exact hof _ rfl
    · exact hof _ ho
  | store vma i f =>
    obtain ⟨p, -, ho, -⟩ := h.placed.store hs
    exact hof _ ho
  | evictor id held =>
    obtain rfl : s.evictorRoundHeld e id held = s' := by simpa [exec] using hs
    obtain ⟨v, -, ho, -⟩ := h.evictorRoundHeld id held
    exact hof _ ho
  | writeDirty cb v => exact hof _ (h.inv.writeDirtyPages hs).outside_eq
  | purge qid =>
    obtain rfl : s.tryPurgePagesFast e qid = s' := by simpa [exec] using hs
    exact hof _ (h.inv.recycles_tryPurgePagesFast qid).outside_eq
  | rawRelease v =>
    obtain ⟨s₁, pgs, -, hl, hc⟩ := h.inv.rawRelease hs
    exact hof s₁.disk (hc.outside_eq.trans hl.outside_eq)

lemma Quiet.outside_of_exec (h : s.Quiet e) (op : Op C) (hi : s.issued e op = true)
    (hs : s.exec e op = .ok s') :
    s'.outside = { s.outside with disk := s'.disk, bitmap := s'.bitmap } :=
  (h.outside_bitmap_of_exec op hi hs).1

lemma Quiet.run {ops : List (Op C)} {s₀ : State C} (h : s₀.Quiet e)
    (hr : Run (Completes e) s₀ ops s) : s.Quiet e :=
  hr.invariant (fun _ _ _ hq hs => hq.step hs) h

/-- The state after a sequence of calls, if all of them are issued and complete. -/
def execAll (e : Env C) (s : State C) (ops : List (Op C)) : Option (State C) :=
  ops.foldlM (fun s op => if s.issued e op then (s.exec e op).toOption else none) s

lemma run_execAll {ops : List (Op C)} (h : execAll e s ops = some s') :
    Run (Completes e) s ops s' := by
  refine Run.of_foldlM (fun s op s' hs => ?_) h
  split_ifs at hs with hi
  exact ⟨hi, Except.toOption_eq_some.mp hs⟩

/-! ### A small machine -/

/-- One CPU, one node, four pages, and the driver's own writer. -/
def smallEnv : Env ℕ where
  ncpus := 1
  ncpus_pos := Nat.one_pos
  bufSize := 4
  bufSize_lt := by decide
  numaDv _ := [0]
  cpumaskOfNode _ := [0]
  writeAsync := driverWriter

/-- Two processors of one node, with two pages each. -/
def nodeEnv : Env ℕ :=
  { smallEnv with ncpus := 2, ncpus_pos := Nat.two_pos, cpumaskOfNode := fun _ => [0, 1] }

/-- The small machine with a single page. -/
def onePageEnv : Env ℕ := { smallEnv with bufSize := 1, bufSize_lt := by decide }

/-- Descriptor and area `v` belong to file `v`, which is mapped from its start. -/
def smallWorld : World ℕ where
  frame _ := 0
  pvds v := ⟨.file, v, true, true, true, false⟩
  vmas v := ⟨0, 8 * pageSize, 0, v⟩
  infos i := ⟨true, some i, some i⟩
  disk a := a.2
  bitmap _ := true
  devPages _ := 8

/-- The same with a raw device behind every descriptor. -/
def rawWorld : World ℕ :=
  { smallWorld with pvds := fun v => { smallWorld.pvds v with type := .blkd } }

/-- A fault that needs at most two passes and whose read succeeds. -/
def smallFault : FaultEnv ℕ := ⟨[⟨false, 0, 0⟩, ⟨false, 0, 0⟩], 0, .full⟩

end State

end FastMap
