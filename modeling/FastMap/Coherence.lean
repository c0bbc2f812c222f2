import FastMap.Lib.CacheLine
import FastMap.Tables

/-!
# No store is lost

Over one file the buffer is a write-back cache: every call but a store is silent on every block,
in the sense of `CacheLine.Silent`, and a store writes into one dirty block. What readers see is
therefore the initial content of the device with the stores applied to it.
-/

namespace FastMap

variable {C : Type*}

/-- The page caches a block of a file. -/
def TaggedPage.Caches (t : TaggedPage C) (v : PvdId) (off : Pgoff) : Prop :=
  t.inUse = true ∧ t.pvd = some v ∧ t.index = off

namespace State

variable {e : Env C} {s s' : State C} {v v' : PvdId} {off : Pgoff} {p : PageId}

/-- A block of a file as the cache has it. -/
def line (e : Env C) (s : State C) (v : PvdId) (off : Pgoff) : CacheLine C where
  cached := (s.fmapRadixLookup e v off).map fun p => ((s.pages p).content, (s.pages p).isDirty)
  back := s.disk ((s.pvds v).bk, off)

/-- The logical content of a block: that of the cached page, or else that of the device. -/
def logical (e : Env C) (s : State C) (v : PvdId) (off : Pgoff) : C :=
  match s.fmapRadixLookup e v off with
  | some p => (s.pages p).content
  | none => s.disk ((s.pvds v).bk, off)

lemma read_line (e : Env C) (s : State C) (v : PvdId) (off : Pgoff) :
    (s.line e v off).read = s.logical e v off := by
  simp only [CacheLine.read, line, logical]
  cases s.fmapRadixLookup e v off <;> rfl

lemma Inv.lookup_iff (h : s.Inv e) :
    s.fmapRadixLookup e v off = some p ↔ (s.pages p).Caches v off := by
  constructor
  · intro hl
    obtain ⟨-, hv, hi⟩ := h.placed.treeLookup_iff.mp hl
    exact ⟨(h.resident_of_lookup hl).inUse, hv, hi⟩
  · rintro ⟨hu, hv, hi⟩
    have hr : Resident e p (s.view e p) :=
      (h.page p).resolve_left fun hidle => Bool.false_ne_true (hidle.inUse.symm.trans hu)
    exact h.placed.treeLookup_iff.mpr ⟨hr.cached, hv, hi⟩

lemma Inv.caches_unique (h : s.Inv e) {q : PageId} (hp : (s.pages p).Caches v off)
    (hq : (s.pages q).Caches v off) : p = q :=
  Option.some_injective _ ((h.lookup_iff.mpr hp).symm.trans (h.lookup_iff.mpr hq))

lemma Inv.line_cached (h : s.Inv e) (hp : (s.pages p).Caches v off) :
    s.line e v off =
      ⟨some ((s.pages p).content, (s.pages p).isDirty), s.disk ((s.pvds v).bk, off)⟩ := by
  simp only [line, h.lookup_iff.mpr hp, Option.map_some]

lemma Inv.line_uncached (h : s.Inv e) (hp : ∀ p, ¬ (s.pages p).Caches v off) :
    s.line e v off = ⟨none, s.disk ((s.pvds v).bk, off)⟩ := by
  have hl : s.fmapRadixLookup e v off = none := by
    rw [Option.eq_none_iff_forall_ne_some]
    intro p hlp
    exact hp p (h.lookup_iff.mp hlp)
  simp only [line, hl, Option.map_none]

/-- A block is the same when the page that caches it and the device are. -/
lemma Inv.line_congr (h : s.Inv e) (h' : s'.Inv e)
    (hd : s'.disk ((s'.pvds v).bk, off) = s.disk ((s.pvds v).bk, off))
    (hc : ∀ q, (s'.pages q).Caches v off ↔ (s.pages q).Caches v off)
    (hq : ∀ q, (s.pages q).Caches v off → (s'.pages q).content = (s.pages q).content ∧
      (s'.pages q).isDirty = (s.pages q).isDirty) : s'.line e v off = s.line e v off := by
  by_cases hex : ∃ q, (s.pages q).Caches v off
  · obtain ⟨q, hcq⟩ := hex
    obtain ⟨h₁, h₂⟩ := hq q hcq
    rw [h.line_cached hcq, h'.line_cached ((hc q).mpr hcq), h₁, h₂, hd]
  · rw [not_exists] at hex
    rw [h.line_uncached hex, h'.line_uncached fun q hcq => hex q ((hc q).mp hcq), hd]

/-! ### Silent calls -/

/-- Reclaim drops clean pages. -/
lemma Recycles.silent (h : s.Inv e) (hr : Recycles e s s') (v : PvdId) (off : Pgoff) :
    (s.line e v off).Silent (s'.line e v off) := by
  have h' := hr.inv h
  have hdisk : s'.disk = s.disk := congrArg Outside.disk hr.outside_eq
  have hpvds : s'.pvds = s.pvds := congrArg Outside.pvds hr.outside_eq
  -- what caches a block now has cached it before
  have hback : ∀ q, (s'.pages q).Caches v off → s'.view e q = s.view e q := by
    intro q hc
    refine (hr.view_cases q).resolve_right fun hrec => ?_
    exact Bool.false_ne_true (hrec.idle.inUse.symm.trans hc.1)
  by_cases hex : ∃ q, (s.pages q).Caches v off
  · obtain ⟨q, hc⟩ := hex
    rcases hr.view_cases q with hq | hq
    · have hpage : s'.pages q = s.pages q := congrArg PageView.page hq
      rw [h.line_cached hc, h'.line_cached (hpage.symm ▸ hc), hpage, hdisk, hpvds]
      exact .refl _
    · have hclean : (s.pages q).isDirty = false := by
        rcases hq.before with hidle | hpurge
        · exact absurd (hidle.inUse.symm.trans hc.1) Bool.false_ne_true
        · exact hpurge.2.1
      have hnone : ∀ r, ¬ (s'.pages r).Caches v off := by
        intro r hcr
        have hpage : s'.pages r = s.pages r := congrArg PageView.page (hback r hcr)
        obtain rfl := h.caches_unique hc (hpage ▸ hcr)
        exact Bool.false_ne_true (hq.idle.inUse.symm.trans hcr.1)
      rw [h.line_cached hc, h'.line_uncached hnone, hclean, hdisk, hpvds]
      exact .drop _ _
  · rw [not_exists] at hex
    have hnone : ∀ r, ¬ (s'.pages r).Caches v off := by
      intro r hcr
      have hpage : s'.pages r = s.pages r := congrArg PageView.page (hback r hcr)
      exact hex r (hpage ▸ hcr)
    rw [h.line_uncached hex, h'.line_uncached hnone, hdisk, hpvds]
    exact .refl _

/-- Eviction and sync clean dirty pages, having written them. -/
lemma Batch.silent {cb : Cleanup} {pgs : List PageId} (h : s.Inv e) (h' : s'.Inv e)
    (hb : Batch e (s.view e) (Evictable e v') (PageView.synced cb) s' pgs)
    (hpvds : s'.pvds = s.pvds) (hs : Synced v' (s.view e) s s' pgs)
    (ha : (s.pvds v').bk = (s.pvds v).bk → v' = v) (off : Pgoff) :
    (s.line e v off).Silent (s'.line e v off) := by
  have hcaches : ∀ q, (s'.pages q).Caches v off ↔ (s.pages q).Caches v off := by
    intro q
    by_cases hq : q ∈ pgs
    · rw [hb.pages_of_mem hq]
      rfl
    · rw [hb.pages_of_not_mem hq]
  by_cases hex : ∃ q ∈ pgs, (s.pages q).Caches v off
  · obtain ⟨q, hq, hc⟩ := hex
    obtain ⟨-, hdirty, -, hv⟩ := hb.all hq
    obtain rfl : v' = v := Option.some_injective _ (hv.symm.trans hc.2.1)
    have hw := hs.written hq
    rw [view_page, hc.2.2] at hw
    have hd : (s.pages q).isDirty = true := hdirty
    rw [h.line_cached hc, h'.line_cached ((hcaches q).mpr hc), hpvds, hw,
      hb.pages_of_mem hq, hd]
    exact .clean _ _
  · have hdisk : s'.disk ((s.pvds v).bk, off) = s.disk ((s.pvds v).bk, off) := by
      refine hs.other fun q hq heq => hex ⟨q, hq, ?_⟩
      obtain ⟨hbk, hi⟩ := Prod.mk.inj heq
      obtain ⟨hr, -, -, hv⟩ := hb.all hq
      exact ⟨hr.inUse, ha hbk.symm ▸ hv, hi.symm⟩
    have hsame : s'.line e v off = s.line e v off := by
      refine h.line_congr h' (by rw [hpvds, hdisk]) hcaches fun q hc => ?_
      rw [hb.pages_of_not_mem fun hq => hex ⟨q, hq, hc⟩]
      exact ⟨rfl, rfl⟩
    rw [hsame]
    exact .refl _

/-- Once pages have been reclaimed, a fault fills one block, or none. -/
lemma Faulted.line_cases {s₀ : State C} {vmf : VmFault} {f : FaultEnv C} {x y : PageView C}
    (h : s.Inv e) (h' : s'.Inv e) (hf : Faulted e s s₀ s' vmf f v' p x y) (v : PvdId)
    (off : Pgoff) : s'.line e v off = s₀.line e v off ∨
      v' = v ∧ vmf.pgoff = off ∧ s₀.line e v off = ⟨none, s.disk ((s.pvds v).bk, off)⟩ ∧
        s'.line e v off = ⟨some (s.loaded v off f.read (s₀.pages p).content, false),
          s.disk ((s.pvds v).bk, off)⟩ := by
  have h₀ := hf.recycles.inv h
  have hdisk₀ : s₀.disk = s.disk := congrArg Outside.disk hf.recycles.outside_eq
  have hpvds₀ : s₀.pvds = s.pvds := congrArg Outside.pvds hf.recycles.outside_eq
  have hdisk : s'.disk = s.disk := congrArg Outside.disk hf.outside_eq
  have hpvds : s'.pvds = s.pvds := congrArg Outside.pvds hf.outside_eq
  have hback : s'.disk ((s'.pvds v).bk, off) = s₀.disk ((s₀.pvds v).bk, off) := by
    rw [hdisk, hpvds, hdisk₀, hpvds₀]
  have hpage : s'.pages p = { x.page with rmap := y.page.rmap, locked := false } := by
    rw [← view_page e, hf.resolves.view_self]
    exact congrArg PageView.page hf.mapped.same
  -- a page other than `p` caches what it cached
  have hother : ∀ q, q ≠ p → (s'.pages q = s₀.pages q ∨
      ¬ (s'.pages q).Caches v off ∧ ¬ (s₀.pages q).Caches v off) := by
    intro q hq
    rcases hf.resolves.other hq with hv | ⟨hidle, hrec⟩
    · exact Or.inl (congrArg PageView.page hv)
    · exact Or.inr ⟨fun hc => Bool.false_ne_true (hrec.idle.inUse.symm.trans hc.1),
        fun hc => Bool.false_ne_true (hidle.inUse.symm.trans hc.1)⟩
  -- so the block is the same if that holds of `p` as well
  have hsame : (((s'.pages p).Caches v off ↔ (s₀.pages p).Caches v off) ∧
      ((s₀.pages p).Caches v off → (s'.pages p).content = (s₀.pages p).content ∧
        (s'.pages p).isDirty = (s₀.pages p).isDirty)) →
      s'.line e v off = s₀.line e v off := by
    rintro ⟨hc, hq⟩
    apply h₀.line_congr h' hback
    · intro q
      by_cases hqp : q = p
      · rw [hqp]
        exact hc
      · rcases hother q hqp with heq | ⟨hn, hn₀⟩
        · rw [heq]
        · exact iff_of_false hn hn₀
    · intro q hcq
      by_cases hqp : q = p
      · rw [hqp] at hcq ⊢
        exact hq hcq
      · rcases hother q hqp with heq | ⟨-, hn₀⟩
        · rw [heq]
          exact ⟨rfl, rfl⟩
        · exact absurd hcq hn₀
  rcases hf.found with ⟨-, -, -, -, rfl⟩ | ⟨hfree, hmiss, rfl⟩
  · left
    apply hsame
    rw [hpage]
    exact ⟨Iff.rfl, fun _ => ⟨rfl, rfl⟩⟩
  · have hnot : ¬ (s₀.pages p).Caches v off := fun hc =>
      Bool.false_ne_true ((Idle.of_free (h₀.page p) hfree).inUse.symm.trans hc.1)
    by_cases hc : (s'.pages p).Caches v off
    · -- the block that the fault has filled
      right
      have hkey : v' = v ∧ vmf.pgoff = off := by
        rw [hpage] at hc
        exact ⟨Option.some_injective _ hc.2.1, hc.2.2⟩
      obtain ⟨rfl, rfl⟩ := hkey
      have hnone : ∀ q, ¬ (s₀.pages q).Caches v' vmf.pgoff := fun q hcq => by
        rw [← h₀.lookup_iff, hmiss] at hcq
        exact absurd hcq (by simp)
      refine ⟨rfl, rfl, ?_, ?_⟩
      · rw [h₀.line_uncached hnone, hdisk₀, hpvds₀]
      · rw [h'.line_cached hc, hdisk, hpvds, hpage]
        rfl
    · exact Or.inl (hsame ⟨iff_of_false hc hnot, fun hc₀ => absurd hc₀ hnot⟩)

/-- A block that is read in full is filled with what the device has. -/
lemma Faulted.silent {s₀ : State C} {vmf : VmFault} {f : FaultEnv C} {x y : PageView C}
    (h : s.Inv e) (h' : s'.Inv e) (hf : Faulted e s s₀ s' vmf f v' p x y) (hfull : f.read = .full)
    (hbit : (s.pvds v).type = .blkd → ∀ off, s.bitmap ((s.pvds v).bk, off) = true) (off : Pgoff) :
    (s₀.line e v off).Silent (s'.line e v off) := by
  rcases hf.line_cases h h' v off with hl | ⟨-, -, hl₀, hl⟩
  · rw [hl]
    exact .refl _
  · rw [hl₀, hl, loaded_full hfull fun ht => hbit ht _]
    exact .fill _

/-- A call that only changes one resident page, which keeps its place. -/
lemma Moves.line_eq {w : PageView C} (h : s.Inv e) (h' : s'.Inv e) (hm : Moves e s s' p w)
    (ho : s'.outside = s.outside) (hp : ¬ (s.pages p).Caches v off)
    (hc : w.page.Caches v off ↔ (s.pages p).Caches v off) : s'.line e v off = s.line e v off := by
  have hdisk : s'.disk = s.disk := congrArg Outside.disk ho
  have hpvds : s'.pvds = s.pvds := congrArg Outside.pvds ho
  have hne : ∀ q, q ≠ p → s'.pages q = s.pages q := fun q hq =>
    congrArg PageView.page (hm.view_of_ne hq)
  refine h.line_congr h' (by rw [hdisk, hpvds]) (fun q => ?_) fun q hcq => ?_
  · by_cases hq : q = p
    · rw [hq, hm.pages_self]
      exact hc
    · rw [hne q hq]
  · have hq : q ≠ p := fun hq => hp (hq ▸ hcq)
    rw [hne q hq]
    exact ⟨rfl, rfl⟩

/-! ### Runs -/

/-- The mapped areas, all from the start. -/
def World.areas (w : World C) : Areas where
  live _ := True
  area := w.vmas
  pvd vma := (w.infos (w.vmas vma).info).pvd

/-- The effect of a call on the content of a file as readers see it: only stores have one. -/
def World.act (w : World C) (v : PvdId) (m : Pgoff → C) : Op C → Pgoff → C
  | .store vma i f =>
    if w.areas.pvd vma = some v then
      let off := (w.vmas vma).vmPgoff + i
      Function.update m off (f (m off))
    else m
  | _ => m

/-- The content of a file after a sequence of calls: the stores applied to the device. -/
def World.memory (w : World C) (v : PvdId) (ops : List (Op C)) : Pgoff → C :=
  ops.foldl (w.act v) fun off => w.disk ((w.pvds v).bk, off)

/-- Every read of the device succeeds, and pages are made clean by evictors and by fsync. -/
def Regular : Op C → Prop
  | .fault _ _ f => f.read = .full
  | .writeDirty cb _ => cb = .fsync
  | .rawRelease _ => False
  | _ => True

/-- A completed call of this kind. -/
def Serves (e : Env C) (s : State C) (op : Op C) (s' : State C) : Prop :=
  Regular op ∧ s.exec e op = .ok s'

/-- Pages are made clean by evictors and by fsync, and no file is released. -/
def Mild : Op C → Prop
  | .writeDirty cb _ => cb = .fsync
  | .rawRelease _ => False
  | _ => True

lemma Regular.mild {op : Op C} (h : Regular op) : Mild op := by
  cases op with
  | writeDirty cb v => exact h
  | rawRelease v => exact h
  | _ => exact trivial

/-- The files and the areas are those of the start. -/
structure Steady (e : Env C) (w : World C) (s : State C) : Prop where
  quiet : s.Quiet e
  tracks : s.Tracks e w.areas
  pvds : s.pvds = w.pvds
  vmas : s.vmas = w.vmas
  infos : s.infos = w.infos

/-- The invariant of a file. -/
structure Coherent (e : Env C) (w : World C) (v : PvdId) (s : State C) : Prop
    extends Steady e w s where
  bitmap : (w.pvds v).type = .blkd → ∀ off, s.bitmap ((w.pvds v).bk, off) = true
  line (off : Pgoff) : (s.line e v off).Coherent

variable {w : World C}

lemma Steady.vmaPvd (h : Steady e w s) (vma : VmaId) : w.areas.pvd vma = s.vmaPvd vma := by
  simp only [World.areas, State.vmaPvd, h.vmas, h.infos]

lemma Steady.area (h : Steady e w s) (vma : VmaId) : w.areas.area vma = s.vmas vma := by
  rw [h.vmas]
  rfl

lemma steady_initParams (e : Env C) (w : World C) : Steady e w (initParams e w) where
  quiet := quiet_initParams e w
  tracks _ := ⟨fun h => by simp [State.view, mapping, initParams] at h, fun h => by
    simp [State.view, initParams, TaggedPage.init] at h⟩
  pvds := rfl
  vmas := rfl
  infos := rfl

lemma coherent_initParams (hb : (w.pvds v).type = .blkd → ∀ off, w.bitmap ((w.pvds v).bk, off)) :
    Coherent e w v (initParams e w) where
  toSteady := steady_initParams e w
  bitmap := hb
  line off := by
    rw [(quiet_initParams e w).inv.line_uncached fun p hc => by
      simp [TaggedPage.Caches, initParams, TaggedPage.init] at hc]
    intro c hc
    exact absurd hc (by simp)

/-- Write faults are taken on pages that are cached. -/
lemma Steady.issued (h : Steady e w s) {op : Op C} (hs : s.exec e op = .ok s') :
    s.issued e op = true := by
  cases op with
  | mkwrite vma i =>
    exact h.tracks.cachedMapping h.quiet.inv (h.vmaPvd vma) (h.area vma) (vmaPvd_of_mkwrite hs) i
  | _ => rfl

lemma Steady.step (h : Steady e w s) {op : Op C} (hm : Mild op) (hs : s.exec e op = .ok s') :
    Steady e w s' := by
  have hi := h.issued hs
  have ho := h.quiet.outside_of_exec op hi hs
  refine ⟨h.quiet.step ⟨hi, hs⟩, ?_, (congrArg Outside.pvds ho).trans h.pvds,
    (congrArg Outside.vmas ho).trans h.vmas, (congrArg Outside.infos ho).trans h.infos⟩
  cases op with
  | fault vma i f => exact h.tracks.fault h.quiet.inv trivial (h.vmaPvd vma) (h.area vma) hs
  | mkwrite vma i => exact h.tracks.mkwrite h.quiet.inv hi hs
  | store vma i f => exact h.tracks.store h.quiet.inv hs
  | evictor id held =>
    obtain rfl : s.evictorRoundHeld e id held = s' := by simpa [exec] using hs
    exact h.tracks.evictor h.quiet id held
  | writeDirty cb v =>
    exact h.tracks.writeDirtyPages h.quiet.inv
      (fun hrel => by simp [show cb = .fsync from hm] at hrel) hs
  | purge qid =>
    obtain rfl : s.tryPurgePagesFast e qid = s' := by simpa [exec] using hs
    exact h.tracks.recycles (h.quiet.inv.recycles_tryPurgePagesFast qid)
  | rawRelease v => exact absurd hm not_false

/-- The batches of a call are written in full. -/
def WritesOp (e : Env C) (s : State C) : Op C → Prop
  | .evictor id held => ∀ v, e.WritesBatch v (s.view e) (s.evictorBatchHeld e id held)
  | .writeDirty cb v => ∀ b ∈ s.syncBatches e cb v, e.WritesBatch v (s.view e) b
  | _ => True

/-- A call has read a block of a file. -/
structure Loads (w : World C) (s : State C) (v : PvdId) (off : Pgoff) (op : Op C)
    (l l' : CacheLine C) : Prop where
  before : l = ⟨none, s.disk ((s.pvds v).bk, off)⟩
  after : ∃ vma i f frame, op = .fault vma i f ∧ w.areas.pvd vma = some v ∧
    (w.vmas vma).vmPgoff + i = off ∧
    l' = ⟨some (s.loaded v off f.read frame, false), s.disk ((s.pvds v).bk, off)⟩

/-- A call that does not store drops, cleans and marks blocks of a file on its own, and may then
read one. -/
lemma Steady.line_step (h : Steady e w s) (ha : ∀ v', (w.pvds v').bk = (w.pvds v).bk → v' = v)
    {op : Op C} (hm : Mild op) (hst : ∀ vma i f, op ≠ .store vma i f) (hw : WritesOp e s op)
    (hs : s.exec e op = .ok s') (off : Pgoff) :
    ∃ l, (s.line e v off).Silent l ∧
      (l.Silent (s'.line e v off) ∨ Loads w s v off op l (s'.line e v off)) := by
  have h' := h.step hm hs
  cases op with
  | fault vma i f =>
    obtain ⟨s₀, v', p, x, y, hf⟩ := h.quiet.inv.fault hs
    refine ⟨_, hf.recycles.silent h.quiet.inv v off, ?_⟩
    rcases hf.line_cases h.quiet.inv h'.quiet.inv v off with hl | ⟨rfl, rfl, hl₀, hl⟩
    · rw [hl]
      exact Or.inl (.refl _)
    · rw [hl₀, hl]
      refine Or.inr ⟨rfl, vma, i, f, _, rfl, (h.vmaPvd vma).trans hf.pvd, ?_, rfl⟩
      rw [← h.vmas]
      rfl
  | mkwrite vma i =>
    refine ⟨_, .refl _, Or.inl ?_⟩
    rcases h.quiet.inv.mkwrite (h.issued hs) hs with rfl | ⟨p, v', w', -, hr, -, -, -, -, ho, hm⟩
    · exact .refl _
    · have hdisk : s'.disk = s.disk := congrArg Outside.disk ho
      have hpvds : s'.pvds = s.pvds := congrArg Outside.pvds ho
      by_cases hcache : (s.pages p).Caches v off
      · have hcache' : (s'.pages p).Caches v off := by
          rw [hm.pages_self]
          exact hcache
        rw [h.quiet.inv.line_cached hcache, h'.quiet.inv.line_cached hcache', hm.pages_self, hdisk,
          hpvds]
        exact .mark _ _ _
      · rw [hm.line_eq h.quiet.inv h'.quiet.inv ho hcache Iff.rfl]
        exact .refl _
  | store vma i f => exact absurd rfl (hst vma i f)
  | evictor id held =>
    obtain rfl : s.evictorRoundHeld e id held = s' := by simpa [exec] using hs
    obtain ⟨v', hb, ho, hsync⟩ := h.quiet.evictorRoundHeld id held
    refine ⟨_, .refl _, Or.inl ?_⟩
    have hb : Batch e (s.view e) (Evictable e v') (PageView.synced .fsync) _ _ := hb
    exact hb.silent h.quiet.inv h'.quiet.inv (congrArg Outside.pvds ho)
      (hsync.synced (hw v')) (by rw [h.pvds]; exact ha v') off
  | writeDirty cb v' =>
    have hl := h.quiet.inv.writeDirtyPages hs
    refine ⟨_, .refl _, Or.inl ?_⟩
    exact hl.batch.silent h.quiet.inv h'.quiet.inv (congrArg Outside.pvds hl.outside_eq)
      (hl.synced hw) (by rw [h.pvds]; exact ha v') off
  | purge qid =>
    obtain rfl : s.tryPurgePagesFast e qid = s' := by simpa [exec] using hs
    exact ⟨_, .refl _,
      Or.inl ((h.quiet.inv.recycles_tryPurgePagesFast qid).silent h.quiet.inv v off)⟩
  | rawRelease v' => exact absurd hm not_false

/-- A store reaches the block it is meant for, which is cached and dirty, and no other. -/
lemma Steady.line_store (h : Steady e w s) {vma : VmaId} {i : ℕ} {f : C → C}
    (hs : s.store vma i f = .ok s') (v : PvdId) :
    (w.areas.pvd vma = some v →
      ∃ c, (s.line e v ((w.vmas vma).vmPgoff + i)).cached = some (c, true)) ∧
    ∀ off, s'.line e v off =
      if w.areas.pvd vma = some v ∧ off = (w.vmas vma).vmPgoff + i then (s.line e v off).write f
      else s.line e v off := by
  obtain ⟨p, hp, ho, hm⟩ := h.quiet.placed.store hs
  have hq := h.quiet.store hs
  have hdisk : s'.disk = s.disk := congrArg Outside.disk ho
  have hpvds : s'.pvds = s.pvds := congrArg Outside.pvds ho
  obtain ⟨hu, hhas⟩ := h.tracks.has hp
  have hdirty := h.tracks.dirty_of_writable hp
  -- the page caches block `vmPgoff + i` of the area's file
  obtain ⟨j, hj, hidx⟩ := hhas.place
  rw [h.area] at hj hidx
  rw [← (s.vmas vma).addr_injective hj, h.vmas] at hidx
  set off₀ := (w.vmas vma).vmPgoff + i with hoff₀
  constructor
  · intro hv
    rw [h.quiet.inv.line_cached ⟨hu, hhas.pvd.trans hv, hidx⟩, hdirty]
    exact ⟨_, rfl⟩
  · intro off
    split_ifs with hc
    · obtain ⟨hv, rfl⟩ := hc
      have hcache : (s.pages p).Caches v off₀ := ⟨hu, hhas.pvd.trans hv, hidx⟩
      have hcache' : (s'.pages p).Caches v off₀ := by
        rw [hm.pages_self]
        exact hcache
      rw [h.quiet.inv.line_cached hcache, hq.inv.line_cached hcache', hm.pages_self, hdisk, hpvds]
      rfl
    · refine hm.line_eq h.quiet.inv hq.inv ho (fun hcache => hc ⟨?_, ?_⟩) Iff.rfl
      · exact hhas.pvd.symm.trans hcache.2.1
      · exact hcache.2.2.symm.trans hidx

lemma Coherent.store (h : Coherent e w v s) {vma : VmaId} {i : ℕ} {f : C → C}
    (hs : s.store vma i f = .ok s') :
    Coherent e w v s' ∧ s'.logical e v = w.act v (s.logical e v) (.store vma i f) := by
  obtain ⟨hcached, hline⟩ := h.line_store hs v
  have hmild : Mild (.store vma i f) := trivial
  have hst := h.toSteady.step hmild hs
  obtain ⟨p, -, ho, -⟩ := h.quiet.placed.store hs
  have hbit : s'.bitmap = s.bitmap := congrArg Outside.bitmap ho
  refine ⟨⟨hst, fun htype off => ?_, fun off => ?_⟩, funext fun off => ?_⟩
  · rw [hbit]
    exact h.bitmap htype off
  · rw [hline]
    split_ifs with hc
    · obtain ⟨c, hcc⟩ := hcached hc.1
      rw [hc.2]
      exact CacheLine.coherent_write hcc f
    · exact h.line off
  · rw [← read_line, hline]
    simp only [World.act]
    by_cases hv : w.areas.pvd vma = some v
    · by_cases hoff : off = (w.vmas vma).vmPgoff + i
      · obtain ⟨c, hcc⟩ := hcached hv
        rw [if_pos ⟨hv, hoff⟩, if_pos hv, hoff, CacheLine.read_write hcc, read_line,
          Function.update_self]
      · rw [if_neg fun hc => hoff hc.2, if_pos hv, read_line, Function.update_of_ne hoff]
    · rw [if_neg fun hc => hv hc.1, if_neg hv, read_line]

lemma writesOp_of_writesAll (hw : e.WritesAll) (s : State C) (op : Op C) : WritesOp e s op := by
  cases op with
  | evictor id held => exact fun v => hw.batch v _ _
  | writeDirty cb v => exact fun b _ => hw.batch v _ b
  | _ => exact trivial

/-- A call that does not store is silent. -/
lemma Coherent.silent (hw : e.WritesAll) (ha : ∀ v', (w.pvds v').bk = (w.pvds v).bk → v' = v)
    (h : Coherent e w v s) {op : Op C} (hst : ∀ vma i f, op ≠ .store vma i f)
    (hs : Serves e s op s') : Coherent e w v s' ∧ s'.logical e v = s.logical e v := by
  obtain ⟨hreg, hs⟩ := hs
  have hl : ∀ off, (s'.line e v off).Coherent ∧
      (s'.line e v off).read = (s.line e v off).read := by
    intro off
    obtain ⟨l, h₁, h₂⟩ := h.line_step ha hreg.mild hst (writesOp_of_writesAll hw s op) hs off
    have hc := h₁.coherent (h.line off)
    have hsil : l.Silent (s'.line e v off) := by
      rcases h₂ with h₂ | h₂
      · exact h₂
      · obtain ⟨vma, i, f, frame, rfl, -, -, hl'⟩ := h₂.after
        rw [h₂.before, hl', loaded_full hreg (by rw [h.pvds]; exact fun ht => h.bitmap ht off)]
        exact .fill _
    exact ⟨hsil.coherent hc, (hsil.read_eq hc).trans (h₁.read_eq (h.line off))⟩
  obtain ⟨-, hbit⟩ := h.quiet.outside_bitmap_of_exec op (h.issued hs) hs
  refine ⟨⟨h.toSteady.step hreg.mild hs, fun ht off => hbit _ (h.bitmap ht off),
    fun off => (hl off).1⟩, funext fun off => ?_⟩
  rw [← read_line, ← read_line, (hl off).2]

/-- One call: the invariant is kept, and readers see what the call does. -/
lemma Coherent.step (hw : e.WritesAll) (ha : ∀ v', (w.pvds v').bk = (w.pvds v).bk → v' = v)
    (h : Coherent e w v s) {op : Op C} (hs : Serves e s op s') :
    Coherent e w v s' ∧ s'.logical e v = w.act v (s.logical e v) op := by
  cases op with
  | store vma i f => exact h.store hs.2
  | _ => exact h.silent hw ha (by simp) hs

/-- A load through an entry of the file reads the block that the area has there. -/
lemma Coherent.load (h : Coherent e w v s) {vma : VmaId} {i : ℕ} (hv : w.areas.pvd vma = some v)
    (hp : s.pte (vma, (s.vmas vma).addr i) ≠ .none) :
    s.load vma i = some (s.logical e v ((w.vmas vma).vmPgoff + i)) := by
  cases hpte : s.pte (vma, (s.vmas vma).addr i) with
  | none => exact absurd hpte hp
  | map p b =>
    obtain ⟨hu, hhas⟩ := h.tracks.has hpte
    obtain ⟨j, hj, hidx⟩ := hhas.place
    rw [h.area] at hj hidx
    rw [← (s.vmas vma).addr_injective hj, h.vmas] at hidx
    have hl := h.quiet.inv.lookup_iff.mpr ⟨hu, hhas.pvd.trans hv, hidx⟩
    simp only [State.load, hpte, logical, hl]

/-- After every sequence of completed calls the logical content of a file is its initial content
with the stores applied to it. This is what a load through an entry of the file returns, and what
a load returns after any further fault. -/
theorem no_store_is_lost (e : Env C) (hw : e.WritesAll) (w : World C) (v : PvdId)
    (ha : ∀ v', (w.pvds v').bk = (w.pvds v).bk → v' = v)
    (hb : (w.pvds v).type = .blkd → ∀ off, w.bitmap ((w.pvds v).bk, off) = true)
    (ops : List (Op C)) (s : State C) (hr : Run (Serves e) (initParams e w) ops s) :
    (∀ off, s.logical e v off = w.memory v ops off) ∧
    ∀ vma i, w.areas.pvd vma = some v →
      (s.pte (vma, (s.vmas vma).addr i) ≠ .none →
        s.load vma i = some (w.memory v ops ((w.vmas vma).vmPgoff + i))) ∧
      ∀ f s', Serves e s (.fault vma i f) s' →
        s'.load vma i = some (w.memory v ops ((w.vmas vma).vmPgoff + i)) := by
  have hinit := coherent_initParams (e := e) hb
  obtain ⟨hc, hmem⟩ := hr.simulation (I := Coherent e w v) (g := fun s => s.logical e v)
    (f := w.act v) (fun _ _ _ hc hs => hc.step hw ha hs) hinit
  have hmem : s.logical e v = w.memory v ops := hmem.trans rfl
  refine ⟨congrFun hmem, fun vma i hv => ⟨fun hp => ?_, fun f s' hs => ?_⟩⟩
  · rw [← hmem]
    exact hc.load hv hp
  · obtain ⟨hc', hsame⟩ := hc.silent hw ha (by simp) hs
    obtain ⟨s₀, v', p, x, y, hf⟩ := hc.quiet.inv.fault hs.2
    have hpte : s'.pte (vma, (s'.vmas vma).addr i) ≠ .none := by
      rw [hc'.vmas, ← hc.vmas]
      exact hf.pte
    rw [hc'.load hv hpte, hsame, hmem]

/-- The small machine with a writer that hands over one block for each page. -/
def blockEnv : Env ℕ :=
  { smallEnv with
    writeAsync := fun _ s pgs => pgs.filterMap fun p =>
      (s.pages p).pvd.map fun v => ⟨(s.pvds v).bk, (s.pages p).index, (s.pages p).content⟩ }

lemma writesAll_blockEnv : blockEnv.WritesAll := by
  intro s v pgs hv b
  simp only [blockEnv, List.mem_filterMap]
  refine exists_congr fun p => and_congr_right fun hp => ?_
  simp [hv p hp, eq_comm]

/-- A store whose page is evicted and reclaimed. -/
def storeEvictPurge : List (Op ℕ) :=
  [.fault 0 0 smallFault, .mkwrite 0 0, .store 0 0 fun _ => 7, .evictor 0 [], .purge 0]

set_option maxRecDepth 4000 in
theorem no_store_is_lost_evicted :
    ∃ s s', Run (Serves blockEnv) (initParams blockEnv smallWorld) storeEvictPurge s ∧
      s.load 0 0 = none ∧ Serves blockEnv s (.fault 0 0 smallFault) s' ∧ s'.load 0 0 = some 7 := by
  have h : ((execAll blockEnv (initParams blockEnv smallWorld) storeEvictPurge).map fun s =>
      (s.load 0 0, (s.exec blockEnv (.fault 0 0 smallFault)).isOk)) = some (none, true) := by
    decide +kernel
  obtain ⟨s, hs, hp⟩ := Option.map_eq_some_iff.mp h
  obtain ⟨hnone, hok⟩ := Prod.mk.inj hp
  have hr : Run (Serves blockEnv) (initParams blockEnv smallWorld) storeEvictPurge s := by
    refine Run.mono_of_mem (fun s op s' hop hs => ⟨?_, hs.2⟩) (run_execAll hs)
    simp only [storeEvictPurge, List.mem_cons, List.not_mem_nil, or_false] at hop
    rcases hop with rfl | rfl | rfl | rfl | rfl
    · exact rfl
    all_goals exact trivial
  cases hf : s.exec blockEnv (.fault 0 0 smallFault) with
  | error x => simp [hf, Except.isOk, Except.toBool] at hok
  | ok s' =>
    have hserves : Serves blockEnv s (.fault 0 0 smallFault) s' := ⟨rfl, hf⟩
    exact ⟨s, s', hr, hnone, hserves, ((no_store_is_lost blockEnv writesAll_blockEnv smallWorld 0
      (fun _ hv => hv) (fun _ _ => rfl) storeEvictPurge s hr).2 0 0 rfl).2 smallFault s' hserves⟩

end State

end FastMap
