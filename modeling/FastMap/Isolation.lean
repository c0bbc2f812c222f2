import FastMap.Contents
import FastMap.Requests

/-!
# Recycled frames

Page frames move between files through the free lists, and nobody clears them. A fault that reads
its page in full leaves nothing of what the frame held. A fault on a page whose bitmap bit is clear
reads nothing, and one that crosses the end of a file reads a part of the page only; both show what
the frame held for its last owner.

Two runs that perform the same calls are compared through one run over pairs of contents. As long
as all faults on a page of a file are of the first kind, its block and the frames that cache it hold
pairs of equal contents.
-/

namespace FastMap

variable {C : Type*}

namespace State

/-! ### Pairs of equal contents -/

/-- Block `a` and its cached copies look the same in both components. -/
structure Diagonal (a : DevId × Pgoff) (s : State (C × C)) : Prop where
  disk : (s.disk a).1 = (s.disk a).2
  page {p : PageId} {v : PvdId} : (s.pages p).inUse = true → (s.pages p).pvd = some v →
    ((s.pvds v).bk, (s.pages p).index) = a → (s.pages p).content.1 = (s.pages p).content.2

/-- The faults on block `a` read it in full, and stores treat both components alike. -/
def Even (a : DevId × Pgoff) (s : State (C × C)) : Op (C × C) → Prop
  | .fault vma i f => ∀ v, s.vmaPvd vma = some v → ((s.pvds v).bk, (s.vmFault vma i).pgoff) = a →
      ∀ back frame, s.readAs v (s.vmFault vma i).pgoff f.read back frame = back
  | .store _ _ f => ∀ x, x.1 = x.2 → (f x).1 = (f x).2
  | _ => True

section diagonal

variable {e : Env (C × C)} {s s' : State (C × C)} {a : DevId × Pgoff} {p : PageId}

/-- Pages that are in use were in use before, with the same content. -/
lemma Diagonal.of_pages (h : Diagonal a s) (hp : s'.pvds = s.pvds)
    (hd : (s'.disk a).1 = (s'.disk a).2)
    (hq : ∀ q, (s'.pages q).inUse = true → (s.pages q).inUse = true ∧
      (s'.pages q).pvd = (s.pages q).pvd ∧ (s'.pages q).index = (s.pages q).index ∧
        (s'.pages q).content = (s.pages q).content) :
    Diagonal a s' where
  disk := hd
  page {p v} hu hv hb := by
    obtain ⟨hu', hv', hx, hc⟩ := hq p hu
    rw [hc]
    exact h.page hu' (hv' ▸ hv) (by rw [← hp, ← hx]; exact hb)

lemma Recycles.pages_of_inUse (hr : Recycles e s s') (hu : (s'.pages p).inUse = true) :
    s'.pages p = s.pages p := by
  rcases hr.view_cases p with hp | hp
  · exact congrArg PageView.page hp
  · exact absurd (hp.idle.inUse.symm.trans hu) Bool.false_ne_true

lemma Diagonal.recycles (h : Diagonal a s) (hr : Recycles e s s') : Diagonal a s' := by
  refine h.of_pages (congrArg Outside.pvds hr.outside_eq) ?_ fun q hu => ?_
  · rw [show s'.disk = s.disk from congrArg Outside.disk hr.outside_eq]
    exact h.disk
  · have hq := hr.pages_of_inUse hu
    rw [hq] at hu ⊢
    exact ⟨hu, rfl, rfl, rfl⟩

/-- A batch that is written back. -/
lemma Diagonal.batch (h : Diagonal a s) {cb : Cleanup} {v : PvdId} {pgs : List PageId}
    (hb : Batch e (s.view e) (Evictable e v) (PageView.synced cb) s' pgs)
    (ho : s'.outside = { s.outside with disk := s'.disk }) (hw : Wrote v (s.view e) s s' pgs) :
    Diagonal a s' := by
  refine h.of_pages (congrArg Outside.pvds ho) ?_ fun q hu => ?_
  · rcases hw a with ha | ⟨p, hp, ha, hc⟩
    · rw [ha]
      exact h.disk
    · obtain ⟨hr, -, -, hv⟩ := hb.all hp
      rw [hc]
      exact h.page hr.inUse hv ha.symm
  · by_cases hq : q ∈ pgs
    · rw [hb.pages_of_mem hq]
      exact ⟨(hb.all hq).1.inUse, rfl, rfl, rfl⟩
    · rw [hb.pages_of_not_mem hq] at hu ⊢
      exact ⟨hu, rfl, rfl, rfl⟩

lemma Diagonal.fault (h : Diagonal a s) (hi : s.Inv e) {vma : VmaId} {i : ℕ}
    {f : FaultEnv (C × C)} (he : Even a s (.fault vma i f)) (hs : s.fault e vma i f = .ok s') :
    Diagonal a s' := by
  obtain ⟨s₀, v, p, x, y, hf⟩ := hi.fault hs
  have hpvds : s'.pvds = s.pvds := congrArg Outside.pvds hf.outside_eq
  have hdisk : s'.disk = s.disk := congrArg Outside.disk hf.outside_eq
  have hpage : s'.pages p = { x.page with rmap := y.page.rmap, locked := false } := by
    rw [← view_page e, hf.resolves.view_self]
    exact congrArg PageView.page hf.mapped.same
  refine ⟨by rw [hdisk]; exact h.disk, fun {q w} hu hv hb => ?_⟩
  rw [hpvds] at hb
  by_cases hq : q = p
  · subst hq
    rw [hpage] at hu hv hb ⊢
    rcases hf.found with ⟨-, -, -, -, rfl⟩ | ⟨-, -, rfl⟩
    · -- the page was there
      have hq := hf.recycles.pages_of_inUse (p := q) hu
      simp only [view_page, hq] at hu hv hb ⊢
      exact h.page hu hv hb
    · -- the page has been read
      obtain rfl : v = w := Option.some_injective _ hv
      have hload : s.loaded v (s.vmFault vma i).pgoff f.read (s₀.pages q).content =
          s.disk ((s.pvds v).bk, (s.vmFault vma i).pgoff) := he v hf.pvd hb _ _
      change (s.loaded v _ f.read (s₀.pages q).content).1 = (s.loaded v _ f.read _).2
      rw [hload, show ((s.pvds v).bk, (s.vmFault vma i).pgoff) = a from hb]
      exact h.disk
  · rcases hf.resolves.other hq with hsame | ⟨-, hrec⟩
    · rw [← view_page e, hsame] at hu hv hb ⊢
      have hq := hf.recycles.pages_of_inUse (p := q) hu
      simp only [view_page, hq] at hu hv hb ⊢
      exact h.page hu hv hb
    · exact absurd (hrec.idle.inUse.symm.trans hu) Bool.false_ne_true

/-- Every call keeps the pairs equal. -/
lemma Diagonal.step (h : Diagonal a s) (hq : s.Quiet e) (hw : e.WritesOnly) {op : Op (C × C)}
    (he : Even a s op) (hs : Completes e s op s') : Diagonal a s' := by
  obtain ⟨hi, hs⟩ := hs
  cases op with
  | fault vma i f => exact h.fault hq.inv he hs
  | mkwrite vma i =>
    rcases hq.inv.mkwrite hi hs with rfl | ⟨p, v, w, -, hr, -, -, -, -, ho, hm⟩
    · exact h
    · refine h.of_pages (congrArg Outside.pvds ho) ?_ fun q hu => ?_
      · rw [show s'.disk = s.disk from congrArg Outside.disk ho]
        exact h.disk
      · by_cases hqp : q = p
        · rw [hqp, hm.pages_self]
          exact ⟨hr.inUse, rfl, rfl, rfl⟩
        · rw [← view_page e s', hm.view_of_ne hqp] at hu ⊢
          exact ⟨hu, rfl, rfl, rfl⟩
  | store vma i f =>
    obtain ⟨p, -, ho, hm⟩ := hq.placed.store hs
    have hpvds : s'.pvds = s.pvds := congrArg Outside.pvds ho
    refine ⟨?_, fun {q v} hu hv hb => ?_⟩
    · rw [show s'.disk = s.disk from congrArg Outside.disk ho]
      exact h.disk
    · rw [hpvds] at hb
      by_cases hqp : q = p
      · rw [hqp, hm.pages_self] at hu hv hb ⊢
        exact he _ (h.page hu hv hb)
      · rw [← view_page e, hm.view_of_ne hqp] at hu hv hb ⊢
        exact h.page hu hv hb
  | evictor id held =>
    obtain rfl : s.evictorRoundHeld e id held = s' := by simpa [exec] using hs
    obtain ⟨v, hb, ho, hsync⟩ := hq.evictorRoundHeld id held
    have hb : Batch e (s.view e) (Evictable e v) (PageView.synced .fsync) _ _ := hb
    exact h.batch hb ho (hsync.wrote hw)
  | writeDirty cb v =>
    have hl := hq.inv.writeDirtyPages hs
    exact h.batch hl.batch hl.outside_eq (hl.wrote hw)
  | purge qid =>
    obtain rfl : s.tryPurgePagesFast e qid = s' := by simpa [exec] using hs
    exact h.recycles (hq.inv.recycles_tryPurgePagesFast qid)
  | rawRelease v =>
    obtain ⟨s₁, pgs, -, hl, hc⟩ := hq.inv.rawRelease hs
    have h₁ := h.batch hl.batch hl.outside_eq (hl.wrote hw)
    refine h₁.of_pages (congrArg Outside.pvds hc.outside_eq) ?_ fun q hu => ?_
    · rw [show s'.disk = s₁.disk from congrArg Outside.disk hc.outside_eq]
      exact h₁.disk
    · by_cases hqp : q ∈ pgs
      · rw [← view_page e s', hc.batch.view_of_mem hqp] at hu
        exact absurd hu Bool.false_ne_true
      · rw [hc.batch.pages_of_not_mem hqp] at hu ⊢
        exact ⟨hu, rfl, rfl, rfl⟩

end diagonal

/-- The page a fault maps where nothing was mapped. -/
lemma Inv.fault_maps {e : Env C} {s s' : State C} (hi : s.Inv e) {vma : VmaId} {i : ℕ}
    {f : FaultEnv C} (hs : s.fault e vma i f = .ok s') {v : PvdId} (hv : s.vmaPvd vma = some v)
    (hn : s.pte (vma, (s.vmas vma).addr i) = .none) :
    ∃ p b, s'.pte (vma, (s.vmas vma).addr i) = .map p b ∧ (s'.pages p).inUse = true ∧
      (s'.pages p).pvd = some v ∧ (s'.pages p).index = (s.vmFault vma i).pgoff := by
  obtain ⟨s₀, v', p, x, y, hf⟩ := hi.fault hs
  obtain rfl : v = v' := Option.some_injective _ (hv.symm.trans hf.pvd)
  set a := (vma, (s.vmas vma).addr i)
  -- nothing was mapped there when the page was found
  have hn₀ : ∀ q b, s₀.pte a ≠ .map q b := by
    intro q b hq
    have hview : (s₀.view e q).pte a = some b := mapping_eq_some.mpr hq
    rcases hf.recycles.view_cases q with hsame | hrec
    · rw [hsame] at hview
      rw [mapping_eq_some.mp hview] at hn
      exact absurd hn (by simp)
    · rw [mapping_eq_some.mp (hrec.pte hview).1] at hn
      exact absurd hn (by simp)
  cases hp : s'.pte a with
  | none => exact absurd hp hf.pte
  | map q b =>
    have hview : (s'.view e q).pte a = some b := mapping_eq_some.mpr hp
    have hqp : q = p := by
      by_contra hne
      rcases hf.resolves.other hne with hsame | ⟨-, hrec⟩
      · rw [hsame] at hview
        exact hn₀ q b (mapping_eq_some.mp hview)
      · exact hn₀ q b (mapping_eq_some.mp (hrec.pte hview).1)
    subst hqp
    have hpage : s'.pages q = y.page := by rw [← view_page e, hf.resolves.view_self]
    refine ⟨q, b, rfl, ?_⟩
    rw [hpage, hf.mapped.same]
    refine ⟨(hf.resident hi).inUse, ?_⟩
    rcases hf.found with ⟨-, -, hpv, hix, rfl⟩ | ⟨-, -, rfl⟩
    · exact ⟨hpv, hix⟩
    · exact ⟨rfl, rfl⟩

/-! ### Two runs as one -/

/-- The worlds have the same files and areas, and `d` has the same contents and the same bitmap. -/
structure World.AgreeOn (d : DevId) (w₁ w₂ : World C) : Prop where
  pvds : w₂.pvds = w₁.pvds
  vmas : w₂.vmas = w₁.vmas
  infos : w₂.infos = w₁.infos
  disk (off : Pgoff) : w₂.disk (d, off) = w₁.disk (d, off)
  bitmap (off : Pgoff) : w₂.bitmap (d, off) = w₁.bitmap (d, off)

/-- The world of a run over pairs. -/
def World.pair (w₁ w₂ : World C) : World (C × C) where
  frame p := (w₁.frame p, w₂.frame p)
  pvds := w₁.pvds
  vmas := w₁.vmas
  infos := w₁.infos
  disk a := (w₁.disk a, w₂.disk a)
  bitmap _ := true
  devPages _ := anySize

/-- The faults on block `a` read it in full: the bitmap bit is set if it is on a device, and the
read is not short. -/
def FullReads (a : DevId × Pgoff) (s : State C) : Op C → Prop
  | .fault vma i f => ∀ v, s.vmaPvd vma = some v → ((s.pvds v).bk, (s.vmFault vma i).pgoff) = a →
      f.read = .full ∧ ((s.pvds v).type = .blkd → s.bitmap a = true)
  | _ => True

/-- A completed call of this kind. -/
def CompletesInFull (e : Env C) (a : DevId × Pgoff) (s : State C) (op : Op C) (s' : State C) :
    Prop :=
  Completes e s op s' ∧ FullReads a s op

variable {e : Env C} {d : DevId} {a : DevId × Pgoff} {s₁ s₂ s₁' s₂' : State C}
  {s s' : State (C × C)} {op : Op C}

/-- `s` is the pair of the states of two runs, up to bitmaps and sizes. -/
structure Twin (e : Env C) (a : DevId × Pgoff) (s₁ s₂ : State C) (s : State (C × C)) : Prop where
  fst : s.map Prod.fst = s₁.map id
  snd : s.map Prod.snd = s₂.map id
  quiet₁ : s₁.Quiet e
  quiet₂ : s₂.Quiet e
  quiet : s.Quiet (e.retype (C × C))
  bitmap (a : DevId × Pgoff) : s.bitmap a = true
  devPages (d : DevId) : s.devPages d = anySize
  diagonal : Diagonal a s

lemma twin_initParams {w₁ w₂ : World C} (hw : w₁.AgreeOn d w₂) (off : Pgoff) :
    Twin e (d, off) (initParams e w₁) (initParams e w₂)
      (initParams (e.retype (C × C)) (w₁.pair w₂)) where
  fst := rfl
  snd := by
    simp only [map, initParams, World.pair, hw.pvds, hw.vmas, hw.infos]
    rfl
  quiet₁ := quiet_initParams e w₁
  quiet₂ := quiet_initParams e w₂
  quiet := quiet_initParams _ _
  bitmap _ := rfl
  devPages _ := rfl
  diagonal := ⟨(hw.disk off).symm, fun hu => by simp [initParams, TaggedPage.init] at hu⟩

/-- A fault that completes has a file, and an offset that `perma_getpage` accepts. -/
lemma inFile_of_fault {t t' : State C} {vma : VmaId} {i : ℕ} {f : FaultEnv C}
    (hs : t.fault e vma i f = .ok t') : ∃ v, t.vmaPvd vma = some v ∧
      numPages (t.vmFault vma i).pgoff (int32 (t.devPages (t.pvds v).bk)) = 1 := by
  simp only [State.fault] at hs
  split at hs
  · exact absurd hs (by simp)
  · rename_i hg
    simp only [permaGetpage] at hg
    split at hg
    · exact absurd hg (by simp)
    · rename_i v hv
      split_ifs at hg with h₁ h₂
      exact ⟨v, hv, not_not.mp h₂⟩

/-- What a completed call is in the run over pairs. -/
lemma Twin.calls (h : Twin e a s₁ s₂ s) (h₁ : s₁.exec e op = .ok s₁')
    (h₂ : s₂.exec e op = .ok s₂') :
    ∃ (op' : Op (C × C)) (op₁ op₂ : Op C), CallsLike id s₁ op op₁ ∧ CallsLike id s₂ op op₂ ∧
      CallsLike Prod.fst s op' op₁ ∧ CallsLike Prod.snd s op' op₂ ∧
      (FullReads a s₁ op → FullReads a s₂ op → Even a s op') := by
  cases op with
  | fault vma i f =>
    obtain ⟨v, hv₁, hn₁⟩ := inFile_of_fault h₁
    obtain ⟨v₂, hv₂, hn₂⟩ := inFile_of_fault h₂
    have hpvd₁ : s.vmaPvd vma = s₁.vmaPvd vma := congrArg (fun t => t.vmaPvd vma) h.fst
    have hpvd₂ : s.vmaPvd vma = s₂.vmaPvd vma := congrArg (fun t => t.vmaPvd vma) h.snd
    have hvmf₁ : s.vmFault vma i = s₁.vmFault vma i := congrArg (fun t => t.vmFault vma i) h.fst
    have hvmf₂ : s.vmFault vma i = s₂.vmFault vma i := congrArg (fun t => t.vmFault vma i) h.snd
    have hpvds₁ : s.pvds = s₁.pvds := congrArg State.pvds h.fst
    have hpvds₂ : s.pvds = s₂.pvds := congrArg State.pvds h.snd
    obtain rfl : v = v₂ :=
      Option.some_injective _ (hv₁.symm.trans (hpvd₁.symm.trans (hpvd₂.trans hv₂)))
    have hfile₁ : ∀ {w}, s₁.vmaPvd vma = some w → w = v := fun hw =>
      Option.some_injective _ (hw.symm.trans hv₁)
    have hfile₂ : ∀ {w}, s₂.vmaPvd vma = some w → w = v := fun hw =>
      Option.some_injective _ (hw.symm.trans hv₂)
    have hfile : ∀ {w}, s.vmaPvd vma = some w → w = v := fun hw => hfile₁ (hpvd₁ ▸ hw)
    set off := (s.vmFault vma i).pgoff with hoff
    -- the frame after the read, in each of the runs
    set r₁ := s₁.readAs v off f.read with hr₁
    set r₂ := s₂.readAs v off f.read with hr₂
    have hpair : ∀ back frame, s.readAs v off
        (.short fun x y => (r₁ x.1 y.1, r₂ x.2 y.2)) back frame =
          (r₁ back.1 frame.1, r₂ back.2 frame.2) := by
      intro back frame
      rw [readAs, if_neg fun hb => by simp [h.bitmap] at hb]
      rfl
    refine ⟨.fault vma i ⟨f.attempts, f.cpu, .short fun x y => (r₁ x.1 y.1, r₂ x.2 y.2)⟩,
      .fault vma i ⟨f.attempts, f.cpu, .short r₁⟩, .fault vma i ⟨f.attempts, f.cpu, .short r₂⟩,
      .fault ⟨rfl, rfl, fun hv => ?_, fun hv => ?_⟩, .fault ⟨rfl, rfl, fun hv => ?_, fun hv => ?_⟩,
      .fault ⟨rfl, rfl, fun hv => ?_, fun hv => ?_⟩, .fault ⟨rfl, rfl, fun hv => ?_, fun hv => ?_⟩,
      fun hf₁ hf₂ => ?_⟩
    · exact fun back frame => by rw [← hvmf₁, ← hoff, hr₁, hfile₁ hv]; rfl
    · exact hfile₁ hv ▸ hn₁
    · exact fun back frame => by rw [← hvmf₂, ← hoff, hr₂, hfile₂ hv]; rfl
    · exact hfile₂ hv ▸ hn₂
    · exact fun back frame => by rw [← hoff, hfile hv, hpair]; rfl
    · rw [h.devPages]
      exact numPages_anySize _
    · exact fun back frame => by rw [← hoff, hfile hv, hpair]; rfl
    · rw [h.devPages]
      exact numPages_anySize _
    · intro w hw ha back frame
      obtain rfl := hfile hw
      rw [← hoff] at ha ⊢
      obtain ⟨hread₁, hbit₁⟩ := hf₁ w hv₁ (by rw [← hpvds₁, ← hvmf₁]; exact ha)
      obtain ⟨hread₂, hbit₂⟩ := hf₂ w hv₂ (by rw [← hpvds₂, ← hvmf₂]; exact ha)
      have hfull₁ : r₁ back.1 frame.1 = back.1 :=
        readAs_full hread₁ (by rw [← hpvds₁, ha]; rwa [← hpvds₁] at hbit₁) _ _
      have hfull₂ : r₂ back.2 frame.2 = back.2 :=
        readAs_full hread₂ (by rw [← hpvds₂, ha]; rwa [← hpvds₂] at hbit₂) _ _
      rw [hpair, hfull₁, hfull₂]
  | mkwrite vma i =>
    exact ⟨_, _, _, .mkwrite vma i, .mkwrite vma i, .mkwrite vma i, .mkwrite vma i,
      fun _ _ => trivial⟩
  | store vma i f =>
    refine ⟨.store vma i (Prod.map f f), .store vma i f, .store vma i f, .store fun _ => rfl,
      .store fun _ => rfl, .store fun _ => rfl, .store fun _ => rfl, fun _ _ x hx => ?_⟩
    exact congrArg f hx
  | evictor k held =>
    exact ⟨_, _, _, .evictor k held, .evictor k held, .evictor k held, .evictor k held,
      fun _ _ => trivial⟩
  | writeDirty cb v =>
    exact ⟨_, _, _, .writeDirty cb v, .writeDirty cb v, .writeDirty cb v, .writeDirty cb v,
      fun _ _ => trivial⟩
  | purge qid =>
    exact ⟨_, _, _, .purge qid, .purge qid, .purge qid, .purge qid, fun _ _ => trivial⟩
  | rawRelease v =>
    exact ⟨_, _, _, .rawRelease v, .rawRelease v, .rawRelease v, .rawRelease v,
      fun _ _ => trivial⟩

/-- The states of two runs and their pair move together. -/
lemma Twin.step (h : Twin e a s₁ s₂ s) (he : e.writeAsync = driverWriter)
    (h₁ : CompletesInFull e a s₁ op s₁') (h₂ : CompletesInFull e a s₂ op s₂') :
    ∃ s', Twin e a s₁' s₂' s' := by
  obtain ⟨⟨hi₁, hx₁⟩, hf₁⟩ := h₁
  obtain ⟨⟨hi₂, hx₂⟩, hf₂⟩ := h₂
  obtain ⟨op', op₁, op₂, hc₁, hc₂, hcfst, hcsnd, heven⟩ := h.calls hx₁ hx₂
  -- the three runs, with the contents of one of the two
  have hx₁' := map_exec id s₁ he h.quiet₁.inv hc₁
  have hx₂' := map_exec id s₂ he h.quiet₂.inv hc₂
  have hfst := map_exec Prod.fst s rfl h.quiet.inv hcfst
  have hsnd := map_exec Prod.snd s rfl h.quiet.inv hcsnd
  rw [hx₁, ← h.fst] at hx₁'
  rw [hx₂, ← h.snd] at hx₂'
  replace hfst := hfst.symm.trans hx₁'
  replace hsnd := hsnd.symm.trans hx₂'
  have hi : s.issued (e.retype (C × C)) op' = true := by
    rw [← map_issued Prod.fst s hcfst, h.fst, ← hi₁]
    exact map_issued id s₁ hc₁
  cases hs : s.exec (e.retype (C × C)) op' with
  | error x =>
    rw [hs] at hfst
    exact absurd hfst (by simp [Except.map])
  | ok s' =>
    rw [hs] at hfst hsnd
    obtain ⟨ho, hbit⟩ := h.quiet.outside_bitmap_of_exec op' hi hs
    have hdev : s'.devPages = s.devPages := congrArg Outside.devPages ho
    exact ⟨s', {
      fst := Except.ok.inj hfst
      snd := Except.ok.inj hsnd
      quiet₁ := h.quiet₁.step ⟨hi₁, hx₁⟩
      quiet₂ := h.quiet₂.step ⟨hi₂, hx₂⟩
      quiet := h.quiet.step ⟨hi, hs⟩
      bitmap := fun a => hbit a (h.bitmap a)
      devPages := fun d => by rw [hdev]; exact h.devPages d
      diagonal := h.diagonal.step h.quiet (writesOnly_of_driver rfl) (heven hf₁ hf₂) ⟨hi, hs⟩ }⟩

/-- What is visible of the block. -/
lemma Twin.load_eq (h : Twin e a s₁ s₂ s) {vma : VmaId} {i : ℕ} {p : PageId} {b : Bool} {v : PvdId}
    (hp : s₁.pte (vma, (s₁.vmas vma).addr i) = .map p b) (hu : (s₁.pages p).inUse = true)
    (hv : (s₁.pages p).pvd = some v) (ha : ((s₁.pvds v).bk, (s₁.pages p).index) = a) :
    s₁.load vma i = some (s₁.pages p).content ∧ s₂.load vma i = some (s₁.pages p).content := by
  have hpage₁ : (s.pages p).map Prod.fst = (s₁.pages p).map id := congrArg (State.pages · p) h.fst
  have hpage₂ : (s.pages p).map Prod.snd = (s₂.pages p).map id := congrArg (State.pages · p) h.snd
  have hpvds : s.pvds = s₁.pvds := congrArg State.pvds h.fst
  have hpte₁ : s.pte = s₁.pte := congrArg State.pte h.fst
  have hpte₂ : s.pte = s₂.pte := congrArg State.pte h.snd
  have hvmas₁ : s.vmas = s₁.vmas := congrArg State.vmas h.fst
  have hvmas₂ : s.vmas = s₂.vmas := congrArg State.vmas h.snd
  have hc : (s.pages p).content.1 = (s.pages p).content.2 := by
    apply h.diagonal.page (v := v)
    · exact (congrArg TaggedPage.inUse hpage₁).trans hu
    · exact (congrArg TaggedPage.pvd hpage₁).trans hv
    · rw [hpvds, show (s.pages p).index = (s₁.pages p).index from
        congrArg TaggedPage.index hpage₁]
      exact ha
  have hc₁ : (s.pages p).content.1 = (s₁.pages p).content := congrArg TaggedPage.content hpage₁
  have hc₂ : (s.pages p).content.2 = (s₂.pages p).content := congrArg TaggedPage.content hpage₂
  constructor
  · simp only [load, hp]
  · simp only [load, ← hpte₂, ← hvmas₂, hpte₁, hvmas₁, hp]
    rw [← hc₂, ← hc, hc₁]

lemma exists_twin (he : e.writeAsync = driverWriter) {w₁ w₂ : World C} (hw : w₁.AgreeOn d w₂)
    {off : Pgoff} {ops : List (Op C)}
    (h₁ : Run (CompletesInFull e (d, off)) (initParams e w₁) ops s₁)
    (h₂ : Run (CompletesInFull e (d, off)) (initParams e w₂) ops s₂) :
    ∃ s, Twin e (d, off) s₁ s₂ s := by
  induction h₁ generalizing s₂ with
  | nil =>
    obtain rfl := h₂.eq_of_nil
    exact ⟨_, twin_initParams hw off⟩
  | snoc _ hs₁ ih =>
    obtain ⟨t₂, hr₂, hs₂⟩ := h₂.last_step
    obtain ⟨s, ht⟩ := ih hr₂
    exact ht.step he hs₁ hs₂

/-- Two devices. Block `x` fills the second one, and the first one is filled if it is `written`. -/
def twoDevices (written : Bool) (x : ℕ) : World ℕ :=
  { smallWorld with
    pvds := fun v => { smallWorld.pvds v with type := .blkd }
    disk := fun a => if a.1 = 0 then 3 else x
    bitmap := fun a => if a.1 = 0 then written else true }

/-- The frame holds a block of the second device, and is recycled. -/
def recycleFrame : List (Op ℕ) := [.fault 1 0 smallFault, .purge 0]

lemma agreeOn_twoDevices (written : Bool) (x y : ℕ) :
    (twoDevices written x).AgreeOn 0 (twoDevices written y) :=
  ⟨rfl, rfl, rfl, fun _ => rfl, fun _ => rfl⟩

lemma run_recycleFrame {written : Bool} {x : ℕ} {s : State ℕ}
    (h : execAll onePageEnv (initParams onePageEnv (twoDevices written x)) recycleFrame = some s) :
    Run (CompletesInFull onePageEnv (0, 0)) (initParams onePageEnv (twoDevices written x))
      recycleFrame s := by
  have hr : Run (Completes onePageEnv) _ (([] ++ [.fault 1 0 smallFault]) ++ [.purge 0]) s :=
    run_execAll h
  obtain ⟨s₁, hr₁, hs⟩ := hr.last_step
  obtain ⟨s₀, hr₀, hs₁⟩ := hr₁.last_step
  obtain rfl := hr₀.eq_of_nil
  -- the fault is on the second device
  refine (Run.nil.snoc ⟨hs₁, fun v hv ha => ?_⟩).snoc ⟨hs, trivial⟩
  obtain rfl : 1 = v := Option.some_injective _ hv
  exact absurd (congrArg Prod.fst ha) Nat.one_ne_zero

/-- What a fault shows of a page of a file or device of one type does not depend on the other
files. -/
def ShowsSame (C : Type) (t : PvdType) : Prop :=
  ∀ (e : Env C) (d : DevId) (w₁ w₂ : World C), e.writeAsync = driverWriter → w₁.AgreeOn d w₂ →
    w₂ = { w₁ with disk := w₂.disk } →
    ∀ (ops : List (Op C)) (s₁ s₂ : State C), Run (Completes e) (initParams e w₁) ops s₁ →
      Run (Completes e) (initParams e w₂) ops s₂ →
    ∀ vma i f s₁' s₂', Completes e s₁ (.fault vma i f) s₁' → Completes e s₂ (.fault vma i f) s₂' →
    ∀ v, s₁.vmaPvd vma = some v → (s₁.pvds v).bk = d → (s₁.pvds v).type = t →
      s₁.pte (vma, (s₁.vmas vma).addr i) = .none → s₁'.load vma i = s₂'.load vma i

lemma not_showsSame_blkd : ¬ ShowsSame ℕ .blkd := by
  intro hall
  have hrun : ∀ x ∈ [5, 7], ((execAll onePageEnv (initParams onePageEnv (twoDevices false x))
      recycleFrame).bind fun s => (s.exec onePageEnv (.fault 0 0 smallFault)).toOption.map fun s' =>
        (s'.load 0 0, s.vmaPvd 0, (s.pvds 0).bk, (s.pvds 0).type, s.pte (0, (s.vmas 0).addr 0))) =
      some (some x, some 0, 0, .blkd, .none) := by decide +kernel
  obtain ⟨s₁, hs₁, h₁⟩ := Option.bind_eq_some_iff.mp (hrun 5 (by simp))
  obtain ⟨s₂, hs₂, h₂⟩ := Option.bind_eq_some_iff.mp (hrun 7 (by simp))
  obtain ⟨s₁', hx₁, hp₁⟩ := Option.map_eq_some_iff.mp h₁
  obtain ⟨s₂', hx₂, hp₂⟩ := Option.map_eq_some_iff.mp h₂
  simp only [Prod.mk.injEq] at hp₁ hp₂
  obtain ⟨hload₁, hv, hb, ht, hn⟩ := hp₁
  have := hall onePageEnv 0 (twoDevices false 5) (twoDevices false 7) rfl
    (agreeOn_twoDevices false 5 7) rfl recycleFrame s₁ s₂ (run_execAll hs₁) (run_execAll hs₂) 0 0
    smallFault s₁' s₂' ⟨rfl, Except.toOption_eq_some.mp hx₁⟩ ⟨rfl, Except.toOption_eq_some.mp hx₂⟩
    0 hv hb ht hn
  rw [hload₁, hp₂.1] at this
  exact absurd this (by decide)

/-- A page is two halves. File 0 ends in the middle of its only page, and `x` fills file 1. -/
def halfPageFile (x : ℕ) : World (ℕ × ℕ) where
  frame _ := (0, 0)
  pvds := smallWorld.pvds
  vmas := smallWorld.vmas
  infos := smallWorld.infos
  disk a := if a.1 = 0 then (3, 0) else (x, x)
  bitmap _ := true
  devPages d := if d = 0 then 0 else 8

/-- The read ends with the file: the second half of the frame stays. -/
def endOfFile : FaultEnv (ℕ × ℕ) :=
  ⟨[⟨false, 0, 0⟩, ⟨false, 0, 0⟩], 0, .short fun back frame => (back.1, frame.2)⟩

/-- The frame holds a page of file 1, and is recycled. -/
def recycleHalves : List (Op (ℕ × ℕ)) :=
  [.fault 1 0 ⟨[⟨false, 0, 0⟩, ⟨false, 0, 0⟩], 0, .full⟩, .purge 0]

lemma not_showsSame_file : ¬ ShowsSame (ℕ × ℕ) .file := by
  intro hall
  have hrun : ∀ x ∈ [5, 7], ((execAll (onePageEnv.retype (ℕ × ℕ))
      (initParams (onePageEnv.retype (ℕ × ℕ)) (halfPageFile x)) recycleHalves).bind fun s =>
        (s.exec (onePageEnv.retype (ℕ × ℕ)) (.fault 0 0 endOfFile)).toOption.map fun s' =>
          (s'.load 0 0, s.vmaPvd 0, (s.pvds 0).bk, (s.pvds 0).type,
            s.pte (0, (s.vmas 0).addr 0))) =
      some (some (3, x), some 0, 0, .file, .none) := by decide +kernel
  obtain ⟨s₁, hs₁, h₁⟩ := Option.bind_eq_some_iff.mp (hrun 5 (by simp))
  obtain ⟨s₂, hs₂, h₂⟩ := Option.bind_eq_some_iff.mp (hrun 7 (by simp))
  obtain ⟨s₁', hx₁, hp₁⟩ := Option.map_eq_some_iff.mp h₁
  obtain ⟨s₂', hx₂, hp₂⟩ := Option.map_eq_some_iff.mp h₂
  simp only [Prod.mk.injEq] at hp₁ hp₂
  obtain ⟨hload₁, hv, hb, ht, hn⟩ := hp₁
  have hagree : (halfPageFile 5).AgreeOn 0 (halfPageFile 7) :=
    ⟨rfl, rfl, rfl, fun _ => rfl, fun _ => rfl⟩
  have := hall (onePageEnv.retype (ℕ × ℕ)) 0 (halfPageFile 5) (halfPageFile 7) rfl hagree rfl
    recycleHalves s₁ s₂ (run_execAll hs₁) (run_execAll hs₂) 0 0 endOfFile s₁' s₂'
    ⟨rfl, Except.toOption_eq_some.mp hx₁⟩ ⟨rfl, Except.toOption_eq_some.mp hx₂⟩ 0 hv hb ht hn
  rw [hload₁, hp₂.1] at this
  exact absurd this (by decide)

end State

end FastMap
