import FastMap.BlockSteps

/-!
# Stores under interleaving

Users store while the threads of the driver take their steps. A store writes into one block, whose
line is marked, and no step of a thread changes what readers see, so the content of a file is its
initial content with the stores applied to it.
-/

namespace FastMap

variable {C : Type*}

namespace State

variable {e : Env C} {s s' : State C} {p q : PageId} {pc pc' : Pc} {c : Choice C}

/-! ### The files and the areas -/

/-- The files and the areas are the same, and no block of a device has become a new one. -/
structure SameFiles (s s' : State C) : Prop where
  pvds : s'.pvds = s.pvds
  vmas : s'.vmas = s.vmas
  infos : s'.infos = s.infos
  bitmap {a : DevId × Pgoff} : s.bitmap a = true → s'.bitmap a = true

lemma SameFiles.of_outside (h : s'.outside = s.outside) : SameFiles s s' where
  pvds := congrArg Outside.pvds h
  vmas := congrArg Outside.vmas h
  infos := congrArg Outside.infos h
  bitmap ha := (congrFun (congrArg Outside.bitmap h) _).trans ha

lemma sameFiles_dmapDoPageIo (s : State C) (v : PvdId) (i : Pgoff) (p : PageId)
    (r : ReadResult C) : SameFiles s (s.dmapDoPageIo v i p r) := by
  have hc := chart_dmapDoPageIo s v i p r
  have hfake : ∀ a, s.bitmap a = true → (s.readOrFake v i p r).bitmap a = true := by
    intro a ha
    simp only [readOrFake]
    split
    · split_ifs
      · exact ha
      · by_cases hb : a = ((s.pvds v).bk, i)
        · rw [hb]
          exact Function.update_self _ _ _
        · exact (Function.update_of_ne hb _ _).trans ha
    · exact ha
  refine ⟨(rest_dmapDoPageIo s v i p r).2.2, congrArg Chart.vmas hc, congrArg Chart.infos hc,
    fun {a} ha => ?_⟩
  simp only [dmapDoPageIo]
  split_ifs
  · exact ha
  · exact hfake a ha

/-- A step that changes the chart and not the image changes entries and slots only. -/
lemma outside_of_remaps (hm : pc.edits = false) (hr : pc.remaps = true)
    (hs : s.stepThread e c pc = .ok (s', pc')) : s'.outside = s.outside := by
  rcases Pc.remaps_cases hr with ⟨r, rfl⟩ | ⟨r, p, rfl⟩ | ⟨r, p, rfl⟩ | ⟨r, p, rfl⟩ |
    ⟨r, p, rfl⟩ | ⟨ret, qid, n, pgs, p, rfl⟩ | ⟨ret, p, pgs, rfl⟩ | ⟨v, pgs, rfl⟩ |
    ⟨a, p, h, pgs, rfl⟩
  · simp [Pc.edits] at hm
  · simp [Pc.edits] at hm
  · simp only [stepThread, stepGet, dmapAddOrUpdateRmap] at hs
    obtain ⟨s₁, hadd, hs⟩ := Except.map_eq_ok.mp hs
    rw [← (Prod.mk.inj hs).1]
    split at hadd
    · rw [Except.ok.inj hadd]
    · split at hadd
      · cases hadd
      · split at hadd
        · cases hadd
        · rw [← Except.ok.inj hadd]
          rfl
  · rw [← (Prod.mk.inj (Except.ok.inj hs)).1]
    simp only [finishFault, outside_unlockTp]
    split_ifs <;> rfl
  · rw [← (Prod.mk.inj (Except.ok.inj hs)).1]
    simp only [finishMkwrite, outside_unlockTp]
    split
    · split_ifs <;> rfl
    · rfl
  · rw [← (Prod.mk.inj (Except.ok.inj hs)).1]
    exact outside_removeMappings _ _
  · simp [Pc.edits] at hm
  · rw [← (Prod.mk.inj (Except.ok.inj hs)).1]
    exact foldl_outside outside_clearMappings _ _
  · rw [← (Prod.mk.inj (Except.ok.inj hs)).1]
    exact outside_clearMappings _ _

lemma sameFiles_stepThread (hs : s.stepThread e c pc = .ok (s', pc')) : SameFiles s s' := by
  cases hm : pc.edits with
  | false =>
    have hi := (image_stepThread hm hs).1
    cases hr : pc.remaps with
    | false =>
      have hc := chart_stepThread hr hs
      exact ⟨congrArg Image.pvds hi, congrArg Chart.vmas hc, congrArg Chart.infos hc,
        fun ha => (congrFun (congrArg Image.bitmap hi) _).trans ha⟩
    | true => exact .of_outside (outside_of_remaps hm hr hs)
  | true =>
    rcases Pc.edits_cases hm with ⟨r, rfl⟩ | ⟨r, p, rfl⟩ | ⟨r, p, rfl⟩ | ⟨r, p, rfl⟩ | ⟨r, p, rfl⟩ |
      ⟨ret, qid, n, pgs, p, rfl⟩ | ⟨ret, p, pgs, rfl⟩ | ⟨w, pgs, rfl⟩ | ⟨w, done, p, todo, rfl⟩ |
      ⟨a, p, hp, pgs, rfl⟩ | ⟨a, hp, pgs, rfl⟩
    · have hout := outside_allocPageLock e s c.node r.vmf.pgoff r.pvd
      simp only [stepThread, stepGet] at hs
      split at hs
      all_goals
        rename_i heq
        rw [heq] at hout
        rw [← (Prod.mk.inj (Except.ok.inj hs)).1]
        exact .of_outside hout
    · simp only [stepThread, stepGet, fmapRadixInsert] at hs
      split at hs
      all_goals
        rename_i heq
        rw [← (Prod.mk.inj (Except.ok.inj hs)).1, ← (Prod.mk.inj heq).2]
        exact .of_outside rfl
    · rw [← (Prod.mk.inj (Except.ok.inj hs)).1]
      exact .of_outside rfl
    · rw [← (Prod.mk.inj (Except.ok.inj hs)).1]
      exact sameFiles_dmapDoPageIo _ _ _ _ _
    · simp only [stepThread, stepMkwrite] at hs
      split_ifs at hs
      all_goals
        rw [← (Prod.mk.inj (Except.ok.inj hs)).1]
        exact .of_outside rfl
    · simp only [stepThread, stepPurge] at hs
      split at hs
      · cases hs
      · rw [← (Prod.mk.inj (Except.ok.inj hs)).1]
        exact .of_outside rfl
    · rw [← (Prod.mk.inj (Except.ok.inj hs)).1]
      exact .of_outside rfl
    · rw [← (Prod.mk.inj (Except.ok.inj hs)).1]
      exact ⟨rfl, rfl, rfl, fun ha => ha⟩
    · rw [← (Prod.mk.inj (Except.ok.inj hs)).1]
      exact .of_outside (by simp)
    · simp only [stepThread, stepSync] at hs
      split_ifs at hs
      all_goals
        rw [← (Prod.mk.inj (Except.ok.inj hs)).1]
        exact .of_outside (outside_enqueue _ _ _)
    · rw [← (Prod.mk.inj (Except.ok.inj hs)).1]
      exact ⟨rfl, rfl, rfl, fun ha => ha⟩

/-! ### Stores -/

lemma store_eq {vma : VmaId} {i : ℕ} {f : C → C} (hs : s.store vma i f = .ok s') :
    ∃ p, s.pte (vma, (s.vmas vma).addr i) = .map p true ∧
      s' = s.modifyPage p fun t => { t with content := f t.content } := by
  simp only [store] at hs
  split at hs
  · rename_i p hp
    exact ⟨p, hp, (Except.ok.inj hs).symm⟩
  · cases hs

/-- A store changes nothing but the content of a page. -/
lemma pages_store (s : State C) (p : PageId) (f : C → C) (q : PageId) : ∃ d,
    (s.modifyPage p fun t => { t with content := f t.content }).pages q =
      { s.pages q with content := d } := by
  by_cases hq : q = p
  · subst hq
    exact ⟨_, Function.update_self _ _ _⟩
  · exact ⟨_, Function.update_of_ne hq _ _⟩

end State

namespace Machine

open State

variable {e : Env C} {s₀ s' : State C} {m m' : Machine C} {t : Tid} {pc' : Pc} {p q : PageId}
  {c : Choice C} {log : List (BlockWrite C)} {l : Tid × Act C} {v : PvdId} {off : Pgoff}

/-! ### Stores -/

/-- The machine after a store of a user. -/
def stored (m : Machine C) (p : PageId) (f : C → C) : Machine C :=
  { m with st := m.st.modifyPage p fun t => { t with content := f t.content } }

lemma stored_page (m : Machine C) (p : PageId) (f : C → C) (q : PageId) :
    ((m.stored p f).st.pages q).isDirty = (m.st.pages q).isDirty ∧
      ((m.stored p f).st.pages q).pageValid = (m.st.pages q).pageValid := by
  obtain ⟨d, hq⟩ := pages_store m.st p f q
  rw [show (m.stored p f).st.pages q = { m.st.pages q with content := d } from hq]
  exact ⟨rfl, rfl⟩

lemma Inv.stored (h : Inv e m) (p : PageId) (f : C → C) : Inv e (m.stored p f) := by
  have hm := h.placed.moves_modifyPage (p := p)
    (f := fun t => { t with content := f t.content }) rfl rfl
  have hview : ∀ q, ∃ d, (m.stored p f).st.view e q =
      { m.st.view e q with page := { m.st.pages q with content := d } } := by
    intro q
    by_cases hq : q = p
    · subst hq
      exact ⟨_, hm.view_self⟩
    · exact ⟨_, hm.view_of_ne hq⟩
  refine ⟨hm.placed, ?_, fun q => ?_, fun t => ?_⟩
  · rw [show (m.stored p f).st.lockBits = m.st.lockBits from lockBits_of_update (p := p) rfl rfl]
    exact h.table
  · obtain ⟨d, hv⟩ := hview q
    have hq : (m.stored p f).st.pages q = { m.st.pages q with content := d } :=
      congrArg PageView.page hv
    refine ⟨fun {t} hh => ?_, fun hno => ?_⟩
    · obtain ⟨hat, hk⟩ := (h.page q).held hh
      rw [hv, hq]
      exact ⟨hat.congr Iff.rfl rfl rfl rfl rfl rfl rfl rfl rfl, hk⟩
    · have hr := (h.page q).rest hno
      rw [hv]
      refine ⟨hr.unlocked, hr.free, hr.phase.imp (fun hi => ⟨?_, hi.2⟩) fun hat =>
        hat.congr Iff.rfl rfl rfl rfl rfl rfl rfl rfl rfl⟩
      exact ⟨hi.1.inUse, ⟨hi.1.unlinked.clean, hi.1.unlinked.dirty, hi.1.unlinked.tree⟩,
        hi.1.bufferId, hi.1.isDirty⟩
  · have ht := h.thread t
    have hpage : ∀ q, ((m.stored p f).st.pages q).pvd = (m.st.pages q).pvd ∧
        ((m.stored p f).st.pages q).index = (m.st.pages q).index ∧
        ((m.stored p f).st.pages q).inUse = (m.st.pages q).inUse ∧
        ((m.stored p f).st.pages q).locked = (m.st.pages q).locked := by
      intro q
      obtain ⟨d, hv⟩ := hview q
      have hq : (m.stored p f).st.pages q = { m.st.pages q with content := d } :=
        congrArg PageView.page hv
      rw [hq]
      exact ⟨rfl, rfl, rfl, rfl⟩
    refine ⟨ht.evictor, fun {c q} hc => ?_, fun {r q i} hq => ?_, fun {q} hq => ?_⟩
    · obtain ⟨h₁, h₂, -⟩ := hpage q
      rw [h₁, h₂]
      exact ht.transit hc
    · obtain ⟨h₁, h₂, h₃, -⟩ := hpage q
      rw [h₁, h₂, h₃]
      exact ht.await hq
    · obtain ⟨-, h₂, -, h₄⟩ := hpage q
      rw [h₂, h₄]
      exact ht.fresh hq

lemma Secure.stored (h : Secure e m) (p : PageId) (f : C → C) : Secure e (m.stored p f) := by
  have hc : (m.stored p f).st.chart = m.st.chart :=
    chart_of_update (p := p) rfl rfl rfl rfl rfl rfl rfl rfl
  have hareas := areas_of_chart hc
  have hrmap : ∀ q, ((m.stored p f).st.pages q).rmap = (m.st.pages q).rmap := rmap_of_chart hc
  have hsame := stored_page m p f
  refine ⟨⟨h.sound.inv.stored p f, ?_⟩, ?_, ?_⟩
  · refine ⟨fun q => ?_, fun {t q} hq j => ?_, fun {t r q} hr => ?_, fun {t r} hr => ?_⟩
    · rw [hareas]
      exact charted_of_chart hc (h.sound.charts.page q)
    · rw [hrmap]
      exact h.sound.charts.bare hq j
    · simp only [TaggedPage.covers, hrmap]
      exact h.sound.charts.ready hr
    · rw [hareas]
      exact h.sound.charts.req hr
  · have hu : (m.stored p f).st.unread = m.st.unread := unread_of_update (p := p) rfl rfl rfl
    refine ⟨fun {q} hq => h.loading.unread (p := q) ?_, h.loading.heap⟩
    rwa [hu] at hq
  · refine ⟨fun {a q} hq => ?_, fun {t r q} hq => ?_, fun {t q} hq => ?_⟩
    · rw [(hsame q).1]
      exact h.guarded.writable (a := a) hq
    · rw [(hsame q).1]
      exact h.guarded.ready hq
    · exact ⟨(hsame q).2.trans (h.guarded.blank hq).1, fun j => by
        rw [hrmap]
        exact (h.guarded.blank hq).2 j⟩

lemma shielded_of_written {pc : Pc} (h : p ∈ pc.written) : p ∈ pc.shielded := by
  unfold Pc.written at h
  split at h <;> simp_all [Pc.shielded]

/-- A store writes into one block, which is marked, and is silent on the others. -/
lemma Secure.line_store (h : Secure e m) {vma : VmaId} {i : ℕ} (f : C → C)
    (hp : m.st.pte (vma, (m.st.vmas vma).addr i) = .map p true) :
    ∃ w, m.st.vmaPvd vma = some w ∧
      (∃ x, (m.line e w ((m.st.vmas vma).vmPgoff + i)).cached = some (x, true) ∧
        (m.stored p f).line e w ((m.st.vmas vma).vmPgoff + i) =
          (m.line e w ((m.st.vmas vma).vmPgoff + i)).write f) ∧
      ∀ v off, ¬ (v = w ∧ off = (m.st.vmas vma).vmPgoff + i) →
        (m.line e v off).Silent ((m.stored p f).line e v off) := by
  obtain ⟨hd, hsh⟩ := h.guarded.writable hp
  have hu := ((h.sound.charts.page p).entry (mapping_eq_some.mpr hp)).1
  obtain ⟨w, hw, hpw, hi, hl⟩ := h.sound.lookup_of_mapped hp (h.sound.inv.rdx_of_dirty hu hd)
  have hvalid := h.guarded.valid_of_mapped h.sound h.loading hp
  have hself : (m.stored p f).st.pages p =
      { m.st.pages p with content := f (m.st.pages p).content } :=
    Function.update_self _ _ _
  have hmark : m.Unsaved p := Or.inl ⟨hd, fun t ht => hsh t (shielded_of_written ht)⟩
  have hmark' : ∀ q, m.Unsaved q → (m.stored p f).Unsaved q := fun q =>
    Or.imp_left fun hu => ⟨(stored_page m p f q).1.trans hu.1, hu.2⟩
  refine ⟨w, hw, ⟨(m.st.pages p).content, ?_, ?_⟩, fun v off hne => ?_⟩
  · rw [line_of_lookup hl hvalid (b := true) (iff_of_true rfl hmark)]
  · rw [line_of_lookup hl hvalid (b := true) (iff_of_true rfl hmark),
      line_of_lookup (m := m.stored p f) hl (by rw [hself]; exact hvalid) (b := true)
        (iff_of_true rfl (hmark' p hmark)), hself]
    rfl
  · refine silent_of_marks rfl rfl fun q hq => ?_
    have hqp : q ≠ p := by
      rintro rfl
      obtain ⟨-, hv, ho⟩ := h.sound.inv.lookup_iff.mp hq
      exact hne ⟨Option.some.inj (hv.symm.trans hpw), ho.symm.trans hi⟩
    have hsame : (m.stored p f).st.pages q = m.st.pages q := Function.update_of_ne hqp _ _
    exact ⟨by rw [hsame], by rw [hsame], hmark' q⟩

/-! ### Entries of pages that have left the radix tree -/

/-- A page in no queue and no tree has no slots yet, or is about to be unmapped by reclaim. -/
lemma bare_of_alone {pc : Pc} (hh : pc.Holds p) (hg : pc.stage p = .alone) :
    p ∈ pc.bare ∨ ∃ ret qid n pgs, pc = .purge ret (.unmap qid n pgs p) := by
  cases pc with
  | idle => simp [Pc.stage] at hg
  | get r x => cases x <;> simp_all [Pc.stage, Pc.bare, Pc.Holds, Pc.locks, Pc.fresh]
  | mkwrite r q x => cases x <;> simp [Pc.stage] at hg
  | purge ret x =>
    cases x with
    | take qid n pgs | free pgs =>
      exact Or.inl (by simpa [Pc.Holds, Pc.locks, Pc.fresh, Pc.bare] using hh)
    | delete qid n pgs q =>
      have hq : p ≠ q := fun hq => by simp [Pc.stage, hq] at hg
      have hmem : p = q ∨ p ∈ pgs := by simpa [Pc.Holds, Pc.locks, Pc.fresh] using hh
      exact Or.inl (hmem.resolve_left hq)
    | unmap qid n pgs q =>
      have hmem : p = q ∨ p ∈ pgs := by simpa [Pc.Holds, Pc.locks, Pc.fresh] using hh
      rcases hmem with rfl | hmem
      · exact Or.inr ⟨ret, qid, n, pgs, rfl⟩
      · exact Or.inl hmem
  | evict x =>
    cases x with
    | insert v done todo =>
      simp only [Pc.stage] at hg
      split_ifs at hg
    | _ => simp [Pc.stage] at hg
  | sync a x =>
    cases x
    all_goals
      simp only [Pc.stage] at hg
      try split_ifs at hg
    all_goals cases hg

/-- A page that an entry maps is in the radix tree, unless reclaim has just taken it out. -/
lemma Sound.rdx_of_mapped (h : Sound e m) {a : VmaId × ℕ} {b : Bool} (hp : m.st.pte a = .map p b)
    (hno : ∀ t ret qid n pgs, m.pc t ≠ .purge ret (.unmap qid n pgs p)) :
    (m.st.view e p).tree .rdx = true := by
  obtain ⟨hu, j, hj, -⟩ := (h.charts.page p).entry (mapping_eq_some.mpr hp)
  by_cases hh : ∃ t, (m.pc t).Holds p
  · obtain ⟨t, hh⟩ := hh
    rw [((h.inv.page p).held hh).1.rdx]
    cases hg : (m.pc t).stage p with
    | alone =>
      rcases bare_of_alone hh hg with hb | ⟨ret, qid, n, pgs, hpc⟩
      · exact absurd ((h.charts.bare hb j).symm.trans hj) (by simp)
      · exact absurd hpc (hno t ret qid n pgs)
    | _ => rfl
  · exact (((h.inv.page p).rest fun t ht => hh ⟨t, ht⟩).at_of_inUse hu).rdx

/-! ### Every schedule -/

/-- What happens next: a thread of the driver takes a step, or a user stores through page `i` of an
area. -/
inductive Turn (C : Type*) where
  | driver (l : Tid × Act C)
  | store (vma : VmaId) (i : ℕ) (f : C → C)

/-- The effect on the content of a file as readers see it. -/
def Turn.act (w : World C) (v : PvdId) (x : Pgoff → C) : Turn C → Pgoff → C
  | .driver _ => x
  | .store vma i f => w.act v x (.store vma i f)

/-- The content of a file after a sequence of turns: the stores applied to the device. -/
def Turn.memory (w : World C) (v : PvdId) (ts : List (Turn C)) : Pgoff → C :=
  ts.foldl (Turn.act w v) fun off => w.disk ((w.pvds v).bk, off)

/-- A turn that is possible: a step of the driver, where reads succeed and batches are written, or a
store through an entry with write permission. -/
def Takes (e : Env C) (m : Machine C) : Turn C → Machine C → Prop
  | .driver l, m' => StepsRevoked e m l m' ∧ ∀ c, l.2 = .step c → Transfers e m l.1 c
  | .store vma i f, m' => ∃ s, m.st.store vma i f = .ok s ∧ m' = { m with st := s }

/-- A run of the driver whose reads succeed, with a writer that leaves out no page. -/
lemma run_driver {ls : List (Tid × Act C)} {m₀ : Machine C} (hw : e.WritesAll)
    (hr : Run (StepsRevoked e) m₀ ls m) (hread : ∀ l ∈ ls, ∀ c, l.2 = .step c → c.read = .full) :
    Run (Takes e) m₀ (ls.map .driver) m := by
  induction hr with
  | nil => exact .nil
  | @snoc as l m₁ m₂ _ hs ih =>
    rw [List.map_append]
    refine (ih fun l hl => hread l (List.mem_append_left _ hl)).snoc ⟨hs, fun c hc => ?_⟩
    exact ⟨fun _ => hread l (by simp) c hc, fun _ => hw.batch _ _ _, fun _ => hw.batch _ _ _⟩

/-- The invariant of a file. -/
structure Kept (e : Env C) (w : World C) (v : PvdId) (m : Machine C) : Prop where
  secure : Secure e m
  pvds : m.st.pvds = w.pvds
  vmas : m.st.vmas = w.vmas
  infos : m.st.infos = w.infos
  bitmap : (w.pvds v).type = .blkd → ∀ off, m.st.bitmap ((w.pvds v).bk, off) = true
  line (off : Pgoff) : (m.line e v off).Coherent

variable {w : World C}

lemma Kept.vmaPvd (h : Kept e w v m) (vma : VmaId) : w.areas.pvd vma = m.st.vmaPvd vma := by
  simp only [World.areas, State.vmaPvd, h.vmas, h.infos]

/-- At the start nothing is cached. -/
lemma line_initParams (e : Env C) (w : World C) (v : PvdId) (off : Pgoff) :
    (quiescent (initParams e w)).line e v off = ⟨none, w.disk ((w.pvds v).bk, off)⟩ :=
  line_of_none fun p hp =>
    absurd hp (by simp [quiescent, initParams, fmapRadixLookup, treeLookup])

lemma kept_quiescent (hb : (w.pvds v).type = .blkd → ∀ off, w.bitmap ((w.pvds v).bk, off) = true) :
    Kept e w v (quiescent (initParams e w)) where
  secure := secure_quiescent (fenced_initParams e w)
  pvds := rfl
  vmas := rfl
  infos := rfl
  bitmap := hb
  line off := by
    rw [line_initParams]
    intro c hc
    exact absurd hc (by simp)

lemma Kept.driver (h : Kept e w v m) (ha : ∀ v', (w.pvds v').bk = (w.pvds v).bk → v' = v)
    (hs : Takes e m (.driver l) m') : Kept e w v m' ∧
      ∀ off, (m'.line e v off).read = (m.line e v off).read := by
  obtain ⟨hs, htr⟩ := hs
  have hsec := h.secure.step hs
  have hsilent : SameFiles m.st m'.st ∧ ∀ off, (m.line e v off).Silent (m'.line e v off) := by
    rcases steps_cases hs.2.2.2 with ⟨k, pc', -, hidle, hk, rfl⟩ | ⟨c, s', pc', hl, hk, rfl⟩
    · exact ⟨.of_outside rfl, fun _ => silent_start hidle hk⟩
    · refine ⟨sameFiles_stepThread hk, fun off => ?_⟩
      refine h.secure.silent_step hsec.sound.inv ?_ ?_ (htr c hl) hk
      · rw [h.pvds]
        exact ha
      · rw [h.pvds]
        exact h.bitmap
  obtain ⟨hf, hline⟩ := hsilent
  exact ⟨⟨hsec, hf.pvds.trans h.pvds, hf.vmas.trans h.vmas, hf.infos.trans h.infos,
    fun ht off => hf.bitmap (h.bitmap ht off), fun off => (hline off).coherent (h.line off)⟩,
    fun off => (hline off).read_eq (h.line off)⟩

lemma Kept.store (h : Kept e w v m) {vma : VmaId} {i : ℕ} {f : C → C}
    (hs : Takes e m (.store vma i f) m') : Kept e w v m' ∧
      (fun off => (m'.line e v off).read) =
        w.act v (fun off => (m.line e v off).read) (.store vma i f) := by
  obtain ⟨s, hs, rfl⟩ := hs
  obtain ⟨p, hp, rfl⟩ := store_eq hs
  obtain ⟨w', hw', ⟨x, hx, hwrite⟩, hother⟩ := h.secure.line_store f hp
  have hpvd : w.areas.pvd vma = some w' := (h.vmaPvd vma).trans hw'
  rw [h.vmas] at hx hwrite hother
  have hread : ∀ off, ((m.stored p f).line e v off).Coherent ∧
      ((m.stored p f).line e v off).read =
        w.act v (fun off => (m.line e v off).read) (.store vma i f) off := by
    intro off
    simp only [World.act, hpvd, Option.some.injEq]
    by_cases hkey : v = w' ∧ off = (w.vmas vma).vmPgoff + i
    · obtain ⟨rfl, rfl⟩ := hkey
      rw [hwrite, if_pos rfl, Function.update_self]
      exact ⟨CacheLine.coherent_write hx f, CacheLine.read_write hx f⟩
    · have hsil := hother v off hkey
      refine ⟨hsil.coherent (h.line off), (hsil.read_eq (h.line off)).trans ?_⟩
      split_ifs with hv
      · rw [Function.update_of_ne fun ho => hkey ⟨hv.symm, ho⟩]
      · rfl
  exact ⟨⟨h.secure.stored p f, h.pvds, h.vmas, h.infos, h.bitmap, fun off => (hread off).1⟩,
    funext fun off => (hread off).2⟩

lemma Kept.turn (h : Kept e w v m) (ha : ∀ v', (w.pvds v').bk = (w.pvds v).bk → v' = v)
    {a : Turn C} (hs : Takes e m a m') : Kept e w v m' ∧
      (fun off => (m'.line e v off).read) = Turn.act w v (fun off => (m.line e v off).read) a := by
  cases a with
  | driver l =>
    obtain ⟨hk, hr⟩ := h.driver ha hs
    exact ⟨hk, funext hr⟩
  | store vma i f => exact h.store hs

/-- An entry that maps a page of the radix tree shows the block that the area has there. -/
lemma Kept.load (h : Kept e w v m) {vma : VmaId} {i : ℕ} {b : Bool}
    (hv : w.areas.pvd vma = some v) (hp : m.st.pte (vma, (m.st.vmas vma).addr i) = .map p b)
    (hr : (m.st.view e p).tree .rdx = true) :
    m.st.load vma i = some (m.line e v ((w.vmas vma).vmPgoff + i)).read := by
  obtain ⟨v', hv', -, -, hl⟩ := h.secure.sound.lookup_of_mapped hp hr
  obtain rfl : v = v' := Option.some.inj (hv.symm.trans ((h.vmaPvd vma).trans hv'))
  have hvalid := h.secure.guarded.valid_of_mapped h.secure.sound h.secure.loading hp
  classical
  rw [h.vmas] at hl
  rw [line_of_lookup hl hvalid (b := decide (m.Unsaved p)) decide_eq_true_iff]
  simp only [State.load, hp, CacheLine.read]

end Machine

end FastMap
