import FastMap.Coherence
import FastMap.PageIo
import FastMap.Permissions

/-!
# What a step does to a block

Over one file the buffer is a write-back cache also while its threads run at once: every step of a
thread is silent on every block, in the sense of `CacheLine.Silent`. The mark of a line is not
`is_dirty` of its page. An evictor writes a page before it marks the page clean, and a sync marks it
clean before it writes it; in both the line is clean when the page has been written.
-/

namespace FastMap

variable {C : Type*}

namespace Pc

variable {pc pc' : Pc} {p : PageId}

lemma holds_of_written (h : p ∈ pc.written) : pc.Holds p := by
  unfold written at h
  split at h <;> simp_all [Holds, locks]

lemma holds_of_batch (h : p ∈ pc.batch) : pc.Holds p := by
  unfold batch at h
  split at h <;> simp_all [Holds, locks]

end Pc

namespace State

variable {e : Env C} {s s' : State C} {p q : PageId} {pc pc' : Pc} {c : Choice C} {v : PvdId}
  {off : Pgoff}

/-- Only an evictor has pages that are written and still marked dirty. -/
lemma written_stepThread (hs : s.stepThread e c pc = .ok (s', pc')) (hq : pc.edits = false) :
    pc'.written = pc.written := by
  have hold : pc.written = [] := by
    unfold Pc.written
    split
    · rename_i todo
      cases todo with
      | nil => rfl
      | cons p todo => simp [Pc.edits] at hq
    · rfl
  rw [hold, List.eq_nil_iff_forall_not_mem]
  intro p hp
  rcases frame_stepThread hs with hf | rfl
  · cases pc with
    | evict x =>
      rcases written_stepEvict hs hp with hp | ⟨v, pgs, rfl, -⟩
      · rw [hold] at hp
        exact List.not_mem_nil hp
      · simp [Pc.edits] at hq
    | purge ret x => cases ret <;> cases pc' <;> simp_all [Pc.frame, Pc.written]
    | _ => cases pc' <;> simp_all [Pc.frame, Pc.written]
  · exact List.not_mem_nil hp

/-! ### Lookups in the radix trees -/

lemma lookup_treeInsert_rdx (s : State C) (v v' : PvdId) (i off : Pgoff) (p : PageId) :
    (s.treeInsert e .rdx v i p).fmapRadixLookup e v' off =
      if v' = v ∧ off = i then some ((s.fmapRadixLookup e v i).getD p)
      else s.fmapRadixLookup e v' off := by
  simp only [fmapRadixLookup, treeLookup, treeInsert]
  by_cases ht : (⟨.rdx, v', off % e.ncpus⟩ : TreeId) = ⟨.rdx, v, i % e.ncpus⟩
  · obtain ⟨-, rfl, hc⟩ := TreeId.mk.inj ht
    rw [hc, Function.update_self, KeyMap.lookup_insertNew]
    simp only [true_and]
  · rw [Function.update_of_ne ht, if_neg]
    rintro ⟨rfl, rfl⟩
    exact ht rfl

lemma lookup_treeErase_rdx (s : State C) (v v' : PvdId) (i off : Pgoff) :
    (s.treeErase ⟨.rdx, v, i % e.ncpus⟩ i).fmapRadixLookup e v' off =
      if v' = v ∧ off = i then none else s.fmapRadixLookup e v' off := by
  simp only [fmapRadixLookup, treeLookup, treeErase]
  by_cases ht : (⟨.rdx, v', off % e.ncpus⟩ : TreeId) = ⟨.rdx, v, i % e.ncpus⟩
  · obtain ⟨-, rfl, hc⟩ := TreeId.mk.inj ht
    rw [hc, Function.update_self, KeyMap.lookup_erase]
    simp only [true_and]
  · rw [Function.update_of_ne ht, if_neg]
    rintro ⟨rfl, rfl⟩
    exact ht rfl

lemma rest_dmapDoPageIo (s : State C) (v : PvdId) (i : Pgoff) (p : PageId) (r : ReadResult C) :
    (s.dmapDoPageIo v i p r).trees = s.trees ∧ (s.dmapDoPageIo v i p r).disk = s.disk ∧
      (s.dmapDoPageIo v i p r).pvds = s.pvds := by
  have hfake : (s.readOrFake v i p r).trees = s.trees ∧ (s.readOrFake v i p r).disk = s.disk ∧
      (s.readOrFake v i p r).pvds = s.pvds := by
    simp only [readOrFake]
    split
    · split_ifs <;> exact ⟨rfl, rfl, rfl⟩
    · exact ⟨rfl, rfl, rfl⟩
  simp only [dmapDoPageIo]
  split_ifs
  · exact ⟨rfl, rfl, rfl⟩
  · exact hfake

end State

namespace Machine

open State

variable {e : Env C} {s₀ s' : State C} {m m' : Machine C} {t : Tid} {pc' : Pc} {p q : PageId}
  {c : Choice C} {log : List (BlockWrite C)} {l : Tid × Act C} {v : PvdId} {off : Pgoff}

/-! ### A block as the threads have it -/

/-- The page has to be written before its frame may be given away. -/
def Unsaved (m : Machine C) (p : PageId) : Prop :=
  (m.st.pages p).isDirty = true ∧ (∀ t, p ∉ (m.pc t).written) ∨ ∃ t, p ∈ (m.pc t).batch

open Classical in
/-- A block of a file as the threads have it; a page counts once it has been read. -/
noncomputable def line (e : Env C) (m : Machine C) (v : PvdId) (off : Pgoff) : CacheLine C where
  cached :=
    match m.st.fmapRadixLookup e v off with
    | some p =>
      if (m.st.pages p).pageValid then some ((m.st.pages p).content, decide (m.Unsaved p)) else none
    | none => none
  back := m.st.disk ((m.st.pvds v).bk, off)

lemma line_of_lookup (hl : m.st.fmapRadixLookup e v off = some p)
    (hv : (m.st.pages p).pageValid = true) {b : Bool} (hb : b = true ↔ m.Unsaved p) :
    m.line e v off = ⟨some ((m.st.pages p).content, b), m.st.disk ((m.st.pvds v).bk, off)⟩ := by
  classical
  have : decide (m.Unsaved p) = b := by
    rw [Bool.eq_iff_iff, hb, decide_eq_true_iff]
  simp only [line, hl, hv, if_true, ← this]

lemma line_of_none (h : ∀ p, m.st.fmapRadixLookup e v off = some p →
    (m.st.pages p).pageValid = false) :
    m.line e v off = ⟨none, m.st.disk ((m.st.pvds v).bk, off)⟩ := by
  simp only [line]
  split
  · rename_i p hl
    simp [h p hl]
  · rfl

lemma unsaved_of_marked {x : C} (hc : (m.line e v off).cached = some (x, true)) :
    ∃ p, m.st.fmapRadixLookup e v off = some p ∧ m.Unsaved p := by
  simp only [line] at hc
  split at hc
  · rename_i p hl
    split_ifs at hc
    exact ⟨p, hl, by simpa using congrArg Prod.snd (Option.some.inj hc)⟩
  · exact absurd hc (by simp)

/-- A block whose page and device stay the same, and whose mark stays when it is set. -/
lemma silent_of_marks
    (hd : m'.st.disk ((m'.st.pvds v).bk, off) = m.st.disk ((m.st.pvds v).bk, off))
    (hl : m'.st.fmapRadixLookup e v off = m.st.fmapRadixLookup e v off)
    (hq : ∀ q, m.st.fmapRadixLookup e v off = some q →
      (m'.st.pages q).pageValid = (m.st.pages q).pageValid ∧
        (m'.st.pages q).content = (m.st.pages q).content ∧ (m.Unsaved q → m'.Unsaved q)) :
    (m.line e v off).Silent (m'.line e v off) := by
  classical
  by_cases hex : ∃ p, m.st.fmapRadixLookup e v off = some p ∧ (m.st.pages p).pageValid = true
  · obtain ⟨p, hp, hv⟩ := hex
    obtain ⟨h₁, h₂, h₃⟩ := hq p hp
    rw [line_of_lookup hp hv (b := decide (m.Unsaved p)) decide_eq_true_iff]
    by_cases hu : m'.Unsaved p
    · rw [line_of_lookup (hl.trans hp) (h₁.trans hv) (b := true) (iff_of_true rfl hu), h₂, hd]
      exact .mark _ _ _
    · rw [line_of_lookup (hl.trans hp) (h₁.trans hv) (b := false) (iff_of_false (by simp) hu), h₂,
        hd, decide_eq_false (mt h₃ hu)]
      exact .refl _
  · have hno : ∀ p, m.st.fmapRadixLookup e v off = some p → (m.st.pages p).pageValid = false :=
      fun p hp => by simpa using fun hv => hex ⟨p, hp, hv⟩
    rw [line_of_none hno, line_of_none fun p hp => (hq p (hl ▸ hp)).1.trans (hno p (hl ▸ hp)), hd]
    exact .refl _

/-! ### The mark of a page -/

lemma unsaved_put (hd : (s'.pages p).isDirty = (m.st.pages p).isDirty)
    (hw : p ∈ pc'.written ↔ p ∈ (m.pc t).written) (hb : p ∈ pc'.batch ↔ p ∈ (m.pc t).batch) :
    (m.put t s' pc' log).Unsaved p ↔ m.Unsaved p := by
  have hpc : ∀ {P : Pc → Prop}, (P pc' ↔ P (m.pc t)) →
      ∀ u, P ((m.put t s' pc' log).pc u) ↔ P (m.pc u) := by
    intro P hP u
    by_cases hu : u = t
    · subst hu
      rw [put_pc_self, hP]
    · rw [put_pc_of_ne hu]
  refine or_congr (and_congr (by rw [put_st, hd]) (forall_congr' fun u => ?_))
    (exists_congr fun u => ?_)
  · exact hpc (P := fun pc => p ∉ pc.written) (not_congr hw) u
  · exact hpc (P := fun pc => p ∈ pc.batch) hb u

/-- The mark of a page is known to its holder. -/
lemma Inv.unsaved_iff (h : Inv e m) (hh : (m.pc t).Holds p) : m.Unsaved p ↔
    (m.st.pages p).isDirty = true ∧ p ∉ (m.pc t).written ∨ p ∈ (m.pc t).batch := by
  have hown : ∀ {u}, (m.pc u).Holds p → u = t := fun hu => h.exclusive hh hu
  constructor
  · rintro (⟨hd, hw⟩ | ⟨u, hu⟩)
    · exact Or.inl ⟨hd, hw t⟩
    · exact Or.inr (hown (Pc.holds_of_batch hu) ▸ hu)
  · rintro (⟨hd, hw⟩ | hb)
    · exact Or.inl ⟨hd, fun u hu => hw (hown (Pc.holds_of_written hu) ▸ hu)⟩
    · exact Or.inr ⟨t, hb⟩

/-! ### A step on a block -/

/-- A read succeeds, and the pages of a batch are written. -/
structure Transfers (e : Env C) (m : Machine C) (t : Tid) (c : Choice C) : Prop where
  read {r : Req} {p : PageId} : m.pc t = .get r (.io p) → c.read = .full
  evict {v : PvdId} {pgs : List PageId} : m.pc t = .evict (.write v pgs) →
    e.WritesBatch v (m.st.view e) pgs
  sync {a : SyncArgs} {h : MinHeap} {pgs : List PageId} : m.pc t = .sync a (.write h pgs) →
    e.WritesBatch a.pvd (m.st.view e) pgs

/-- A step that leaves the pages of the radix trees alone, and what is marked. -/
lemma silent_same (hd : s'.disk = m.st.disk) (hv : s'.pvds = m.st.pvds)
    (hl : s'.fmapRadixLookup e v off = m.st.fmapRadixLookup e v off)
    (hf : ∀ q, m.st.fmapRadixLookup e v off = some q → (s'.pages q).face = (m.st.pages q).face)
    (hw : pc'.written = (m.pc t).written) (hb : pc'.batch = (m.pc t).batch) :
    (m.line e v off).Silent ((m.put t s' pc' log).line e v off) := by
  refine silent_of_marks (by rw [put_st, hd, hv]) hl fun q hq => ?_
  have hvalid := congrArg TaggedPage.pageValid (hf q hq)
  have hcontent := congrArg TaggedPage.content (hf q hq)
  have hdirty := congrArg TaggedPage.isDirty (hf q hq)
  exact ⟨hvalid, hcontent, (unsaved_put hdirty (by rw [hw]) (by rw [hb])).mpr⟩

lemma Inv.lookup_iff (h : Inv e m) : m.st.fmapRadixLookup e v off = some p ↔
    (m.st.view e p).tree .rdx = true ∧ (m.st.pages p).pvd = some v ∧ (m.st.pages p).index = off :=
  h.placed.treeLookup_iff

lemma Inv.lookup_ne_of_alone (h : Inv e m) (hp : (m.st.view e p).tree .rdx = false) :
    m.st.fmapRadixLookup e v off ≠ some p := fun hl =>
  Bool.false_ne_true (hp.symm.trans (h.lookup_iff.mp hl).1)

/-- `free_page_lock`: the page has left the radix tree, or has never been there. -/
lemma Inv.silent_free (h : Inv e m) (hf : (m.pc t).frees = some p)
    (hw : pc'.written = (m.pc t).written) (hb : pc'.batch = (m.pc t).batch) :
    (m.line e v off).Silent ((m.put t (m.st.freePageLock p) pc' log).line e v off) := by
  obtain ⟨hh, hg⟩ := alone_of_frees hf
  have hat := ((h.page p).held hh).1
  rw [hg] at hat
  refine silent_same rfl rfl rfl (fun q hq => ?_) hw hb
  have hqp : q ≠ p := fun hqp => h.lookup_ne_of_alone hat.rdx (hqp ▸ hq)
  rw [pages_freePageLock hqp]

/-- `alloc_page_lock` -/
lemma Inv.silent_alloc (h : Inv e m) {r : Req} (hpc : m.pc t = .get r .alloc)
    (hs : m.st.stepThread e c (m.pc t) = .ok (s', pc')) :
    (m.line e v off).Silent ((m.put t s' pc' log).line e v off) := by
  have hbefore : [] = (m.pc t).written ∧ [] = (m.pc t).batch := by
    rw [hpc]
    exact ⟨rfl, rfl⟩
  have hout := outside_allocPageLock e m.st c.node r.vmf.pgoff r.pvd
  rw [hpc] at hs
  simp only [State.stepThread, State.stepGet] at hs
  rcases h.placed.allocPageLock_idle (fun q hf => (h.idle_of_free hf).1) c.node r.vmf.pgoff r.pvd
    with ⟨s₁, hs₁, -, -⟩ | ⟨p, s₁, hs₁, hf, -⟩
  all_goals
    rw [hs₁] at hs hout
    cases hs
    obtain ⟨-, hl, hpages⟩ := allocPageLock_frame hs₁
    refine silent_same (congrArg Outside.disk hout) (congrArg Outside.pvds hout) (hl v off)
      (fun q hq => ((hpages q).2 ?_).1) hbefore.1 hbefore.2
  · simp
  · rintro hpq
    obtain rfl := Option.some.inj hpq
    exact h.lookup_ne_of_alone ((h.idle_of_free hf).1.unlinked.tree .rdx) hq

/-- A page that is inserted into the radix tree has not been read. -/
lemma Guarded.silent_insert (hg : Guarded m) {r : Req} (hpc : m.pc t = .get r (.insert p))
    (hw : pc'.written = []) (hb : pc'.batch = []) :
    (m.line e v off).Silent
      ((m.put t (m.st.treeInsert e .rdx r.pvd r.vmf.pgoff p) pc' log).line e v off) := by
  have hbefore : pc'.written = (m.pc t).written ∧ pc'.batch = (m.pc t).batch := by
    rw [hpc]
    exact ⟨hw, hb⟩
  have hlook := lookup_treeInsert_rdx (e := e) m.st r.pvd v r.vmf.pgoff off p
  by_cases hkey : v = r.pvd ∧ off = r.vmf.pgoff
  · obtain ⟨rfl, rfl⟩ := hkey
    rw [if_pos ⟨rfl, rfl⟩] at hlook
    cases hold : m.st.fmapRadixLookup e r.pvd r.vmf.pgoff with
    | some q =>
      rw [hold] at hlook
      exact silent_same rfl rfl (hlook.trans hold.symm) (fun _ _ => rfl) hbefore.1 hbefore.2
    | none =>
      rw [hold] at hlook
      have hinv : (m.st.pages p).pageValid = false :=
        (hg.blank (t := t) (by rw [hpc]; rfl)).1
      rw [line_of_none (m := m) (by simp [hold]), line_of_none fun q hq => ?_]
      · exact .refl _
      · rw [put_st, hlook] at hq
        obtain rfl := Option.some.inj hq
        exact hinv
  · rw [if_neg hkey] at hlook
    exact silent_same rfl rfl hlook (fun _ _ => rfl) hbefore.1 hbefore.2

/-- `dmap_do_page_io`: a block that is read in full is filled with what the device has. -/
lemma Guarded.silent_read (hg : Guarded m) (h : Inv e m) {r : Req}
    (h' : Inv e (m.put t (m.st.dmapDoPageIo r.pvd r.vmf.pgoff p c.read) (.get r (.done p)) log))
    (hpc : m.pc t = .get r (.io p)) (hfull : c.read = .full)
    (hbit : (m.st.pvds v).type = .blkd → ∀ i, m.st.bitmap ((m.st.pvds v).bk, i) = true) :
    (m.line e v off).Silent
      ((m.put t (m.st.dmapDoPageIo r.pvd r.vmf.pgoff p c.read) (.get r (.done p)) log).line
        e v off) := by
  have hinv : (m.st.pages p).pageValid = false := (hg.blank (t := t) (by rw [hpc]; rfl)).1
  have hh : (m.pc t).Holds p := by
    rw [hpc]
    exact Or.inl (by simp [Pc.locks])
  obtain ⟨hat, hk⟩ := (h.page p).held hh
  rw [hpc] at hat hk
  obtain ⟨hkv, hki⟩ : (m.st.pages p).pvd = some r.pvd ∧ (m.st.pages p).index = r.vmf.pgoff := hk
  have hl : m.st.fmapRadixLookup e r.pvd r.vmf.pgoff = some p :=
    h.lookup_iff.mpr ⟨hat.rdx, hkv, hki⟩
  obtain ⟨htrees, hdisk, hpvds⟩ := rest_dmapDoPageIo m.st r.pvd r.vmf.pgoff p c.read
  have hl' : ∀ v off, (m.st.dmapDoPageIo r.pvd r.vmf.pgoff p c.read).fmapRadixLookup e v off =
      m.st.fmapRadixLookup e v off := fun v off => by
    simp only [fmapRadixLookup, treeLookup, htrees]
  by_cases hkey : v = r.pvd ∧ off = r.vmf.pgoff
  · obtain ⟨rfl, rfl⟩ := hkey
    obtain ⟨hcontent, hvalid⟩ := pages_dmapDoPageIo (v := r.pvd) r.vmf.pgoff c.read hinv
    obtain ⟨d, hface⟩ := face_dmapDoPageIo (s := m.st) (p := p) r.pvd r.vmf.pgoff c.read
    rw [loaded_full hfull fun ht => hbit ht _] at hcontent
    set m' := m.put t (m.st.dmapDoPageIo r.pvd r.vmf.pgoff p c.read) (.get r (.done p)) log
      with hm'
    have hh' : (m'.pc t).Holds p := by
      rw [hm', put_pc_self]
      exact Or.inl (by simp [Pc.locks])
    have hclean : ¬ m'.Unsaved p := by
      have hd := congrArg TaggedPage.isDirty hface
      have hd₀ : (m.st.pages p).isDirty = false := hat.isDirty rfl
      rw [h'.unsaved_iff hh', hm', put_pc_self, put_st,
        show ((m.st.dmapDoPageIo r.pvd r.vmf.pgoff p c.read).pages p).isDirty = false from
          hd.trans hd₀]
      simp [Pc.batch]
    have hv' := congrArg TaggedPage.pageValid hface
    rw [line_of_none (m := m) fun q hq => (Option.some.inj (hl.symm.trans hq)) ▸ hinv,
      line_of_lookup (m := m') ((hl' _ _).trans hl) hv' (b := false)
        (iff_of_false (by simp) hclean), hm', put_st, hcontent, hdisk, hpvds]
    exact .fill _
  · refine silent_same hdisk hpvds (hl' v off) (fun q hq => ?_) (by rw [hpc]; rfl)
      (by rw [hpc]; rfl)
    have hqp : q ≠ p := by
      rintro rfl
      obtain ⟨-, hv, hi⟩ := h.lookup_iff.mp hq
      exact hkey ⟨Option.some.inj (hv.symm.trans hkv), hi.symm.trans hki⟩
    rw [pages_dmapDoPageIo_of_ne hqp]

/-- A page that changes its `is_dirty` and is not marked less than before. -/
lemma silent_setDirty {s₁ : State C} {b : Bool} (hi : s₁.image = m.st.image)
    (hp : m.Unsaved p → (m.put t (s₁.setDirty p b) pc' log).Unsaved p)
    (hw : ∀ q, q ≠ p → (q ∈ pc'.written ↔ q ∈ (m.pc t).written))
    (hb : ∀ q, q ≠ p → (q ∈ pc'.batch ↔ q ∈ (m.pc t).batch)) :
    (m.line e v off).Silent ((m.put t (s₁.setDirty p b) pc' log).line e v off) := by
  have hd : s₁.disk = m.st.disk := congrArg Image.disk hi
  have hv : s₁.pvds = m.st.pvds := congrArg Image.pvds hi
  have hface : ∀ q, ((s₁.setDirty p b).pages q).face = (m.st.pages q).face ∨
      q = p ∧ ((s₁.setDirty p b).pages q).face = { (m.st.pages q).face with isDirty := b } := by
    intro q
    by_cases hq : q = p
    · subst hq
      exact Or.inr ⟨rfl, by rw [face_setDirty, face_of_image hi]⟩
    · exact Or.inl (by rw [pages_setDirty _ _ hq, face_of_image hi])
  refine silent_of_marks ?_ (lookup_of_image hi v off) fun q _ => ?_
  · change s₁.disk ((s₁.pvds v).bk, off) = _
    rw [hd, hv]
  · rcases hface q with hf | ⟨rfl, hf⟩
    · have hvalid := congrArg TaggedPage.pageValid hf
      have hcontent := congrArg TaggedPage.content hf
      have hdirty := congrArg TaggedPage.isDirty hf
      refine ⟨hvalid, hcontent, ?_⟩
      by_cases hq : q = p
      · subst hq
        exact hp
      · exact (unsaved_put hdirty (hw q hq) (hb q hq)).mpr
    · have hvalid := congrArg TaggedPage.pageValid hf
      have hcontent := congrArg TaggedPage.content hf
      exact ⟨hvalid, hcontent, hp⟩

/-- `radix_tree_delete`: the page is clean, so the device has its content. -/
lemma Inv.silent_delete (h : Inv e m) {ret : Option Req} {qid n : ℕ} {pgs : List PageId}
    {w : PvdId} (hpc : m.pc t = .purge ret (.delete qid n pgs p))
    (hw : (m.st.pages p).pvd = some w) (hpc' : pc'.written = [] ∧ pc'.batch = []) :
    (m.line e v off).Silent ((m.put t (m.st.treeErase
      ⟨.rdx, w, (m.st.pages p).index % e.ncpus⟩ (m.st.pages p).index) pc' log).line e v off) := by
  have hbefore : pc'.written = (m.pc t).written ∧ pc'.batch = (m.pc t).batch := by
    rw [hpc]
    exact hpc'
  have hh : (m.pc t).Holds p := by
    rw [hpc]
    exact Or.inl (by simp [Pc.locks])
  have hat := ((h.page p).held hh).1
  simp only [hpc, Pc.stage, if_true] at hat
  have hl : m.st.fmapRadixLookup e w (m.st.pages p).index = some p :=
    h.lookup_iff.mpr ⟨hat.rdx, hw, rfl⟩
  have hlook := lookup_treeErase_rdx (e := e) m.st w v (m.st.pages p).index off
  by_cases hkey : v = w ∧ off = (m.st.pages p).index
  · obtain ⟨rfl, rfl⟩ := hkey
    rw [if_pos ⟨rfl, rfl⟩] at hlook
    have hclean : ¬ m.Unsaved p := by
      rw [h.unsaved_iff hh, hpc, show (m.st.pages p).isDirty = false from hat.isDirty rfl]
      simp [Pc.batch]
    rw [line_of_none (m := m.put t _ pc' log) fun q hq => by
      rw [put_st, hlook] at hq
      exact absurd hq (by simp)]
    cases hv : (m.st.pages p).pageValid with
    | true =>
      rw [line_of_lookup hl hv (b := false) (iff_of_false (by simp) hclean)]
      exact .drop _ _
    | false =>
      rw [line_of_none fun q hq => Option.some.inj (hl.symm.trans hq) ▸ hv]
      exact .refl _
  · rw [if_neg hkey] at hlook
    exact silent_same rfl rfl hlook (fun _ _ => rfl) hbefore.1 hbefore.2

/-- A batch that is written: its pages are no longer marked. -/
lemma Inv.silent_write (h : Inv e m) {w : PvdId} {pgs : List PageId}
    (ha : (m.st.pvds w).bk = (m.st.pvds v).bk → w = v) (hw : e.WritesBatch w (m.st.view e) pgs)
    (hall : ∀ q ∈ pgs, (m.st.view e q).tree .rdx = true ∧ (m.st.pages q).pvd = some w ∧
      (m.st.pages q).pageValid = true)
    (hmark : ∀ q ∈ pgs, m.Unsaved q ∧ ¬ (m.put t (m.st.writePages e w pgs) pc' log).Unsaved q)
    (hother : ∀ q, q ∉ pgs →
      ((m.put t (m.st.writePages e w pgs) pc' log).Unsaved q ↔ m.Unsaved q)) :
    (m.line e v off).Silent ((m.put t (m.st.writePages e w pgs) pc' log).line e v off) := by
  have hsync : Synced w (m.st.view e) m.st (m.st.writePages e w pgs) pgs :=
    synced_writePages pgs hw (fun q hq => ⟨(hall q hq).2.1, rfl, rfl⟩) fun q hq q' hq' hi =>
      eq_of_cached (hall q hq).1 (hall q' hq').1 ((hall q hq).2.1.trans (hall q' hq').2.1.symm) hi
  by_cases hex : ∃ q ∈ pgs, m.st.fmapRadixLookup e v off = some q
  · obtain ⟨q, hq, hl⟩ := hex
    obtain ⟨-, hv, hi⟩ := h.lookup_iff.mp hl
    obtain ⟨-, hwq, hvalid⟩ := hall q hq
    obtain rfl : w = v := Option.some.inj (hwq.symm.trans hv)
    have hdisk := hsync.written hq
    rw [view_page, hi] at hdisk
    rw [line_of_lookup hl hvalid (b := true) (iff_of_true rfl (hmark q hq).1),
      line_of_lookup (m := m.put t (m.st.writePages e w pgs) pc' log) hl hvalid (b := false)
        (iff_of_false (by simp) (hmark q hq).2)]
    change CacheLine.Silent _ ⟨_, (m.st.writePages e w pgs).disk ((m.st.pvds w).bk, off)⟩
    rw [hdisk]
    exact .clean _ _
  · refine silent_of_marks (hsync.other fun q hq heq => hex ⟨q, hq, ?_⟩) rfl fun q hl =>
      ⟨rfl, rfl, (hother q fun hq => hex ⟨q, hq, hl⟩).mpr⟩
    obtain ⟨hbk, hi⟩ := Prod.mk.inj heq
    obtain ⟨hr, hwq, -⟩ := hall q hq
    exact h.lookup_iff.mpr ⟨hr, ha hbk.symm ▸ hwq, hi.symm⟩

/-- `dmap_do_tagged_page_writable` marks a page. -/
lemma Inv.silent_mark {r : Req} (h' : Inv e (m.put t (m.st.setDirty p true)
    (.mkwrite r p .insert) log)) (hpc : m.pc t = .mkwrite r p .dirty) :
    (m.line e v off).Silent
      ((m.put t (m.st.setDirty p true) (.mkwrite r p .insert) log).line e v off) := by
  refine silent_setDirty rfl (fun _ => ?_) (fun _ _ => by rw [hpc]; rfl) fun _ _ => by
    rw [hpc]
    rfl
  have hh' : ((m.put t (m.st.setDirty p true) (.mkwrite r p .insert) log).pc t).Holds p := by
    rw [put_pc_self]
    exact Or.inl (by simp [Pc.locks])
  refine (h'.unsaved_iff hh').mpr (Or.inl ⟨?_, ?_⟩)
  · simp [setDirty, modifyPage]
  · rw [put_pc_self]
    exact List.not_mem_nil

/-- An evictor marks a page clean that it has written. -/
lemma Inv.silent_insert (h : Inv e m) {w : PvdId} {done todo : List PageId}
    (hpc : m.pc t = .evict (.insert w done (p :: todo))) :
    (m.line e v off).Silent ((m.put t (m.st.insertPage p true)
      (.evict (.insert w (done ++ [p]) todo)) log).line e v off) := by
  have hh : (m.pc t).Holds p := by
    rw [hpc]
    exact Or.inl (by simp [Pc.locks])
  refine silent_setDirty (image_enqueue _ _ p) (fun hu => ?_) (fun q hq => ?_) fun _ _ => by
    rw [hpc]
    rfl
  · rw [h.unsaved_iff hh, hpc] at hu
    simp [Pc.written, Pc.batch] at hu
  · rw [hpc]
    simp [Pc.written, hq]

/-- A sync marks a page clean that it is about to write. -/
lemma silent_enqueue {a : SyncArgs} {hp : MinHeap} {pgs : List PageId}
    (hpc : m.pc t = .sync a (.enqueue p hp pgs)) (hw : pc'.written = [])
    (hb : pc'.batch = pgs ++ [p]) :
    (m.line e v off).Silent ((m.put t ((m.st.enqueue (cleanQueue (m.st.pages p).index) p).2.setDirty
      p false) pc' log).line e v off) := by
  refine silent_setDirty (image_enqueue _ _ p) (fun _ => Or.inr ⟨t, ?_⟩) (fun q _ => ?_)
    fun q hq => ?_
  · rw [put_pc_self, hb]
    simp
  · rw [hw, hpc]
    rfl
  · rw [hb, hpc]
    simp [Pc.batch, hq]

/-- The pages of a batch that an evictor or a sync is about to write. -/
lemma Secure.batch_pages (h : Secure e m) {w : PvdId} {pgs : List PageId} {g : PageId → Stage}
    (hlocks : ∀ q ∈ pgs, q ∈ (m.pc t).locks) (hload : (m.pc t).loading = none)
    (hstage : ∀ q ∈ pgs, (m.pc t).stage q = g q) (hg : ∀ q ∈ pgs, ∀ d, ((g q).links d).rdx = true)
    (hknows : ∀ {x i}, (m.pc t).Knows x i → x = some w) :
    ∀ q ∈ pgs, (m.st.view e q).tree .rdx = true ∧ (m.st.pages q).pvd = some w ∧
      (m.st.pages q).pageValid = true := by
  intro q hq
  obtain ⟨hat, hk⟩ := (h.sound.inv.page q).held (Or.inl (hlocks q hq))
  rw [hstage q hq] at hat
  exact ⟨hat.rdx.trans (hg q hq _), hknows hk,
    h.sound.valid_of_locks h.loading (hlocks q hq) hload⟩

lemma Secure.silent_evict_write (h : Secure e m) {w : PvdId} {pgs : List PageId}
    (h' : Inv e (m.put t (m.st.writePages e w pgs) (.evict (.insert w [] pgs)) log))
    (ha : (m.st.pvds w).bk = (m.st.pvds v).bk → w = v) (ht : Transfers e m t c)
    (hpc : m.pc t = .evict (.write w pgs)) : (m.line e v off).Silent
      ((m.put t (m.st.writePages e w pgs) (.evict (.insert w [] pgs)) log).line e v off) := by
  have hlocks : ∀ q ∈ pgs, q ∈ (m.pc t).locks := fun q hq => by
    rw [hpc]
    exact hq
  refine h.sound.inv.silent_write ha (ht.evict hpc)
    (h.batch_pages (g := fun _ => .grabbed) hlocks (by rw [hpc]; rfl) (fun _ _ => by rw [hpc]; rfl)
      (fun _ _ _ => rfl) fun hk => by rwa [hpc] at hk) (fun q hq => ⟨?_, ?_⟩) fun q hq => ?_
  · have hh : (m.pc t).Holds q := Or.inl (hlocks q hq)
    have hat := ((h.sound.inv.page q).held hh).1
    rw [hpc] at hat
    rw [h.sound.inv.unsaved_iff hh, hpc]
    exact Or.inl ⟨hat.isDirty rfl, List.not_mem_nil⟩
  · rw [h'.unsaved_iff (t := t) (by rw [put_pc_self]; exact Or.inl (by simpa [Pc.locks] using hq)),
      put_pc_self]
    simp [Pc.written, Pc.batch, hq]
  · refine unsaved_put rfl ?_ ?_
    · rw [hpc]
      simp [Pc.written, hq]
    · rw [hpc]
      rfl

lemma Secure.silent_sync_write (h : Secure e m) {a : SyncArgs} {hp : MinHeap} {pgs : List PageId}
    (h' : Inv e (m.put t (m.st.writePages e a.pvd pgs) (.sync a (.unlock hp pgs)) log))
    (ha : (m.st.pvds a.pvd).bk = (m.st.pvds v).bk → a.pvd = v) (ht : Transfers e m t c)
    (hpc : m.pc t = .sync a (.write hp pgs)) : (m.line e v off).Silent
      ((m.put t (m.st.writePages e a.pvd pgs) (.sync a (.unlock hp pgs)) log).line e v off) := by
  have hlocks : ∀ q ∈ pgs, q ∈ (m.pc t).locks := fun q hq => by
    rw [hpc]
    simp [Pc.locks, hq]
  refine h.sound.inv.silent_write ha (ht.sync hpc)
    (h.batch_pages (g := fun _ => .clean) hlocks (by rw [hpc]; rfl)
      (fun q hq => by rw [hpc]; simp [Pc.stage, hq]) (fun _ _ _ => rfl)
      fun hk => by rwa [hpc] at hk) (fun q hq => ⟨?_, ?_⟩) fun q hq => ?_
  · refine Or.inr ⟨t, ?_⟩
    rw [hpc]
    exact hq
  · have hat := ((h.sound.inv.page q).held (Or.inl (hlocks q hq))).1
    simp only [hpc, Pc.stage, if_pos hq] at hat
    rw [h'.unsaved_iff (t := t) (by rw [put_pc_self]; exact Or.inl (by simp [Pc.locks, hq])),
      put_pc_self, put_st, show ((m.st.writePages e a.pvd pgs).pages q).isDirty = false from
        hat.isDirty rfl]
    simp [Pc.batch]
  · refine unsaved_put rfl ?_ ?_
    · rw [hpc]
      rfl
    · rw [hpc]
      simp [Pc.batch, hq]

/-- Every step of a thread is silent on every block of a file. -/
lemma Secure.silent_step (h : Secure e m) (h' : Inv e (m.put t s' pc' log))
    (ha : ∀ w, (m.st.pvds w).bk = (m.st.pvds v).bk → w = v)
    (hbit : (m.st.pvds v).type = .blkd → ∀ i, m.st.bitmap ((m.st.pvds v).bk, i) = true)
    (ht : Transfers e m t c) (hs : m.st.stepThread e c (m.pc t) = .ok (s', pc')) :
    (m.line e v off).Silent ((m.put t s' pc' log).line e v off) := by
  have hi := h.sound.inv
  cases hm : (m.pc t).edits with
  | false =>
    obtain ⟨him, hb⟩ := image_stepThread hm hs
    exact silent_same (congrArg Image.disk him) (congrArg Image.pvds him)
      (lookup_of_image him v off) (fun q _ => face_of_image him q) (written_stepThread hs hm) hb
  | true =>
    rcases Pc.edits_cases hm with ⟨r, hpc⟩ | ⟨r, p, hpc⟩ | ⟨r, p, hpc⟩ | ⟨r, p, hpc⟩ | ⟨r, p, hpc⟩ |
      ⟨ret, qid, n, pgs, p, hpc⟩ | ⟨ret, p, pgs, hpc⟩ | ⟨w, pgs, hpc⟩ | ⟨w, done, p, todo, hpc⟩ |
      ⟨a, p, hp, pgs, hpc⟩ | ⟨a, hp, pgs, hpc⟩
    · exact hi.silent_alloc hpc hs
    · rw [hpc] at hs
      simp only [State.stepThread, State.stepGet, fmapRadixInsert] at hs
      split at hs
      all_goals
        rename_i heq
        obtain ⟨-, rfl⟩ := Prod.mk.inj heq
        cases hs
        exact h.guarded.silent_insert hpc rfl rfl
    · rw [hpc] at hs
      cases hs
      exact hi.silent_free (by rw [hpc]; rfl) (by rw [hpc]; rfl) (by rw [hpc]; rfl)
    · rw [hpc] at hs
      cases hs
      exact h.guarded.silent_read hi h' hpc (ht.read hpc) hbit
    · rw [hpc] at hs
      simp only [State.stepThread, State.stepMkwrite] at hs
      split_ifs at hs
      · cases hs
        exact silent_same rfl rfl rfl (fun _ _ => rfl) (by rw [hpc]; rfl) (by rw [hpc]; rfl)
      · cases hs
        exact Inv.silent_mark h' hpc
    · rw [hpc] at hs
      simp only [State.stepThread, State.stepPurge] at hs
      split at hs
      · cases hs
      · rename_i w hw
        cases hs
        exact hi.silent_delete hpc hw ⟨rfl, rfl⟩
    · rw [hpc] at hs
      cases hs
      exact hi.silent_free (by rw [hpc]; rfl) (by rw [hpc]; rfl) (by rw [hpc]; rfl)
    · rw [hpc] at hs
      cases hs
      exact h.silent_evict_write h' (ha w) ht hpc
    · rw [hpc] at hs
      cases hs
      exact hi.silent_insert hpc
    · rw [hpc] at hs
      simp only [State.stepThread, State.stepSync] at hs
      split_ifs at hs
      all_goals
        cases hs
        exact silent_enqueue hpc rfl rfl
    · rw [hpc] at hs
      cases hs
      exact h.silent_sync_write h' (ha a.pvd) ht hpc

/-- The start of a call changes no block. -/
lemma silent_start {k : Task} (hidle : m.pc t = .idle) (hs : m.st.start e t k = .ok pc') :
    (m.line e v off).Silent ((m.put t m.st pc' log).line e v off) := by
  have hpc : pc'.written = [] ∧ pc'.batch = [] := by
    rcases start_inv hs with ⟨vma, i, w, -, -, rfl⟩ | ⟨vma, i, w, p, b, -, -, -, rfl⟩ |
      ⟨qid, -, rfl⟩ | ⟨id, -, -, rfl⟩ | ⟨cb, w, -, rfl⟩
    all_goals exact ⟨rfl, rfl⟩
  exact silent_same rfl rfl rfl (fun _ _ => rfl) (by rw [hpc.1, hidle]; rfl)
    (by rw [hpc.2, hidle]; rfl)

end Machine

end FastMap
