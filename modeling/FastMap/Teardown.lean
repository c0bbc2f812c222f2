import FastMap.Files
import FastMap.Sync

/-!
# Release and unlink

`raw_release` and `wrapfs_unlink` empty the radix trees of a pvd page by page. They differ in what
they do with a page: a release frees every page, an unlink only those in a clean queue.
-/

namespace FastMap

variable {C : Type*}

namespace PageView

/-- A clean page that has been dropped from the cache; what maps it is not looked at. -/
def dropped (x : PageView C) : PageView C := x.dequeued.uncached.freed

/-- A page that has been taken out of the radix tree and locked. -/
def popped (x : PageView C) : PageView C :=
  { x.uncached with page := { x.page with locked := true } }

/-- A page after `wrapfs_unlink`: a dirty page only leaves the radix tree. -/
def orphaned (x : PageView C) : PageView C :=
  if x.page.isDirty then { x.uncached with page := { x.page with locked := false } }
  else x.dropped

end PageView

namespace State

variable {e : Env C} {s s' : State C} {v : PvdId} {p : PageId}

/-- The pages that the radix trees of a pvd hold. -/
def Owned (e : Env C) (v : PvdId) (p : PageId) (x : PageView C) : Prop :=
  Resident e p x ∧ x.page.pvd = some v ∧ x.page.locked = false

lemma popRadix_some {cpus : List ℕ} (h : s.popRadix v cpus = some (p, s')) :
    ∃ cpu k, cpu ∈ cpus ∧ (s.trees ⟨.rdx, v, cpu⟩).lookup k = some p ∧
      s' = s.treeErase ⟨.rdx, v, cpu⟩ k := by
  induction cpus with
  | nil => exact absurd h (by simp [popRadix])
  | cons cpu cpus ih =>
    simp only [popRadix] at h
    split at h
    · obtain ⟨c, k, hc, hk⟩ := ih h
      exact ⟨c, k, List.mem_cons_of_mem _ hc, hk⟩
    · rename_i k q hf
      obtain ⟨rfl, rfl⟩ : q = p ∧ s.treeErase ⟨.rdx, v, cpu⟩ k = s' := by simpa using h
      exact ⟨cpu, k, List.mem_cons_self, KeyMap.lookup_of_first? hf, rfl⟩

lemma popRadix_none {cpus : List ℕ} (h : s.popRadix v cpus = none) {cpu : ℕ} (hc : cpu ∈ cpus)
    (k : Pgoff) : (s.trees ⟨.rdx, v, cpu⟩).lookup k = none := by
  induction cpus with
  | nil => exact absurd hc List.not_mem_nil
  | cons c cpus ih =>
    simp only [popRadix] at h
    split at h
    · rename_i hf
      rcases List.mem_cons.mp hc with rfl | hc
      · exact KeyMap.lookup_of_first?_none hf k
      · exact ih h hc
    · exact absurd h (by simp)

/-- What holds at the start of the loop over the radix trees and is kept by the treatment of a page
that has been taken out and locked holds at its end, and then the trees are empty. -/
lemma clearRadix_induction {I : State C → Prop} {dispose : State C → PageId → State C} {fuel : ℕ}
    (hstep : ∀ s s₁ p, I s → s.popRadix v (List.range e.ncpus) = some (p, s₁) →
      (s₁.pages p).locked = false →
      I (dispose (s₁.modifyPage p fun t => { t with locked := true }) p))
    (hI : I s) (hs : clearRadix e v dispose fuel s = .ok s') :
    I s' ∧ s'.popRadix v (List.range e.ncpus) = none := by
  induction fuel generalizing s with
  | zero =>
    rw [clearRadix] at hs
    cases hp : s.popRadix v (List.range e.ncpus) with
    | none =>
      obtain rfl : s = s' := by simpa [hp] using hs
      exact ⟨hI, hp⟩
    | some r => simp [hp] at hs
  | succ fuel ih =>
    rw [clearRadix] at hs
    cases hp : s.popRadix v (List.range e.ncpus) with
    | none =>
      obtain rfl : s = s' := by simpa [hp] using hs
      exact ⟨hI, hp⟩
    | some r =>
      obtain ⟨p, s₁⟩ := r
      simp only [hp] at hs
      rcases s₁.trylockTp_cases p ulongMax with ⟨r, hr, ht⟩ | ⟨-, hl, -, ht⟩
      · rw [ht] at hs
        split at hs
        · rename_i heq
          exact absurd (Prod.mk.inj heq).1 hr
        · exact absurd hs (by simp)
      · rw [ht] at hs
        exact ih (hstep s s₁ p hI hp hl) hs

/-- What the loop leaves when it ends: every page of the pvd has been disposed of. -/
structure Cleared (e : Env C) (v : PvdId) (x : PageId → PageView C)
    (g : PageView C → PageView C) (s s' : State C) (pgs : List PageId) : Prop where
  batch : Batch e x (Owned e v) g s' pgs
  outside_eq : s'.outside = s.outside
  complete {q : PageId} : (x q).tree .rdx = true → (x q).page.pvd = some v → q ∈ pgs

section loop

variable {x : PageId → PageView C} {g : PageView C → PageView C} {pgs : List PageId}

/-- A page that the loop takes out has not been disposed of. -/
lemma Batch.popRadix (hx : ∀ p, Idle (x p) ∨ Resident e p (x p))
    (hg : ∀ p, Owned e v p (x p) → (g (x p)).tree .rdx = false)
    (h : Batch e x (Owned e v) g s pgs) {cpus : List ℕ} (hp : s.popRadix v cpus = some (p, s')) :
    p ∉ pgs ∧ s.view e p = x p ∧ Resident e p (x p) ∧ (x p).page.pvd = some v ∧
      s'.outside = s.outside ∧ Moves e s s' p (x p).uncached := by
  obtain ⟨cpu, k, -, hlook, rfl⟩ := popRadix_some hp
  obtain ⟨hcpu, hv, rfl⟩ := h.placed.tree_own hlook
  have htree := h.placed.tree_of_lookup hlook
  have hpg : p ∉ pgs := by
    intro hmem
    rw [h.view_of_mem hmem, hg p (h.all hmem)] at htree
    exact Bool.false_ne_true htree
  have hxp := h.view_of_not_mem hpg
  have he := h.placed.moves_treeErase hv htree
  rw [hxp] at he
  refine ⟨hpg, hxp, (hx p).resolve_left fun hi => ?_, by rw [← hxp]; exact hv, rfl, ?_⟩
  · exact Bool.false_ne_true ((hi.unlinked.tree .rdx).symm.trans (hxp ▸ htree))
  · rw [show cpu = (s.pages p).index % e.ncpus from hcpu]
    exact he

/-- With the trees empty, every page of the pvd has been disposed of. -/
lemma Batch.cleared (h : Batch e x (Owned e v) g s pgs)
    (hn : s.popRadix v (List.range e.ncpus) = none) : Cleared e v x g s s pgs := by
  refine ⟨h, rfl, fun {q} ht hv => ?_⟩
  by_contra hq
  rw [← h.view_of_not_mem hq] at ht hv
  obtain ⟨w, hw, hl⟩ := view_tree.mp ht
  obtain rfl : w = v := by simpa using hw.symm.trans hv
  rw [treeLookup, popRadix_none hn (List.mem_range.mpr (Nat.mod_lt _ e.ncpus_pos))] at hl
  exact absurd hl (by simp)

/-- What the loop needs to know about the treatment of one page. -/
structure Disposes (e : Env C) (v : PvdId) (x : PageId → PageView C) (g : PageView C → PageView C)
    (dispose : State C → PageId → State C) : Prop where
  uncached (p : PageId) : Owned e v p (x p) → (g (x p)).tree .rdx = false
  outside (s : State C) (p : PageId) : (dispose s p).outside = s.outside
  trees (s : State C) (p : PageId) : (dispose s p).trees = s.trees
  moves (t : State C) (p : PageId) : t.Placed e → Owned e v p (x p) →
    t.view e p = (x p).popped → Moves e t (dispose t p) p (g (x p))

variable {dispose : State C → PageId → State C}

/-- An iteration that has locked its page. -/
lemma Batch.push_disposed (h : Batch e x (Owned e v) g s pgs) (hd : Disposes e v x g dispose)
    (hpg : p ∉ pgs) (ho : Owned e v p (x p)) {s₁ : State C} (hm : Moves e s s₁ p (x p).uncached) :
    Batch e x (Owned e v) g
      (dispose (s₁.modifyPage p fun t => { t with locked := true }) p) (pgs ++ [p]) := by
  have hl := hm.modifyPage (f := fun t => { t with locked := true }) rfl rfl
  exact h.push hpg ho (hl.trans (hd.moves _ p hl.placed ho hl.view_self))

/-- The loop over the radix trees. -/
lemma Batch.clearRadix (hx : ∀ p, Idle (x p) ∨ Resident e p (x p)) (hd : Disposes e v x g dispose)
    (fuel : ℕ) (h : Batch e x (Owned e v) g s pgs)
    (hs : clearRadix e v dispose fuel s = .ok s') : ∃ pgs', Cleared e v x g s s' pgs' := by
  obtain ⟨⟨pgs', hb, hout⟩, hn⟩ := clearRadix_induction
    (I := fun t => ∃ pgs, Batch e x (Owned e v) g t pgs ∧ t.outside = s.outside)
    (fun t t₁ p ⟨pgs, hb, hout⟩ hp hl => by
      obtain ⟨hpg, -, hres, hv, hout₁, hm⟩ := hb.popRadix hx hd.uncached hp
      rw [hm.pages_self] at hl
      refine ⟨_, hb.push_disposed hd hpg ⟨hres, hv, hl⟩ hm, ?_⟩
      rw [hd.outside, outside_modifyPage]
      exact hout₁.trans hout) ⟨pgs, h, rfl⟩ hs
  have hc := hb.cleared hn
  exact ⟨pgs', hc.batch, hout, hc.complete⟩

/-- Taking an entry out of a tree makes the trees one entry smaller. -/
lemma treeSize_treeErase {k : TreeKind} {cpu : ℕ} {j : Pgoff} (hc : cpu ∈ List.range e.ncpus)
    (hlook : (s.trees ⟨k, v, cpu⟩).lookup j = some p) :
    (s.treeErase ⟨k, v, cpu⟩ j).treeSize e k v + 1 = s.treeSize e k v := by
  have hsize := KeyMap.size_erase hlook
  have hother : ((List.range e.ncpus).erase cpu).map
      (fun c => ((s.treeErase ⟨k, v, cpu⟩ j).trees ⟨k, v, c⟩).size) =
      ((List.range e.ncpus).erase cpu).map fun c => (s.trees ⟨k, v, c⟩).size := by
    refine List.map_congr_left fun c hcm => ?_
    have hne : c ≠ cpu := (List.nodup_range.mem_erase_iff.mp hcm).1
    simp [treeErase, hne]
  rw [treeSize, treeSize, ← List.sum_map_erase _ hc, hother, ← List.sum_map_erase _ hc]
  simp only [treeErase, Function.update_self]
  omega

lemma treeSize_popRadix (hp : s.popRadix v (List.range e.ncpus) = some (p, s')) :
    s'.treeSize e .rdx v + 1 = s.treeSize e .rdx v := by
  obtain ⟨cpu, k, hc, hlook, rfl⟩ := popRadix_some hp
  exact treeSize_treeErase hc hlook

/-- When no page is locked, the entries are enough fuel and the loop ends. -/
lemma Batch.clearRadix_ok (hx : ∀ p, Idle (x p) ∨ Resident e p (x p))
    (hl : ∀ p, (x p).page.locked = false) (hd : Disposes e v x g dispose) (fuel : ℕ)
    (h : Batch e x (Owned e v) g s pgs) (hf : s.treeSize e .rdx v ≤ fuel) :
    ∃ s', State.clearRadix e v dispose fuel s = .ok s' := by
  induction fuel generalizing s pgs with
  | zero =>
    rw [State.clearRadix]
    cases hp : s.popRadix v (List.range e.ncpus) with
    | none => exact ⟨s, rfl⟩
    | some r =>
      obtain ⟨p, s₁⟩ := r
      have := treeSize_popRadix hp
      omega
  | succ fuel ih =>
    rw [State.clearRadix]
    cases hp : s.popRadix v (List.range e.ncpus) with
    | none => exact ⟨s, rfl⟩
    | some r =>
      obtain ⟨p, s₁⟩ := r
      have hsize := treeSize_popRadix hp
      obtain ⟨hpg, -, hres, hv, -, hm⟩ := h.popRadix hx hd.uncached hp
      have ht : s₁.trylockTp p ulongMax =
          (0, s₁.modifyPage p fun t => { t with locked := true }) :=
        trylockTp_eq (by rw [hm.pages_self]; exact hres.inUse) (by rw [hm.pages_self]; exact hl p)
      simp only [ht]
      refine ih (h.push_disposed hd hpg ⟨hres, hv, hl p⟩ hm) ?_
      have htr :
          (dispose (s₁.modifyPage p fun t => { t with locked := true }) p).treeSize e .rdx v =
          s₁.treeSize e .rdx v := by
        simp only [treeSize, hd.trees]
        rfl
      omega

end loop

/-! ### `raw_release` -/

lemma outside_rawReleasePage (s : State C) (p : PageId) :
    (s.rawReleasePage p).outside = s.outside := by
  simp only [rawReleasePage]
  split <;> rfl

lemma trees_rawReleasePage (s : State C) (p : PageId) : (s.rawReleasePage p).trees = s.trees := by
  simp only [rawReleasePage]
  split <;> rfl

/-- A locked page of a clean queue that has left the radix tree is removed and freed. -/
lemma Placed.moves_removeFree {x : PageView C} (h : s.Placed e) (ho : Owned e v p x)
    (hc : x.page.isDirty = false) (hv : s.view e p = x.popped) :
    Moves e s ((s.remove (cleanQueue (s.pages p).index) p).freePageLock p) p x.dropped := by
  have hcl : (s.view e p).clean = true := by
    rw [hv]
    simp [PageView.popped, PageView.uncached, ho.1.clean, hc]
  have hr := h.moves_remove ((view_clean e s p).mp hcl)
  rw [← view_page e, hv] at hr
  rw [← view_page e, hv]
  have hun : ((s.remove (cleanQueue x.popped.page.index) p).view e p).Unlinked := by
    rw [hr.view_self]
    refine ⟨rfl, rfl, fun k => ?_⟩
    cases k with
    | rdx => simp [PageView.popped, PageView.uncached]
    | dirty => exact ho.1.tree.trans hc
  have hf := hr.placed.moves_freePageLock ho.1.lt hun (by rw [hr.view_self]; exact ho.1.free)
    (by rw [← view_page e, hr.view_self]; exact ho.1.cpuid)
  rw [hr.view_self] at hf
  exact hr.trans hf

/-- After the dirty pages have been written, every page of the pvd is removed and freed. -/
lemma Drained.disposes {bs : List (List PageId)}
    (h : Drained e .release v (s.view e) s s' bs) :
    Disposes e v (s'.view e) PageView.dropped rawReleasePage := by
  have hclean : ∀ p, Owned e v p (s'.view e p) → (s'.view e p).page.isDirty = false :=
    fun p ho => h.clean_after ho.1 ho.2.1
  refine ⟨fun p _ => ?_, outside_rawReleasePage, trees_rawReleasePage, fun t p ht ho hv => ?_⟩
  · simp [PageView.dropped, PageView.freed, PageView.uncached]
  · have hb : (t.pages p).bufferId = .biClean := by
      rw [← view_page e, hv]
      exact ho.1.bufferId.trans (by rw [hclean p ho]; rfl)
    simp only [rawReleasePage, hb]
    exact ht.moves_removeFree ho (hclean p ho) hv

lemma Inv.drained (hi : s.Inv e) {cb : Cleanup} {bs : List (List PageId)}
    (h : Drained e cb v (s.view e) s s' bs) : s'.Inv e := by
  refine ⟨h.batch.placed, fun p => ?_⟩
  rw [h.batch.view_eq]
  split_ifs with hp
  · exact Or.inr (resident_synced (h.batch.all hp).1)
  · exact hi.page p

/-- `raw_release` writes the dirty pages of the pvd and then frees all its pages. -/
lemma Inv.rawRelease (hi : s.Inv e) (hs : s.rawRelease e v = .ok s') :
    ∃ s₁ pgs, s.writeDirtyPages e .release v = .ok s₁ ∧
      Drained e .release v (s.view e) s s₁ (s.syncBatches e .release v) ∧
      Cleared e v (s₁.view e) PageView.dropped s₁ s' pgs := by
  simp only [State.rawRelease] at hs
  cases hw : s.writeDirtyPages e .release v with
  | error err => simp [hw] at hs
  | ok s₁ =>
    simp only [hw] at hs
    have hl := hi.writeDirtyPages hw
    obtain ⟨pgs, hc⟩ := Batch.clearRadix (hi.drained hl).page hl.disposes _
      hl.batch.placed.batch_nil hs
    exact ⟨s₁, pgs, rfl, hl, hc⟩

/-! ### `wrapfs_unlink` -/

lemma disposes_unlinkPage (x : PageId → PageView C) :
    Disposes e v x PageView.orphaned unlinkPage := by
  refine ⟨fun p _ => ?_, fun s p => ?_, fun s p => ?_, fun t p ht ho hv => ?_⟩
  · simp only [PageView.orphaned]
    split_ifs <;> simp [PageView.dropped, PageView.freed, PageView.uncached]
  · simp only [unlinkPage]
    split <;> rfl
  · simp only [unlinkPage]
    split <;> rfl
  · have hb : (t.pages p).bufferId = (x p).page.bufferId := by
      rw [← view_page e, hv]
      rfl
    rw [ho.1.bufferId] at hb
    by_cases hd : (x p).page.isDirty = true
    · rw [if_pos hd] at hb
      simp only [unlinkPage, hb, PageView.orphaned, if_pos hd]
      have hm := ht.moves_modifyPage p (f := fun t => { t with locked := false }) rfl rfl
      rw [hv, ← view_page e, hv] at hm
      exact hm
    · rw [if_neg hd] at hb
      simp only [unlinkPage, hb, PageView.orphaned, if_neg hd]
      exact ht.moves_removeFree ho (by simpa using hd) hv

/-- `wrapfs_unlink` empties the radix trees; the dirty pages of the file are left where they are. -/
lemma Inv.wrapfsUnlink (hi : s.Inv e) (hs : s.wrapfsUnlink e v = .ok s') :
    ∃ pgs, Batch e (s.view e) (Owned e v) PageView.orphaned s' pgs ∧
      ∀ q, (s.view e q).tree .rdx = true → (s.pages q).pvd = some v → q ∈ pgs := by
  simp only [State.wrapfsUnlink] at hs
  set s₀ := s.modifyPvd v fun d => { d with duringUnlink := true } with hs₀
  have hk : Keeps e s s₀ := ⟨{ hi.placed with }, rfl⟩
  cases hc : State.clearRadix e v unlinkPage (s₀.treeSize e .rdx v) s₀ with
  | error err => simp [hc] at hs
  | ok s₁ =>
    obtain rfl : s₁.modifyPvd v (fun d => { d with isValid := false }) = s' := by
      simpa [hc] using hs
    obtain ⟨pgs, hcl⟩ := Batch.clearRadix hi.page (disposes_unlinkPage _) _
      (hi.placed.batch_nil.keeps hk) hc
    exact ⟨pgs, hcl.batch.keeps ⟨{ hcl.batch.placed with }, rfl⟩, fun q => hcl.complete⟩

/-- `wrapfs_unlink` returns when no page is locked. -/
lemma Inv.wrapfsUnlink_ok (hi : s.Inv e) (hl : ∀ p, (s.pages p).locked = false) (v : PvdId) :
    ∃ s', s.wrapfsUnlink e v = .ok s' := by
  simp only [State.wrapfsUnlink]
  set s₀ := s.modifyPvd v fun d => { d with duringUnlink := true } with hs₀
  have hk : Keeps e s s₀ := ⟨{ hi.placed with }, rfl⟩
  obtain ⟨s₁, hs₁⟩ := Batch.clearRadix_ok hi.page hl (disposes_unlinkPage _) _
    (hi.placed.batch_nil.keeps hk) (le_refl (s₀.treeSize e .rdx v))
  exact ⟨_, by rw [hs₁]⟩

end State

end FastMap
