import FastMap.Durability
import FastMap.Failures

/-!
# What a step leaves alone

Most of the steps of a call only move pages between queues and dirty trees, or take and release
page locks. Two parts of the state change rarely: the image, which is what the pages, the radix
trees and the device hold, and the chart, which is what maps the pages. `Pc.edits` lists the steps
that change the image, and `Pc.remaps` those that change the chart.
-/

namespace FastMap

variable {C : Type*}

/-- A page without its lock, its queue, its slots and its free list. -/
def TaggedPage.face (t : TaggedPage C) : TaggedPage C :=
  { t with rmap := fun _ => .reset, locked := false, bufferId := .biNone, cpuid := 0 }

/-- Neither read nor recorded anywhere. -/
def TaggedPage.Blank (t : TaggedPage C) : Prop :=
  t.pageValid = false ∧ ∀ j, (t.rmap j).valid = false

/-- The pages, the radix trees and the device. -/
structure Image (C : Type*) where
  face : PageId → TaggedPage C
  rdx : PvdId → ℕ → KeyMap Pgoff PageId
  disk : DevId × Pgoff → C
  bitmap : DevId × Pgoff → Bool
  pvds : PvdId → PrVmaData

/-- The next step is one of those that change the image. -/
def Pc.edits : Pc → Bool
  | .get _ .alloc => true
  | .get _ (.insert _) => true
  | .get _ (.rollback _) => true
  | .get _ (.io _) => true
  | .mkwrite _ _ .dirty => true
  | .purge _ (.delete _ _ _ _) => true
  | .purge _ (.free (_ :: _)) => true
  | .evict (.write _ _) => true
  | .evict (.insert _ _ (_ :: _)) => true
  | .sync _ (.enqueue _ _ _) => true
  | .sync _ (.write _ _) => true
  | _ => false

/-- The next step is one of those that change the chart. -/
def Pc.remaps : Pc → Bool
  | .get _ .alloc => true
  | .get _ (.rollback _) => true
  | .get _ (.done _) => true
  | .get _ (.map _) => true
  | .mkwrite _ _ .map => true
  | .purge _ (.unmap _ _ _ _) => true
  | .purge _ (.free (_ :: _)) => true
  | .evict (.clear _ _) => true
  | .sync _ (.clear _ _ _) => true
  | _ => false

/-- The page that the next step frees. -/
def Pc.frees : Pc → Option PageId
  | .get _ (.rollback p) => some p
  | .purge _ (.free (p :: _)) => some p
  | _ => none

namespace Pc

/-- The steps that change the image. -/
lemma edits_cases {pc : Pc} (h : pc.edits = true) :
    (∃ r, pc = .get r .alloc) ∨ (∃ r p, pc = .get r (.insert p)) ∨
    (∃ r p, pc = .get r (.rollback p)) ∨ (∃ r p, pc = .get r (.io p)) ∨
    (∃ r p, pc = .mkwrite r p .dirty) ∨ (∃ ret qid n pgs p, pc = .purge ret (.delete qid n pgs p)) ∨
    (∃ ret p pgs, pc = .purge ret (.free (p :: pgs))) ∨ (∃ v pgs, pc = .evict (.write v pgs)) ∨
    (∃ v done p todo, pc = .evict (.insert v done (p :: todo))) ∨
    (∃ a p h pgs, pc = .sync a (.enqueue p h pgs)) ∨ ∃ a h pgs, pc = .sync a (.write h pgs) := by
  unfold edits at h
  split at h <;> simp_all

/-- The steps that change the chart. -/
lemma remaps_cases {pc : Pc} (h : pc.remaps = true) :
    (∃ r, pc = .get r .alloc) ∨ (∃ r p, pc = .get r (.rollback p)) ∨
    (∃ r p, pc = .get r (.done p)) ∨ (∃ r p, pc = .get r (.map p)) ∨
    (∃ r p, pc = .mkwrite r p .map) ∨ (∃ ret qid n pgs p, pc = .purge ret (.unmap qid n pgs p)) ∨
    (∃ ret p pgs, pc = .purge ret (.free (p :: pgs))) ∨ (∃ v pgs, pc = .evict (.clear v pgs)) ∨
    ∃ a p h pgs, pc = .sync a (.clear p h pgs) := by
  unfold remaps at h
  split at h <;> simp_all

end Pc

namespace State

variable {e : Env C} {s s' : State C} {p q : PageId} {pc pc' : Pc}

def image (s : State C) : Image C where
  face p := (s.pages p).face
  rdx v cpu := s.trees ⟨.rdx, v, cpu⟩
  disk := s.disk
  bitmap := s.bitmap
  pvds := s.pvds

lemma face_of_image (h : s'.image = s.image) (p : PageId) :
    (s'.pages p).face = (s.pages p).face :=
  congrFun (congrArg Image.face h) p

lemma lookup_of_image (h : s'.image = s.image) (v : PvdId) (off : Pgoff) :
    s'.fmapRadixLookup e v off = s.fmapRadixLookup e v off :=
  congrArg (fun t : KeyMap Pgoff PageId => t.lookup off)
    (congrFun (congrFun (congrArg Image.rdx h) v) (off % e.ncpus))

/-! ### The image through the page operations -/

lemma image_of_update {t : TaggedPage C} (hp : s'.pages = Function.update s.pages p t)
    (ht : s'.trees = s.trees) (hd : s'.disk = s.disk) (hb : s'.bitmap = s.bitmap)
    (hv : s'.pvds = s.pvds) (hf : t.face = (s.pages p).face) : s'.image = s.image := by
  have hface : (fun q => (s'.pages q).face) = fun q => (s.pages q).face := by
    funext q
    by_cases hq : q = p
    · rw [hp, hq, Function.update_self, hf]
    · rw [hp, Function.update_of_ne hq]
  simp only [image, hface, ht, hd, hb, hv]

@[simp] lemma image_trylockTp (s : State C) (p : PageId) (i : Pgoff) :
    (s.trylockTp p i).2.image = s.image := by
  simp only [trylockTp]
  split_ifs
  · rfl
  · rfl
  · rfl
  · exact image_of_update (p := p) rfl rfl rfl rfl rfl rfl

@[simp] lemma image_unlockTp (s : State C) (p : PageId) : (s.unlockTp p).image = s.image :=
  image_of_update (p := p) rfl rfl rfl rfl rfl rfl

@[simp] lemma image_remove (s : State C) (q : Queue) (p : PageId) :
    (s.remove q p).image = s.image :=
  image_of_update (p := p) rfl rfl rfl rfl rfl rfl

@[simp] lemma image_enqueue (s : State C) (q : Queue) (p : PageId) :
    (s.enqueue q p).2.image = s.image := by
  simp only [enqueue]
  split_ifs
  · rfl
  · exact image_of_update (p := p) rfl rfl rfl rfl rfl rfl

lemma image_trees {T : TreeId → KeyMap Pgoff PageId} (h : ∀ v cpu, T ⟨.rdx, v, cpu⟩ =
    s.trees ⟨.rdx, v, cpu⟩) : ({ s with trees := T } : State C).image = s.image := by
  have hrdx : (fun v cpu => T ⟨.rdx, v, cpu⟩) = fun v cpu => s.trees ⟨.rdx, v, cpu⟩ :=
    funext fun v => funext fun cpu => h v cpu
  simp only [image, hrdx]

lemma image_treeErase (s : State C) (v : PvdId) (cpu : ℕ) (i : Pgoff) :
    (s.treeErase ⟨.dirty, v, cpu⟩ i).image = s.image :=
  image_trees fun _ _ => Function.update_of_ne (by simp) _ _

lemma image_treeInsert (s : State C) (v : PvdId) (i : Pgoff) (p : PageId) :
    (s.treeInsert e .dirty v i p).image = s.image :=
  image_trees fun _ _ => Function.update_of_ne (by simp) _ _

@[simp] lemma image_removeFromDirtyTree (s : State C) (p : PageId) :
    (s.removeFromDirtyTree e p).image = s.image := by
  simp only [removeFromDirtyTree]
  split
  · rfl
  · exact image_treeErase s _ _ _

lemma image_foldl {α : Type*} {f : State C → α → State C}
    (hf : ∀ s a, (f s a).image = s.image) (l : List α) (s : State C) :
    (l.foldl f s).image = s.image := by
  induction l generalizing s with
  | nil => rfl
  | cons a l ih => rw [List.foldl_cons, ih, hf]

@[simp] lemma image_clearMappings (s : State C) (p : PageId) :
    (s.clearMappings p).image = s.image := by
  refine image_foldl (fun s i => ?_) _ s
  dsimp only
  split_ifs
  · simp only [wrprotect]
    split
    · split_ifs <;> rfl
    · rfl
  · rfl

@[simp] lemma image_removeMappings (s : State C) (p : PageId) :
    (s.removeMappings p).image = s.image := by
  refine image_foldl (fun s i => ?_) _ s
  dsimp only
  split_ifs
  · have hz : ∀ r, (s.zapPage p r).image = s.image := by
      intro r
      simp only [zapPage]
      split
      · split_ifs <;> rfl
      · rfl
    rw [← hz ((s.pages p).rmap i)]
    exact image_of_update (p := p) rfl rfl rfl rfl rfl rfl
  · rfl

@[simp] lemma image_finishFault (s : State C) (vmf : VmFault) (p : PageId) :
    (s.finishFault vmf p).image = s.image := by
  simp only [finishFault, image_unlockTp]
  split_ifs <;> rfl

@[simp] lemma image_finishMkwrite (s : State C) (vmf : VmFault) (p : PageId) :
    (s.finishMkwrite vmf p).image = s.image := by
  simp only [finishMkwrite, image_unlockTp]
  split
  · split_ifs <;> rfl
  · rfl

lemma image_dmapAddOrUpdateRmap {vmf : VmFault} {cpu : ℕ}
    (h : s.dmapAddOrUpdateRmap vmf p cpu = .ok s') : s'.image = s.image := by
  simp only [dmapAddOrUpdateRmap] at h
  split at h
  · rw [Except.ok.inj h]
  · split at h
    · exact absurd h (by simp)
    · split at h
      · exact absurd h (by simp)
      · rw [← Except.ok.inj h]
        exact image_of_update (p := p) rfl rfl rfl rfl rfl rfl

lemma image_cond {cond : State C → PageId → Bool × State C} {K : State C → PageId → Prop}
    (hc : Locks cond K) (s : State C) (p : PageId) : (cond s p).2.image = s.image := by
  rcases hc s p with ht | ⟨ht, -⟩
  · rw [ht]
  · rw [ht]
    exact image_of_update (p := p) rfl rfl rfl rfl rfl rfl

lemma image_dequeueIf {cond : State C → PageId → Bool × State C} {K : State C → PageId → Prop}
    (hc : Locks cond K) (s : State C) (q : Queue) : (s.dequeueIf q cond).2.image = s.image := by
  simp only [dequeueIf]
  split_ifs
  · rfl
  · split
    · rfl
    · rename_i p _ _
      have h := image_cond hc s p
      split
      · rename_i heq
        rw [heq] at h
        exact (image_remove _ q p).trans h
      · rename_i heq
        rw [heq] at h
        exact h

lemma image_removeIf {cond : State C → PageId → Bool × State C} {K : State C → PageId → Prop}
    (hc : Locks cond K) (s : State C) (q : Queue) (p : PageId) :
    (s.removeIf q p cond).2.image = s.image := by
  have h := image_cond hc s p
  simp only [removeIf]
  split
  · rename_i heq
    rw [heq] at h
    exact (image_remove _ q p).trans h
  · rename_i heq
    rw [heq] at h
    exact h

lemma image_pullOnce {v : PvdId} {cpu : ℕ} {h h' : MinHeap} {b : Option Bool}
    (hs : s.pullOnce v cpu h = .ok (b, s', h')) : s'.image = s.image := by
  simp only [pullOnce] at hs
  split at hs
  · obtain ⟨-, rfl, -⟩ : _ ∧ s = s' ∧ _ := by simpa using hs
    rfl
  · rename_i k p _
    have ht := image_trylockTp s p ulongMax
    split at hs
    · rename_i s₁ heq
      rw [heq] at ht
      split at hs
      · exact absurd hs (by simp)
      · obtain ⟨-, rfl, -⟩ : _ ∧ _ = s' ∧ _ := by simpa using hs
        exact (image_treeErase _ _ _ _).trans ht
    · rename_i s₁ heq
      rw [heq] at ht
      obtain ⟨-, rfl, -⟩ : _ ∧ _ = s' ∧ _ := by simpa using hs
      exact ht

/-! ### The steps that leave the image alone -/

lemma image_stepGet {c : Choice C} {r : Req} {x : GetPc} (hx : (Pc.get r x).edits = false)
    (hs : s.stepGet e c r x = .ok (s', pc')) : s'.image = s.image := by
  cases x with
  | lookup =>
    simp only [stepGet] at hs
    split at hs
    all_goals rw [← (Prod.mk.inj (Except.ok.inj hs)).1]
  | alloc | insert p | rollback p | io p => simp [Pc.edits] at hx
  | fresh p =>
    rw [← (Prod.mk.inj (Except.ok.inj hs)).1]
    exact image_trylockTp _ _ _
  | enqueue p =>
    rw [← (Prod.mk.inj (Except.ok.inj hs)).1]
    exact image_enqueue _ _ _
  | lock p =>
    have hl := image_trylockTp s p ulongMax
    simp only [stepGet] at hs
    split at hs
    all_goals
      rename_i heq
      rw [heq] at hl
      rwa [← (Prod.mk.inj (Except.ok.inj hs)).1]
  | valid p =>
    simp only [stepGet] at hs
    split_ifs at hs
    rw [← (Prod.mk.inj (Except.ok.inj hs)).1]
  | done p =>
    simp only [stepGet] at hs
    obtain ⟨s₁, hr, hs⟩ := Except.map_eq_ok.mp hs
    rw [← (Prod.mk.inj hs).1]
    exact image_dmapAddOrUpdateRmap hr
  | map p =>
    rw [← (Prod.mk.inj (Except.ok.inj hs)).1]
    exact image_finishFault _ _ _

lemma image_stepMkwrite {r : Req} {x : MkPc} (hx : (Pc.mkwrite r p x).edits = false)
    (hs : s.stepMkwrite e r p x = .ok (s', pc')) : s'.image = s.image := by
  cases x with
  | lock =>
    have hl := image_trylockTp s p r.vmf.pgoff
    simp only [stepMkwrite] at hs
    split at hs
    all_goals
      rename_i heq
      rw [heq] at hl
      rwa [← (Prod.mk.inj (Except.ok.inj hs)).1]
  | dirty => simp [Pc.edits] at hx
  | insert =>
    rw [← (Prod.mk.inj (Except.ok.inj hs)).1]
    exact image_treeInsert _ _ _ _
  | remove | enqueue | map =>
    rw [← (Prod.mk.inj (Except.ok.inj hs)).1]
    simp

lemma image_stepPurge {ret : Option Req} {x : PurgePc} (hx : (Pc.purge ret x).edits = false)
    (hs : s.stepPurge e ret x = .ok (s', pc')) : s'.image = s.image := by
  cases x with
  | take qid n pgs =>
    cases n with
    | zero => rw [← (Prod.mk.inj (Except.ok.inj hs)).1]
    | succ n =>
      have hd := image_dequeueIf locks_deq s (.clean qid)
      simp only [stepPurge] at hs
      split at hs
      all_goals
        rename_i heq
        rw [heq] at hd
        rwa [← (Prod.mk.inj (Except.ok.inj hs)).1]
  | delete qid n pgs p => simp [Pc.edits] at hx
  | unmap qid n pgs p =>
    rw [← (Prod.mk.inj (Except.ok.inj hs)).1]
    exact image_removeMappings _ _
  | free pgs =>
    cases pgs with
    | nil => rw [← (Prod.mk.inj (Except.ok.inj hs)).1]
    | cons p pgs => simp [Pc.edits] at hx

lemma image_stepEvict {x : EvictPc} (hx : (Pc.evict x).edits = false)
    (hs : s.stepEvict e x = .ok (s', pc')) : s'.image = s.image := by
  cases x with
  | take id =>
    have hd := image_dequeueIf locks_evDeq s (.dirty id)
    simp only [stepEvict] at hs
    split at hs
    all_goals
      rename_i heq
      rw [heq] at hd
      rwa [← (Prod.mk.inj (Except.ok.inj hs)).1]
  | untree id p =>
    simp only [stepEvict] at hs
    split at hs
    · exact absurd hs (by simp)
    · rw [← (Prod.mk.inj (Except.ok.inj hs)).1]
      simp
  | scan c =>
    simp only [stepEvict] at hs
    split_ifs at hs
    · rw [← (Prod.mk.inj (Except.ok.inj hs)).1]
    · split at hs
      · rw [← (Prod.mk.inj (Except.ok.inj hs)).1]
      · rw [← (Prod.mk.inj (Except.ok.inj hs)).1]
        exact image_treeErase _ _ _ _
  | grab c q =>
    have hd := image_removeIf locks_evDeq s (.dirty c.id) q
    simp only [stepEvict] at hs
    split at hs
    all_goals
      rename_i heq
      rw [heq] at hd
      rwa [← (Prod.mk.inj (Except.ok.inj hs)).1]
  | back c q =>
    rw [← (Prod.mk.inj (Except.ok.inj hs)).1]
    exact image_treeInsert _ _ _ _
  | clear v pgs =>
    rw [← (Prod.mk.inj (Except.ok.inj hs)).1]
    exact image_foldl image_clearMappings pgs s
  | write v pgs => simp [Pc.edits] at hx
  | insert v done todo =>
    cases todo with
    | nil => rw [← (Prod.mk.inj (Except.ok.inj hs)).1]
    | cons p todo => simp [Pc.edits] at hx
  | unlock todo =>
    cases todo with
    | nil => rw [← (Prod.mk.inj (Except.ok.inj hs)).1]
    | cons p todo =>
      rw [← (Prod.mk.inj (Except.ok.inj hs)).1]
      exact image_unlockTp _ _

/-- A sync also keeps its batch, apart from the steps that add to it and write it. -/
lemma image_stepSync {a : SyncArgs} {x : SyncPc} (hx : (Pc.sync a x).edits = false)
    (hs : s.stepSync e a x = .ok (s', pc')) :
    s'.image = s.image ∧ pc'.batch = (Pc.sync a x).batch := by
  cases x with
  | fill cpus h =>
    cases cpus with
    | nil =>
      obtain ⟨rfl, rfl⟩ := Prod.mk.inj (Except.ok.inj hs)
      exact ⟨rfl, rfl⟩
    | cons cpu cpus =>
      obtain ⟨b, h', hpull, rfl⟩ := stepSync_fill_cons hs
      exact ⟨image_pullOnce hpull, rfl⟩
  | min h pgs =>
    simp only [stepSync] at hs
    split_ifs at hs with h0 hpgs
    · obtain ⟨rfl, rfl⟩ := Prod.mk.inj (Except.ok.inj hs)
      exact ⟨rfl, hpgs.symm⟩
    · obtain ⟨rfl, rfl⟩ := Prod.mk.inj (Except.ok.inj hs)
      exact ⟨rfl, rfl⟩
    · obtain ⟨rfl, rfl⟩ := Prod.mk.inj (Except.ok.inj hs)
      exact ⟨rfl, rfl⟩
  | pull n h pgs =>
    obtain ⟨b, h', hpull, rfl⟩ := stepSync_pull hs
    refine ⟨image_pullOnce hpull, ?_⟩
    split_ifs
    · rfl
    · unfold startCleanup
      split <;> rfl
  | clear p h pgs | remove p h pgs =>
    obtain ⟨rfl, rfl⟩ := Prod.mk.inj (Except.ok.inj hs)
    exact ⟨by simp, rfl⟩
  | enqueue p h pgs | write h pgs => simp [Pc.edits] at hx
  | unlock h todo =>
    cases todo
    all_goals
      obtain ⟨rfl, rfl⟩ := Prod.mk.inj (Except.ok.inj hs)
      exact ⟨by simp, rfl⟩

/-- Only a sync has a batch. -/
lemma batch_of_not_syncs (h : ¬ pc.Syncs) : pc.batch = [] := by
  cases pc with
  | sync a x => exact absurd ⟨a, x, rfl⟩ h
  | _ => rfl

lemma image_stepThread {c : Choice C} (hq : pc.edits = false)
    (hs : s.stepThread e c pc = .ok (s', pc')) : s'.image = s.image ∧ pc'.batch = pc.batch := by
  by_cases hsync : pc.Syncs
  · obtain ⟨a, x, rfl⟩ := hsync
    exact image_stepSync hq hs
  · refine ⟨?_, ?_⟩
    · cases pc with
      | idle => exact absurd hs (by simp [stepThread])
      | get r x => exact image_stepGet hq hs
      | mkwrite r p x => exact image_stepMkwrite hq hs
      | purge ret x => exact image_stepPurge hq hs
      | evict x => exact image_stepEvict hq hs
      | sync a x => exact absurd ⟨a, x, rfl⟩ hsync
    · rw [batch_of_not_syncs hsync, batch_of_not_syncs (not_syncs_stepThread hs hsync)]

/-! ### The steps that leave the chart alone -/

lemma chart_stepGet {c : Choice C} {r : Req} {x : GetPc} (hx : (Pc.get r x).remaps = false)
    (hs : s.stepGet e c r x = .ok (s', pc')) : s'.chart = s.chart := by
  cases x with
  | alloc | rollback p | done p | map p => simp [Pc.remaps] at hx
  | lookup =>
    simp only [stepGet] at hs
    split at hs
    all_goals rw [← (Prod.mk.inj (Except.ok.inj hs)).1]
  | insert p =>
    simp only [stepGet, fmapRadixInsert] at hs
    split at hs
    all_goals
      rename_i heq
      rw [← (Prod.mk.inj (Except.ok.inj hs)).1, ← (Prod.mk.inj heq).2, chart_treeInsert]
  | lock p =>
    have hl := chart_trylockTp s p ulongMax
    simp only [stepGet] at hs
    split at hs
    all_goals
      rename_i heq
      rw [heq] at hl
      rwa [← (Prod.mk.inj (Except.ok.inj hs)).1]
  | valid p =>
    simp only [stepGet] at hs
    split_ifs at hs
    rw [← (Prod.mk.inj (Except.ok.inj hs)).1]
  | fresh p | enqueue p | io p =>
    rw [← (Prod.mk.inj (Except.ok.inj hs)).1]
    simp

lemma chart_stepMkwrite {r : Req} {x : MkPc} (hx : (Pc.mkwrite r p x).remaps = false)
    (hs : s.stepMkwrite e r p x = .ok (s', pc')) : s'.chart = s.chart := by
  cases x with
  | lock =>
    have hl := chart_trylockTp s p r.vmf.pgoff
    simp only [stepMkwrite] at hs
    split at hs
    all_goals
      rename_i heq
      rw [heq] at hl
      rwa [← (Prod.mk.inj (Except.ok.inj hs)).1]
  | dirty =>
    simp only [stepMkwrite] at hs
    split_ifs at hs
    · rw [← (Prod.mk.inj (Except.ok.inj hs)).1]
    · rw [← (Prod.mk.inj (Except.ok.inj hs)).1, chart_setDirty]
  | insert | remove | enqueue =>
    rw [← (Prod.mk.inj (Except.ok.inj hs)).1]
    simp
  | map => simp [Pc.remaps] at hx

lemma chart_stepPurge {ret : Option Req} {x : PurgePc} (hx : (Pc.purge ret x).remaps = false)
    (hs : s.stepPurge e ret x = .ok (s', pc')) : s'.chart = s.chart := by
  cases x with
  | take qid n pgs =>
    cases n with
    | zero => rw [← (Prod.mk.inj (Except.ok.inj hs)).1]
    | succ n =>
      have hd := chart_dequeueIf s (.clean qid) chart_deq
      simp only [stepPurge] at hs
      split at hs
      all_goals
        rename_i heq
        rw [heq] at hd
        rwa [← (Prod.mk.inj (Except.ok.inj hs)).1]
  | delete qid n pgs p =>
    simp only [stepPurge] at hs
    split at hs
    · exact absurd hs (by simp)
    · rw [← (Prod.mk.inj (Except.ok.inj hs)).1, chart_treeErase]
  | unmap qid n pgs p => simp [Pc.remaps] at hx
  | free pgs =>
    cases pgs with
    | nil => rw [← (Prod.mk.inj (Except.ok.inj hs)).1]
    | cons p pgs => simp [Pc.remaps] at hx

lemma chart_stepEvict {x : EvictPc} (hx : (Pc.evict x).remaps = false)
    (hs : s.stepEvict e x = .ok (s', pc')) : s'.chart = s.chart := by
  cases x with
  | take id =>
    have hd := chart_dequeueIf s (.dirty id) chart_evDeq
    simp only [stepEvict] at hs
    split at hs
    all_goals
      rename_i heq
      rw [heq] at hd
      rwa [← (Prod.mk.inj (Except.ok.inj hs)).1]
  | untree id p =>
    simp only [stepEvict] at hs
    split at hs
    · exact absurd hs (by simp)
    · rw [← (Prod.mk.inj (Except.ok.inj hs)).1, chart_removeFromDirtyTree]
  | scan c =>
    simp only [stepEvict] at hs
    split_ifs at hs
    · rw [← (Prod.mk.inj (Except.ok.inj hs)).1]
    · split at hs
      · rw [← (Prod.mk.inj (Except.ok.inj hs)).1]
      · rw [← (Prod.mk.inj (Except.ok.inj hs)).1, chart_treeErase]
  | grab c q =>
    have hd := chart_removeIf s (.dirty c.id) q chart_evDeq
    simp only [stepEvict] at hs
    split at hs
    all_goals
      rename_i heq
      rw [heq] at hd
      rwa [← (Prod.mk.inj (Except.ok.inj hs)).1]
  | clear v pgs => simp [Pc.remaps] at hx
  | back c q | write v pgs =>
    rw [← (Prod.mk.inj (Except.ok.inj hs)).1]
    simp
  | insert v done todo | unlock todo =>
    cases todo with
    | nil => rw [← (Prod.mk.inj (Except.ok.inj hs)).1]
    | cons p todo =>
      rw [← (Prod.mk.inj (Except.ok.inj hs)).1]
      simp

lemma chart_stepSync {a : SyncArgs} {x : SyncPc} (hx : (Pc.sync a x).remaps = false)
    (hs : s.stepSync e a x = .ok (s', pc')) : s'.chart = s.chart := by
  cases x with
  | fill cpus h =>
    cases cpus with
    | nil => rw [← (Prod.mk.inj (Except.ok.inj hs)).1]
    | cons cpu cpus =>
      obtain ⟨b, h', hpull, -⟩ := stepSync_fill_cons hs
      exact chart_pullOnce hpull
  | min h pgs =>
    simp only [stepSync] at hs
    split_ifs at hs
    all_goals rw [← (Prod.mk.inj (Except.ok.inj hs)).1]
  | pull n h pgs =>
    obtain ⟨b, h', hpull, -⟩ := stepSync_pull hs
    exact chart_pullOnce hpull
  | clear p h pgs => simp [Pc.remaps] at hx
  | enqueue p h pgs =>
    simp only [stepSync] at hs
    split_ifs at hs
    all_goals
      rw [← (Prod.mk.inj (Except.ok.inj hs)).1]
      simp
  | remove p h pgs | write h pgs =>
    rw [← (Prod.mk.inj (Except.ok.inj hs)).1]
    simp
  | unlock h todo =>
    cases todo with
    | nil => rw [← (Prod.mk.inj (Except.ok.inj hs)).1]
    | cons p todo =>
      rw [← (Prod.mk.inj (Except.ok.inj hs)).1]
      simp

lemma chart_stepThread {c : Choice C} (hq : pc.remaps = false)
    (hs : s.stepThread e c pc = .ok (s', pc')) : s'.chart = s.chart := by
  cases pc with
  | idle => exact absurd hs (by simp [stepThread])
  | get r x => exact chart_stepGet hq hs
  | mkwrite r p x => exact chart_stepMkwrite hq hs
  | purge ret x => exact chart_stepPurge hq hs
  | evict x => exact chart_stepEvict hq hs
  | sync a x => exact chart_stepSync hq hs

/-! ### The steps that change a page -/

/-- `alloc_page_lock` hands out a blank page and leaves the others as they were. -/
lemma allocPageLock_frame {node : ℕ} {i : Pgoff} {v : PvdId} {x : Option PageId}
    (h : s.allocPageLock e node i v = (x, s')) :
    s'.pte = s.pte ∧ (∀ v off, s'.fmapRadixLookup e v off = s.fmapRadixLookup e v off) ∧
      ∀ q, (x = some q → (s'.pages q).Blank ∧ (s'.pages q).isDirty = false) ∧
        (x ≠ some q → (s'.pages q).face = (s.pages q).face ∧
          (s'.pages q).rmap = (s.pages q).rmap) := by
  have hscan : (s.scanNodes e (e.numaDv node) none).2.image = s.image ∧
      (s.scanNodes e (e.numaDv node) none).2.chart = s.chart :=
    scanNodes_rule (R := fun s s' => s'.image = s.image ∧ s'.chart = s.chart)
      (fun _ => ⟨rfl, rfl⟩) (fun h h' => ⟨h'.1.trans h.1, h'.2.trans h.2⟩)
      (fun _ _ p _ => ⟨image_of_update (p := p) rfl rfl rfl rfl rfl rfl,
        chart_of_update (p := p) rfl rfl rfl rfl rfl rfl rfl rfl⟩) e s _ _
  have hsame : ∀ s₁ : State C, s₁.image = s.image ∧ s₁.chart = s.chart → s₁.pte = s.pte ∧
      (∀ v off, s₁.fmapRadixLookup e v off = s.fmapRadixLookup e v off) ∧
      ∀ q, (s₁.pages q).face = (s.pages q).face ∧ (s₁.pages q).rmap = (s.pages q).rmap :=
    fun s₁ h => ⟨congrArg Chart.pte h.2, lookup_of_image h.1, fun q =>
      ⟨face_of_image h.1 q, rmap_of_chart h.2 q⟩⟩
  simp only [allocPageLock] at h
  split at h
  · rename_i s₁ heq
    rw [heq] at hscan
    obtain ⟨rfl, rfl⟩ := Prod.mk.inj h
    obtain ⟨hpte, htree, hpages⟩ := hsame _ hscan
    exact ⟨hpte, htree, fun q => ⟨fun hq => absurd hq (by simp), fun _ => hpages q⟩⟩
  · rename_i p s₁ heq
    rw [heq] at hscan
    obtain ⟨rfl, rfl⟩ := Prod.mk.inj h
    obtain ⟨hpte, htree, hpages⟩ := hsame _ hscan
    refine ⟨hpte, htree, fun q => ⟨fun hq => ?_, fun hq => ?_⟩⟩
    · obtain rfl := Option.some.inj hq
      simp [TaggedPage.Blank, modifyPage, PrVmaRmap.reset]
    · have hqp : q ≠ p := fun hqp => hq (by rw [hqp])
      simpa [modifyPage, hqp] using hpages q

lemma pages_freePageLock (hq : q ≠ p) : (s.freePageLock p).pages q = s.pages q := by
  simp [freePageLock, freeLink, unlockTp, freeClear, modifyPage, hq]

lemma blank_freePageLock :
    ((s.freePageLock p).pages p).Blank ∧ ((s.freePageLock p).pages p).isDirty = false := by
  simp [TaggedPage.Blank, freePageLock, freeLink, unlockTp, freeClear, modifyPage,
    PrVmaRmap.reset]

/-- What a step does to a page, apart from its lock, its queue and its slots. -/
inductive Edit (pc pc' : Pc) (q : PageId) (a : TaggedPage C) : TaggedPage C → Prop
  | same {b : TaggedPage C} : b.face = a.face → Edit pc pc' q a b
  | alloc {b : TaggedPage C} {r : Req} : pc = .get r .alloc → pc' = .get r (.fresh q) → b.Blank →
      b.isDirty = false → Edit pc pc' q a b
  | free {b : TaggedPage C} : pc.frees = some q → b.Blank → b.isDirty = false → Edit pc pc' q a b
  | read {b : TaggedPage C} {r : Req} {c : C} : pc = .get r (.io q) →
      b.face = { a.face with content := c, pageValid := true } → Edit pc pc' q a b
  | mark {b : TaggedPage C} {r : Req} : pc = .mkwrite r q .dirty →
      b.face = { a.face with isDirty := true } → Edit pc pc' q a b
  | clean {b : TaggedPage C} : pc.cleans = some q → b.face = { a.face with isDirty := false } →
      Edit pc pc' q a b

lemma pages_dmapDoPageIo_of_ne {v : PvdId} {i : Pgoff} {r : ReadResult C} (hq : q ≠ p) :
    (s.dmapDoPageIo v i p r).pages q = s.pages q := by
  have hread : ∀ d, (s.readPage d i p r).pages q = s.pages q := fun d =>
    Function.update_of_ne hq _ _
  have hfake : (s.readOrFake v i p r).pages q = s.pages q := by
    simp only [readOrFake]
    split
    · split_ifs
      · exact hread _
      · rfl
    · exact hread _
  simp only [dmapDoPageIo]
  refine (Function.update_of_ne hq _ _).trans ?_
  split_ifs
  · rfl
  · exact hfake

lemma face_dmapDoPageIo (v : PvdId) (i : Pgoff) (r : ReadResult C) : ∃ c,
    ((s.dmapDoPageIo v i p r).pages p).face =
      { (s.pages p).face with content := c, pageValid := true } := by
  have hread : ∀ d, ∃ c, (s.readPage d i p r).pages p = { s.pages p with content := c } := fun d =>
    ⟨_, Function.update_self _ _ _⟩
  have hfake : ∃ c, (s.readOrFake v i p r).pages p = { s.pages p with content := c } := by
    simp only [readOrFake]
    split
    · split_ifs
      · exact hread _
      · exact ⟨_, rfl⟩
    · exact hread _
  simp only [dmapDoPageIo, modifyPage, Function.update_self]
  split_ifs
  · exact ⟨_, rfl⟩
  · obtain ⟨c, hc⟩ := hfake
    exact ⟨c, by rw [hc]; rfl⟩

lemma face_setDirty (s : State C) (p : PageId) (b : Bool) :
    ((s.setDirty p b).pages p).face = { (s.pages p).face with isDirty := b } := by
  simp [setDirty, modifyPage, TaggedPage.face]

lemma pages_setDirty (s : State C) (b : Bool) (hq : q ≠ p) :
    (s.setDirty p b).pages q = s.pages q :=
  Function.update_of_ne hq _ _

/-- A page joins its clean queue and is marked clean. -/
lemma edit_cleaned {s₁ : State C} (hc : pc.cleans = some p) (h : s₁.image = s.image) (q : PageId) :
    Edit pc pc' q (s.pages q) ((s₁.setDirty p false).pages q) := by
  by_cases hq : q = p
  · subst hq
    refine .clean hc ?_
    rw [face_setDirty, face_of_image h]
  · refine .same ?_
    rw [pages_setDirty s₁ false hq, face_of_image h]

lemma edit_stepThread {c : Choice C} (hs : s.stepThread e c pc = .ok (s', pc')) (q : PageId) :
    Edit pc pc' q (s.pages q) (s'.pages q) := by
  cases hm : pc.edits with
  | false => exact .same (face_of_image (image_stepThread hm hs).1 q)
  | true =>
    rcases Pc.edits_cases hm with ⟨r, rfl⟩ | ⟨r, p, rfl⟩ | ⟨r, p, rfl⟩ | ⟨r, p, rfl⟩ | ⟨r, p, rfl⟩ |
      ⟨ret, qid, n, pgs, p, rfl⟩ | ⟨ret, p, pgs, rfl⟩ | ⟨v, pgs, rfl⟩ | ⟨v, done, p, todo, rfl⟩ |
      ⟨a, p, h, pgs, rfl⟩ | ⟨a, h, pgs, rfl⟩
    · simp only [stepThread, stepGet] at hs
      split at hs
      all_goals
        rename_i heq
        obtain ⟨rfl, rfl⟩ := Prod.mk.inj (Except.ok.inj hs)
        obtain ⟨-, -, hpages⟩ := allocPageLock_frame heq
      · exact .same ((hpages q).2 (by simp)).1
      · rename_i p _
        by_cases hq : p = q
        · obtain ⟨hb, hd⟩ := (hpages q).1 (by rw [hq])
          exact .alloc rfl (by rw [hq]) hb hd
        · exact .same ((hpages q).2 (by simpa using hq)).1
    · simp only [stepThread, stepGet, fmapRadixInsert] at hs
      split at hs
      all_goals
        rename_i heq
        rw [← (Prod.mk.inj (Except.ok.inj hs)).1, ← (Prod.mk.inj heq).2]
        exact .same rfl
    · rw [← (Prod.mk.inj (Except.ok.inj hs)).1]
      by_cases hq : q = p
      · subst hq
        exact .free rfl blank_freePageLock.1 blank_freePageLock.2
      · exact .same (by rw [pages_freePageLock hq])
    · rw [← (Prod.mk.inj (Except.ok.inj hs)).1]
      by_cases hq : q = p
      · subst hq
        obtain ⟨d, hd⟩ := face_dmapDoPageIo (s := s) (p := q) r.pvd r.vmf.pgoff c.read
        exact .read rfl hd
      · exact .same (by rw [pages_dmapDoPageIo_of_ne hq])
    · simp only [stepThread, stepMkwrite] at hs
      split_ifs at hs
      · rw [← (Prod.mk.inj (Except.ok.inj hs)).1]
        exact .same rfl
      · rw [← (Prod.mk.inj (Except.ok.inj hs)).1]
        by_cases hq : q = p
        · subst hq
          exact .mark rfl (face_setDirty s q true)
        · exact .same (by rw [pages_setDirty s true hq])
    · simp only [stepThread, stepPurge] at hs
      split at hs
      · exact absurd hs (by simp)
      · rw [← (Prod.mk.inj (Except.ok.inj hs)).1]
        exact .same rfl
    · rw [← (Prod.mk.inj (Except.ok.inj hs)).1]
      by_cases hq : q = p
      · subst hq
        exact .free rfl blank_freePageLock.1 blank_freePageLock.2
      · exact .same (by rw [pages_freePageLock hq])
    · rw [← (Prod.mk.inj (Except.ok.inj hs)).1]
      exact .same rfl
    · rw [← (Prod.mk.inj (Except.ok.inj hs)).1]
      exact edit_cleaned rfl (image_enqueue s _ p) q
    · simp only [stepThread, stepSync] at hs
      split_ifs at hs
      all_goals
        rw [← (Prod.mk.inj (Except.ok.inj hs)).1]
        exact edit_cleaned rfl (image_enqueue s _ p) q
    · rw [← (Prod.mk.inj (Except.ok.inj hs)).1]
      exact .same rfl

end State

end FastMap
