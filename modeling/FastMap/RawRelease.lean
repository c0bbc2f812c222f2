import FastMap.Custody
import FastMap.KWayMerge

/-!
# Closing a raw device

`raw_release` merges the dirty trees of the pvd into the batch writer and then takes one page after
another out of its radix trees, starting from the first tree each time. From a state between calls
it returns, and what is left behind is the buffer without the pages of the pvd.
-/

namespace FastMap

variable {C : Type*}

namespace State

variable {e : Env C} {s s' : State C} {v : PvdId} {p : PageId}

/-- Between calls the dirty trees can be merged. -/
lemma Quiet.mergeable (h : s.Quiet e) (v : PvdId) : s.Mergeable e v := by
  constructor
  · intro cpu k p _ hl
    have htree : (s.view e p).tree .dirty = true := h.placed.tree_of_lookup hl
    have hres : Resident e p (s.view e p) := .of_dirtyTree (h.inv.page p) htree
    exact ⟨(h.placed.tree_own hl).2.2, hres.inUse, (h.page p).unlocked⟩
  · intro cpu cpu' k p p' _ _ hl hl'
    exact (h.placed.tree_own hl).1.trans (h.placed.tree_own hl').1.symm

/-- `raw_release` returns. -/
lemma Quiet.rawRelease_ok (h : s.Quiet e) (hfits : (s.busyCpus e v).card ≤ maxCpus) :
    ∃ s', s.rawRelease e v = .ok s' := by
  obtain ⟨s₁, hw, -⟩ := (h.mergeable v).writeDirtyPages hfits .release
  have hl := h.inv.writeDirtyPages hw
  have hunlocked : ∀ p, (s₁.view e p).page.locked = false := by
    intro p
    rw [hl.batch.view_eq]
    split_ifs
    · rw [PageView.synced_page]
      rfl
    · exact (h.page p).unlocked
  obtain ⟨s', hs⟩ := Batch.clearRadix_ok (h.inv.drained hl).page hunlocked hl.disposes _
    hl.batch.placed.batch_nil (le_refl (s₁.treeSize e .rdx v))
  exact ⟨s', by simp only [State.rawRelease, hw, hs]⟩

/-- What a `raw_release` leaves behind. -/
structure Released (e : Env C) (v : PvdId) (s s' : State C) : Prop where
  empty (k : TreeKind) (cpu : ℕ) : (s'.trees ⟨k, v, cpu⟩).size = 0
  freed {p : PageId} : (s.pages p).OwnedBy v → p ∈ s'.fl (e.home p) ∧
    (s'.pages p).inUse = false ∧ (s'.pages p).bufferId = .biNone
  /-- The batches are those that the writer is given in the merge of the dirty trees. -/
  merged : ∃ s₁, s.writeDirtyPages e .release v = .ok s₁ ∧ SyncMerges e .release v s s₁
  written {p : PageId} : (s.pages p).OwnedBy v → (s.pages p).isDirty = true →
    (s.syncBatches e .release v).flatten.count p = 1
  queue_size (q : Queue) : (s'.queues q).size = (s'.queues q).buffer.length
  other {p : PageId} : ¬ (s.pages p).OwnedBy v → s'.view e p = s.view e p

/-- A cached page. -/
lemma Inv.resident_of_inUse (h : s.Inv e) (hu : (s.pages p).inUse = true) :
    Resident e p (s.view e p) := by
  apply (h.page p).resolve_left
  intro hi
  exact Bool.false_ne_true (hi.inUse.symm.trans hu)

/-- The write-back leaves the pages of the pvd with it. -/
lemma Drained.ownedBy_iff {bs : List (List PageId)} (h : Drained e .release v (s.view e) s s' bs) :
    (s'.pages p).OwnedBy v ↔ (s.pages p).OwnedBy v := by
  by_cases hp : p ∈ bs.flatten
  · have hpage : s'.pages p = (s.view e p).cleaned.page := by
      rw [← view_page e, h.batch.view_of_mem hp, PageView.synced_page]
    rw [hpage]
    rfl
  · rw [h.batch.pages_of_not_mem hp]

lemma Quiet.released (h : s.Quiet e) (hfits : (s.busyCpus e v).card ≤ maxCpus)
    (hs : s.rawRelease e v = .ok s') : Released e v s s' := by
  obtain ⟨s₁, pgs, hw, hl, hc⟩ := h.inv.rawRelease hs
  have hinv₁ : s₁.Inv e := h.inv.drained hl
  have hplaced : s'.Placed e := (h.rawRelease hs).placed
  have hmem : ∀ {p}, (s.pages p).OwnedBy v → p ∈ pgs := by
    intro p hp
    have hp₁ := hl.ownedBy_iff.mpr hp
    exact hc.complete (hinv₁.resident_of_inUse hp₁.1).cached hp₁.2
  have hnot : ∀ {p}, ¬ (s.pages p).OwnedBy v → p ∉ pgs := by
    intro p hp hm
    have ho := hc.batch.all hm
    exact hp (hl.ownedBy_iff.mp ⟨ho.1.inUse, ho.2.1⟩)
  constructor
  · intro k cpu
    rw [KeyMap.size_eq_zero]
    cases hf : (s'.trees ⟨k, v, cpu⟩).first? with
    | none => rfl
    | some a =>
      obtain ⟨i, p⟩ := a
      have hlook := KeyMap.lookup_of_first? hf
      have hv : (s'.pages p).pvd = some v := (hplaced.tree_own hlook).2.1
      have htree : (s'.view e p).tree k = true := hplaced.tree_of_lookup hlook
      -- a page that has been disposed of has no pvd, and no other page of the pvd is in a tree
      by_cases hp : p ∈ pgs
      · rw [← view_page e, hc.batch.view_of_mem hp] at hv
        exact absurd hv (by simp [PageView.dropped, PageView.freed])
      · rw [hc.batch.view_of_not_mem hp] at htree
        rw [hc.batch.pages_of_not_mem hp] at hv
        have hres : Resident e p (s₁.view e p) := by
          apply (hinv₁.page p).resolve_left
          intro hi
          exact Bool.false_ne_true ((hi.unlinked.tree k).symm.trans htree)
        exact absurd (hc.complete hres.cached hv) hp
  · intro p hp
    have hview := hc.batch.view_of_mem (hmem hp)
    refine ⟨?_, ?_, ?_⟩
    · rw [← view_free, hview]
      rfl
    · rw [← view_page e, hview]
      rfl
    · rw [← view_page e, hview]
      rfl
  · exact (h.mergeable v).writeDirtyPages hfits .release
  · intro p hp hd
    have htree : (s.view e p).tree .dirty = true := by
      rw [(h.inv.resident_of_inUse hp.1).tree]
      exact hd
    exact List.count_eq_one_of_mem hl.batch.nodup (hl.complete htree hp.2)
  · exact hplaced.queue_size
  · intro p hp
    have hbatch : p ∉ (s.syncBatches e .release v).flatten := by
      intro hm
      have ho := hl.batch.all hm
      exact hp ⟨ho.1.inUse, ho.2.2.2⟩
    rw [hc.batch.view_of_not_mem (hnot hp), hl.batch.view_of_not_mem hbatch]

/-- Two dirty pages and a clean page of the device, from the lists of both processors, and a dirty
page of another. -/
def twoDevicesCached : List (Op ℕ) :=
  [.fault 0 0 smallFault, .mkwrite 0 0, .fault 0 2 smallFault, .fault 1 0 smallFault, .mkwrite 1 0,
    .fault 0 3 smallFault, .mkwrite 0 3]

end State

end FastMap
