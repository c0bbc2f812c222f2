import FastMap.System

/-!
# Pages of a deleted file

`wrapfs_unlink` frees the pvd of a file when its last link goes. A clean page of the file is freed
with it. A dirty page only leaves the radix tree: it stays in use, in its dirty queue and in the
dirty tree, and still points to the pvd. The loop of `raw_release` has the branch that is missing
here.
-/

namespace FastMap

variable {C : Type*}

namespace State

/-- After a file is gone: nothing the buffer works with refers to its pvd, its pages are back on
their free lists, and no other page has changed. -/
structure NoPageOutlives (e : Env C) (v : PvdId) (s s' : State C) : Prop where
  in_use (p : PageId) : (s'.pages p).inUse = true → (s'.pages p).pvd ≠ some v
  in_queue (p : PageId) (q : Queue) : p ∈ (s'.queues q).buffer → (s'.pages p).pvd ≠ some v
  in_tree (p : PageId) (w : PvdId) (cpu : ℕ) (i : Pgoff) :
    (s'.trees ⟨.dirty, w, cpu⟩).lookup i = some p → (s'.pages p).pvd ≠ some v
  freed (p : PageId) : (s.pages p).inUse = true → (s.pages p).pvd = some v →
    p ∈ s'.fl (e.home p)
  others (p : PageId) : ¬ ((s.pages p).inUse = true ∧ (s.pages p).pvd = some v) →
    s'.view e p = s.view e p

variable {e : Env C} {s s' : State C} {v : PvdId} {p : PageId} {pgs : List PageId}

/-- The pages that an unlink disposes of are those in use for the file. -/
lemma Inv.mem_owned (h : s.Inv e) {g : PageView C → PageView C}
    (hb : Batch e (s.view e) (Owned e v) g s' pgs)
    (hc : ∀ q, (s.view e q).tree .rdx = true → (s.pages q).pvd = some v → q ∈ pgs) :
    p ∈ pgs ↔ (s.pages p).inUse = true ∧ (s.pages p).pvd = some v := by
  constructor
  · intro hp
    have ho := hb.all hp
    exact ⟨ho.1.inUse, ho.2.1⟩
  · rintro ⟨hu, hv⟩
    have hr : Resident e p (s.view e p) :=
      (h.page p).resolve_left fun hi => Bool.false_ne_true (hi.inUse.symm.trans hu)
    exact hc p hr.cached hv

lemma orphaned_of_clean {x : PageView C} (h : x.page.isDirty = false) : x.orphaned = x.dropped := by
  simp [PageView.orphaned, h]

/-- With no dirty page of the file, nothing is left of it. -/
lemma Inv.noPageOutlives (h : s.Inv e)
    (hb : Batch e (s.view e) (Owned e v) PageView.orphaned s' pgs)
    (hc : ∀ q, (s.view e q).tree .rdx = true → (s.pages q).pvd = some v → q ∈ pgs)
    (hd : ∀ p, (s.pages p).inUse = true → (s.pages p).pvd = some v →
      (s.pages p).isDirty = false) : NoPageOutlives e v s s' := by
  have hview : ∀ p, p ∈ pgs → s'.view e p = (s.view e p).dropped := by
    intro p hp
    obtain ⟨hu, hv⟩ := (h.mem_owned hb hc).mp hp
    rw [hb.view_of_mem hp, orphaned_of_clean (hd p hu hv)]
  -- a page that refers to the pvd was neither in use nor linked before
  have hpvd : ∀ p, (s'.pages p).pvd = some v → Idle (s'.view e p) := by
    intro p hv
    have hp : p ∉ pgs := by
      intro hp
      rw [← view_page e, hview p hp] at hv
      simp [PageView.dropped, PageView.freed] at hv
    rw [hb.view_of_not_mem hp]
    rw [← view_page e, hb.view_of_not_mem hp] at hv
    refine (h.page p).resolve_right fun hr => ?_
    exact hp ((h.mem_owned hb hc).mpr ⟨hr.inUse, hv⟩)
  constructor
  · intro p hu hv
    exact Bool.false_ne_true ((hpvd p hv).inUse.symm.trans hu)
  · intro p q hq hv
    have hi := hpvd p hv
    exact hb.placed.not_mem_queue hi.unlinked.clean hi.unlinked.dirty q hq
  · intro p w cpu i hl hv
    exact hb.placed.not_mem_tree ((hpvd p hv).unlinked.tree .dirty) rfl i hl
  · intro p hu hv
    rw [← view_free, hview p ((h.mem_owned hb hc).mpr ⟨hu, hv⟩)]
    rfl
  · intro p hp
    exact hb.view_of_not_mem fun hm => hp ((h.mem_owned hb hc).mp hm)

end State

end FastMap
