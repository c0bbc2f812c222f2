import FastMap.Effects
import FastMap.Faults

/-!
# Reclaim and eviction

`try_purge_pages_fast` and a round of `evictor_thread` both collect a batch of pages under their
locks and then treat every page of the batch alike. `Batch` is the invariant of all these loops:
the pages of the batch look as the loop leaves them, and no other page has changed.
-/

namespace FastMap

variable {C : Type*}

namespace Env

/-- The batch writer writes every page it is given, and nothing else. -/
def WritesAll (e : Env C) : Prop :=
  ∀ (s : State C) v pgs, (∀ p ∈ pgs, (s.pages p).pvd = some v) →
    ∀ b, b ∈ e.writeAsync (s.pvds v).type s pgs ↔
      ∃ p ∈ pgs, b = ⟨(s.pvds v).bk, (s.pages p).index, (s.pages p).content⟩

/-- The writer writes every page of one batch, and nothing else, while the pages have the indices
that `x` gives them. -/
def WritesBatch (e : Env C) (v : PvdId) (x : PageId → PageView C) (pgs : List PageId) : Prop :=
  ∀ s : State C, (∀ p ∈ pgs, (s.pages p).pvd = some v ∧ (s.pages p).index = (x p).page.index) →
    ∀ b, b ∈ e.writeAsync (s.pvds v).type s pgs ↔
      ∃ p ∈ pgs, b = ⟨(s.pvds v).bk, (s.pages p).index, (s.pages p).content⟩

/-- The writer writes nothing but pages it is given, each to its own place. -/
def WritesOnly (e : Env C) : Prop :=
  ∀ (s : State C) v pgs, (∀ p ∈ pgs, (s.pages p).pvd = some v) →
    ∀ b ∈ e.writeAsync (s.pvds v).type s pgs,
      ∃ p ∈ pgs, b = ⟨(s.pvds v).bk, (s.pages p).index, (s.pages p).content⟩

lemma WritesAll.batch {e : Env C} (h : e.WritesAll) (v : PvdId) (x : PageId → PageView C)
    (pgs : List PageId) : e.WritesBatch v x pgs :=
  fun s hp => h s v pgs fun p hm => (hp p hm).1

lemma WritesBatch.congr {e : Env C} {v : PvdId} {x y : PageId → PageView C} {pgs : List PageId}
    (h : e.WritesBatch v x pgs) (hxy : ∀ p ∈ pgs, (y p).page.index = (x p).page.index) :
    e.WritesBatch v y pgs :=
  fun s hp => h s fun p hm => ⟨(hp p hm).1, (hp p hm).2.trans (hxy p hm)⟩

end Env

/-! ### The two phases of a page between calls -/

/-- A page that caches nothing. -/
structure Idle (x : PageView C) : Prop where
  inUse : x.page.inUse = false
  unlinked : x.Unlinked
  bufferId : x.page.bufferId = .biNone
  isDirty : x.page.isDirty = false

/-- A page that caches a block of a file: it is in the radix tree and in one queue, and in the
dirty tree exactly when it is dirty. -/
structure Resident (e : Env C) (p : PageId) (x : PageView C) : Prop where
  lt : p < e.numPages
  inUse : x.page.inUse = true
  free : x.free = false
  cpuid : x.page.cpuid = e.home p
  cached : x.tree .rdx = true
  tree : x.tree .dirty = x.page.isDirty
  clean : x.clean = !x.page.isDirty
  dirty : x.dirty = x.page.isDirty
  bufferId : x.page.bufferId = if x.page.isDirty then .biDirty else .biClean

namespace PageView

/-- The page leaves the radix tree. -/
def uncached (x : PageView C) : PageView C := { x with tree := Function.update x.tree .rdx false }

/-- The page leaves the dirty tree. -/
def untreed (x : PageView C) : PageView C := { x with tree := Function.update x.tree .dirty false }

/-- A page in the batch of `try_purge_pages_fast`. -/
def collected (x : PageView C) : PageView C := x.dequeued.uncached.unmapped

/-- A page that `try_purge_pages_fast` has reclaimed. -/
def purged (x : PageView C) : PageView C := x.collected.freed

/-- A page in the batch of an evictor. -/
def grabbed (x : PageView C) : PageView C := x.dequeued.untreed

/-- A dirty page that has been made clean. -/
def cleaned (x : PageView C) : PageView C :=
  { x with
    page := { x.page with bufferId := .biClean, isDirty := false, locked := false }
    clean := true
    dirty := false
    tree := Function.update x.tree .dirty false }

/-- A dirty page that an evictor or a sync has made clean: its entries are write protected. -/
def evicted (x : PageView C) : PageView C := { x.cleaned with pte := x.wrprotected.pte }

lemma wrprotected_pte_congr {x y : PageView C} (hr : x.page.rmap = y.page.rmap)
    (hp : x.pte = y.pte) : x.wrprotected.pte = y.wrprotected.pte := by
  funext a
  rw [wrprotected_pte, wrprotected_pte, hp]
  exact if_congr (by simp only [TaggedPage.covers, hr]) rfl rfl

end PageView

lemma Idle.of_free {e : Env C} {p : PageId} {x : PageView C} (h : Idle x ∨ Resident e p x)
    (hf : x.free = true) : Idle x :=
  h.resolve_right fun hr => Bool.false_ne_true (hr.free.symm.trans hf)

lemma Resident.of_dirtyTree {e : Env C} {p : PageId} {x : PageView C}
    (h : Idle x ∨ Resident e p x) (ht : x.tree .dirty = true) : Resident e p x :=
  h.resolve_left fun hi => Bool.false_ne_true ((hi.unlinked.tree .dirty).symm.trans ht)

namespace State

/-- What holds of every page between two calls. -/
structure Inv (e : Env C) (s : State C) : Prop where
  placed : s.Placed e
  page (p : PageId) : Idle (s.view e p) ∨ Resident e p (s.view e p)

/-- The pages of a list have been changed by `g`, and nothing else has changed. -/
structure Batch (e : Env C) (x : PageId → PageView C) (P : PageId → PageView C → Prop)
    (g : PageView C → PageView C) (s : State C) (pgs : List PageId) : Prop where
  placed : s.Placed e
  nodup : pgs.Nodup
  all {p : PageId} : p ∈ pgs → P p (x p)
  view_eq (q : PageId) : s.view e q = if q ∈ pgs then g (x q) else x q

section batch

variable {e : Env C} {x : PageId → PageView C} {P : PageId → PageView C → Prop}
  {g g' : PageView C → PageView C} {s s' : State C} {pgs : List PageId} {p : PageId}

lemma Placed.batch_nil (h : s.Placed e) : Batch e (s.view e) P g s [] :=
  ⟨h, .nil, fun hp => absurd hp List.not_mem_nil, fun _ => rfl⟩

lemma Batch.view_of_mem (h : Batch e x P g s pgs) (hp : p ∈ pgs) : s.view e p = g (x p) := by
  rw [h.view_eq, if_pos hp]

lemma Batch.view_of_not_mem (h : Batch e x P g s pgs) (hp : p ∉ pgs) : s.view e p = x p := by
  rw [h.view_eq, if_neg hp]

/-- The pages outside of the batch are as they were. -/
lemma Batch.pages_of_not_mem (h : Batch e (s.view e) P g s' pgs) (hp : p ∉ pgs) :
    s'.pages p = s.pages p := by
  rw [← view_page e, h.view_of_not_mem hp, view_page]

lemma Batch.keeps (h : Batch e x P g s pgs) (hk : Keeps e s s') : Batch e x P g s' pgs :=
  ⟨hk.placed, h.nodup, h.all, fun q => by rw [hk.view_eq, h.view_eq]⟩

lemma Batch.push (h : Batch e x P g s pgs) (hp : p ∉ pgs) (hP : P p (x p))
    (hm : Moves e s s' p (g (x p))) : Batch e x P g s' (pgs ++ [p]) := by
  refine ⟨hm.placed, by simpa using h.nodup.concat hp, ?_, fun q => ?_⟩
  · intro q hq
    rcases List.mem_append.mp hq with hq | hq
    · exact h.all hq
    · rw [List.mem_singleton.mp hq]
      exact hP
  · by_cases hqp : q = p
    · subst hqp
      rw [hm.view_self, if_pos (by simp)]
    · rw [hm.view_of_ne hqp, h.view_eq]
      simp [hqp]

/-- A loop that treats each page of the batch once. -/
lemma Batch.foldl (h : Batch e x P g s pgs) {f : State C → PageId → State C}
    (hf : ∀ s p, s.Placed e → P p (x p) → s.view e p = g (x p) → Moves e s (f s p) p (g' (x p))) :
    Batch e x P g' (pgs.foldl f s) pgs := by
  -- the pages of `l` are still to be treated
  have hloop : ∀ (l : List PageId) (s : State C), l.Nodup → s.Placed e → (∀ p ∈ l, P p (x p)) →
      (∀ p ∈ l, s.view e p = g (x p)) → (l.foldl f s).Placed e ∧
        ∀ q, (l.foldl f s).view e q = if q ∈ l then g' (x q) else s.view e q := by
    intro l
    induction l with
    | nil => exact fun s _ hs _ _ => ⟨hs, fun q => by simp⟩
    | cons p l ih =>
      intro s hl hs hP hv
      obtain ⟨hpl, hl⟩ := List.nodup_cons.mp hl
      have hm := hf s p hs (hP p (by simp)) (hv p (by simp))
      have hv' : ∀ q ∈ l, (f s p).view e q = g (x q) := by
        intro q hq
        rw [hm.view_of_ne (by rintro rfl; exact hpl hq)]
        exact hv q (by simp [hq])
      obtain ⟨hpl', hview⟩ := ih (f s p) hl hm.placed (fun q hq => hP q (by simp [hq])) hv'
      refine ⟨hpl', fun q => ?_⟩
      rw [List.foldl_cons, hview]
      by_cases hqp : q = p
      · subst hqp
        simp [hpl, hm.view_self]
      · simp [hqp, hm.view_of_ne hqp]
  obtain ⟨hpl, hview⟩ :=
    hloop pgs s h.nodup h.placed (fun p hp => h.all hp) (fun p hp => h.view_of_mem hp)
  refine ⟨hpl, h.nodup, h.all, fun q => ?_⟩
  rw [hview, h.view_eq]
  split_ifs <;> rfl

end batch

/-! ### `try_purge_pages_fast` -/

section purge

variable {e : Env C} {s s' : State C} {qid : ℕ}

/-- The pages that reclaim can take. -/
def Purgeable (e : Env C) (p : PageId) (x : PageView C) : Prop :=
  Resident e p x ∧ x.page.isDirty = false ∧ x.page.locked = false

lemma outside_purgeOne (e : Env C) (s : State C) (qid : ℕ) :
    (s.purgeOne e qid).2.outside = s.outside := by
  have h := outside_dequeueIf s (.clean qid) deq outside_deq
  simp only [purgeOne]
  split
  · simp_all
  · split <;> simp_all

/-- A clean page in its queue is resident. -/
lemma Inv.resident_of_queue (h : s.Inv e) {p : PageId} {q : Queue}
    (hp : p ∈ (s.queues q).buffer) : Resident e p (s.view e p) := by
  refine (h.page p).resolve_left fun hi => ?_
  exact h.placed.not_mem_queue hi.unlinked.clean hi.unlinked.dirty q hp

lemma Batch.purgeOne {x : PageId → PageView C} {pgs : List PageId} (qid : ℕ)
    (hx : ∀ p, Idle (x p) ∨ Resident e p (x p))
    (h : Batch e x (Purgeable e) PageView.collected s pgs) :
    (∃ s', s.purgeOne e qid = (none, s') ∧ Batch e x (Purgeable e) PageView.collected s' pgs) ∨
    ∃ p s', s.purgeOne e qid = (some p, s') ∧
      Batch e x (Purgeable e) PageView.collected s' (pgs ++ [p]) := by
  rcases h.placed.dequeueIf_cases (q := .clean qid) locks_deq with
    ⟨s', hd, hk⟩ | ⟨p, s', hd, hp, -, hl, ⟨v, hv, -⟩, hm⟩
  · exact Or.inl ⟨s', by simp only [State.purgeOne, hd], h.keeps hk⟩
  · -- a page of the batch has left its queue
    have hown : (s.view e p).clean = true := h.placed.clean_of_mem hp
    have hpg : p ∉ pgs := by
      intro hmem
      rw [h.view_of_mem hmem, PageView.collected, PageView.unmapped_eq] at hown
      exact Bool.false_ne_true hown
    have hxp := h.view_of_not_mem hpg
    have hres : Resident e p (x p) := by
      refine (hx p).resolve_left fun hi => ?_
      exact Bool.false_ne_true (hi.unlinked.clean.symm.trans (hxp ▸ hown))
    have hclean : (x p).page.isDirty = false := by
      have := hres.clean
      rw [← hxp, hown] at this
      simpa [← hxp] using this.symm
    have hpage : s'.pages p = { s.pages p with locked := true, bufferId := .biNone } := by
      rw [← view_page e, hm.view_self]
      rfl
    have hv' : (s'.pages p).pvd = some v := by rw [hpage]; exact hv
    have ht : (s'.view e p).tree .rdx = true := by
      rw [hm.view_self, hxp]
      exact hres.cached
    have he := hm.placed.moves_treeErase hv' ht
    have hr := he.placed.moves_removeMappings (p := p)
    rw [he.view_self, hm.view_self, hxp] at hr
    refine Or.inr ⟨p, _, (by simp only [State.purgeOne, hd, hv']; rfl), ?_⟩
    refine h.push hpg ⟨hres, hclean, ?_⟩ ((hm.trans he).trans hr)
    rw [← hxp]
    exact hl

lemma Batch.purgeCollect {x : PageId → PageView C} (qid : ℕ)
    (hx : ∀ p, Idle (x p) ∨ Resident e p (x p)) (n : ℕ) {pgs : List PageId}
    (h : Batch e x (Purgeable e) PageView.collected s pgs) :
    Batch e x (Purgeable e) PageView.collected (purgeCollect e qid n pgs s).2
      (purgeCollect e qid n pgs s).1 ∧
    (State.purgeCollect e qid n pgs s).2.outside = s.outside := by
  induction n generalizing s pgs with
  | zero => exact ⟨h, rfl⟩
  | succ n ih =>
    have hout := outside_purgeOne e s qid
    rcases h.purgeOne qid hx with ⟨s', hs, hb⟩ | ⟨p, s', hs, hb⟩
    · simp only [State.purgeCollect, hs]
      rw [hs] at hout
      exact ⟨(ih hb).1, (ih hb).2.trans hout⟩
    · simp only [State.purgeCollect, hs]
      rw [hs] at hout
      exact ⟨(ih hb).1, (ih hb).2.trans hout⟩

/-- A collected page is freed. -/
lemma Placed.moves_freeCollected {p : PageId} {x : PageView C} (h : s.Placed e)
    (hp : Purgeable e p x) (hv : s.view e p = x.collected) :
    Moves e s (s.freePageLock p) p x.purged := by
  have hun : (s.view e p).Unlinked := by
    rw [hv, PageView.collected, PageView.unmapped_eq]
    refine ⟨rfl, rfl, fun k => ?_⟩
    cases k with
    | rdx => simp [PageView.uncached]
    | dirty => exact hp.1.tree.trans hp.2.1
  have hm := h.moves_freePageLock hp.1.lt hun ?_ ?_
  · rwa [hv] at hm
  · rw [hv, PageView.collected, PageView.unmapped_eq]
    exact hp.1.free
  · rw [← view_page e, hv, PageView.collected, PageView.unmapped_eq]
    exact hp.1.cpuid

/-- `try_purge_pages_fast` frees some clean pages and does nothing else. -/
lemma Inv.tryPurgePagesFast (h : s.Inv e) (qid : ℕ) :
    (s.tryPurgePagesFast e qid).outside = s.outside ∧
    ∃ pgs, Batch e (s.view e) (Purgeable e) PageView.purged (s.tryPurgePagesFast e qid) pgs := by
  obtain ⟨hb, hout⟩ :=
    Batch.purgeCollect qid h.page purgeBatch (h.placed.batch_nil (P := Purgeable e))
  simp only [State.tryPurgePagesFast]
  refine ⟨(foldl_outside (outside_freePageLock) _ _).trans hout, _, hb.foldl ?_⟩
  intro t p ht hp hv
  exact ht.moves_freeCollected hp hv

end purge

/-! ### Writing a batch -/

/-- The pages of a list have been written to the device of a pvd, and nothing else has. -/
structure Synced (v : PvdId) (x : PageId → PageView C) (s s' : State C) (pgs : List PageId) :
    Prop where
  written {p : PageId} : p ∈ pgs →
    s'.disk ((s.pvds v).bk, (x p).page.index) = (x p).page.content
  other {a : DevId × Pgoff} : (∀ p ∈ pgs, a ≠ ((s.pvds v).bk, (x p).page.index)) →
    s'.disk a = s.disk a

/-- Nothing but pages of a list has been written to the device of a pvd. -/
def Wrote (v : PvdId) (x : PageId → PageView C) (s s' : State C) (pgs : List PageId) : Prop :=
  ∀ a, s'.disk a = s.disk a ∨ ∃ p ∈ pgs, a = ((s.pvds v).bk, (x p).page.index) ∧
    s'.disk a = (x p).page.content

/-- A batch has been handed to the writer. -/
structure WrittenBack (e : Env C) (v : PvdId) (x : PageId → PageView C) (s s' : State C)
    (pgs : List PageId) : Prop where
  synced : e.WritesBatch v x pgs → Synced v x s s' pgs
  wrote : e.WritesOnly → Wrote v x s s' pgs

section write

variable {e : Env C} {s s' : State C} {v : PvdId} {p : PageId}

/-- Steps inside the buffer before and after it do not count. -/
lemma WrittenBack.congr {t t' : State C} {x y : PageId → PageView C} {pgs : List PageId}
    (h : WrittenBack e v x s s' pgs) (hx : ∀ p ∈ pgs, y p = x p) (hp : t.pvds = s.pvds)
    (hd : t.disk = s.disk) (hd' : t'.disk = s'.disk) : WrittenBack e v y t t' pgs := by
  constructor
  · intro hw
    obtain ⟨hwr, hot⟩ := h.synced (hw.congr fun p hp => by rw [hx p hp])
    rw [← hp] at hwr hot
    constructor
    · intro p hp
      rw [hd', hx p hp]
      exact hwr hp
    · intro a ha
      rw [hd', hd]
      exact hot fun p hp => by rw [← hx p hp]; exact ha p hp
  · intro hw a
    rw [hd', hd, hp]
    rcases h.wrote hw a with ha | ⟨p, hp, ha⟩
    · exact Or.inl ha
    · exact Or.inr ⟨p, hp, by rw [hx p hp]; exact ha⟩

lemma writeBlocks_other {ws : List (BlockWrite C)} {a : DevId × Pgoff}
    (h : ∀ b ∈ ws, a ≠ (b.dev, b.off)) : (s.writeBlocks ws).disk a = s.disk a := by
  have hloop : ∀ (ws : List (BlockWrite C)) (d : DevId × Pgoff → C),
      (∀ b ∈ ws, a ≠ (b.dev, b.off)) →
      ws.foldl (fun d w => Function.update d (w.dev, w.off) w.data) d a = d a := by
    intro ws
    induction ws with
    | nil => exact fun _ _ => rfl
    | cons b ws ih =>
      intro d h
      rw [List.foldl_cons, ih _ fun b' hb' => h b' (by simp [hb'])]
      exact Function.update_of_ne (h b (by simp)) _ _
  exact hloop ws s.disk h

/-- When all blocks for one address hold the same data, it ends up there. -/
lemma writeBlocks_written {ws : List (BlockWrite C)} {a : DevId × Pgoff} {c : C}
    (h : ∃ b ∈ ws, a = (b.dev, b.off)) (hc : ∀ b ∈ ws, a = (b.dev, b.off) → b.data = c) :
    (s.writeBlocks ws).disk a = c := by
  have hloop : ∀ (ws : List (BlockWrite C)) (d : DevId × Pgoff → C),
      (∀ b ∈ ws, a = (b.dev, b.off) → b.data = c) →
      (d a = c ∨ ∃ b ∈ ws, a = (b.dev, b.off)) →
      ws.foldl (fun d w => Function.update d (w.dev, w.off) w.data) d a = c := by
    intro ws
    induction ws with
    | nil => exact fun d _ h => h.resolve_right (by simp)
    | cons b ws ih =>
      intro d hc h
      rw [List.foldl_cons]
      refine ih _ (fun b' hb' => hc b' (by simp [hb'])) ?_
      by_cases ha : a = (b.dev, b.off)
      · left
        rw [ha, Function.update_self]
        exact hc b (by simp) ha
      · rw [Function.update_of_ne ha]
        rcases h with h | ⟨b', hb', hab⟩
        · exact Or.inl h
        · rcases List.mem_cons.mp hb' with rfl | hb'
          · exact absurd hab ha
          · exact Or.inr ⟨b', hb', hab⟩
  exact hloop ws s.disk hc (Or.inr h)

/-- What ends up at an address was there or is in one of the blocks. -/
lemma writeBlocks_cases (ws : List (BlockWrite C)) (a : DevId × Pgoff) :
    (s.writeBlocks ws).disk a = s.disk a ∨
      ∃ b ∈ ws, a = (b.dev, b.off) ∧ (s.writeBlocks ws).disk a = b.data := by
  have hloop : ∀ (ws : List (BlockWrite C)) (d : DevId × Pgoff → C),
      ws.foldl (fun d w => Function.update d (w.dev, w.off) w.data) d a = d a ∨
      ∃ b ∈ ws, a = (b.dev, b.off) ∧
        ws.foldl (fun d w => Function.update d (w.dev, w.off) w.data) d a = b.data := by
    intro ws
    induction ws with
    | nil => exact fun _ => Or.inl rfl
    | cons b ws ih =>
      intro d
      rw [List.foldl_cons]
      rcases ih (Function.update d (b.dev, b.off) b.data) with h | ⟨b', hb', ha, h⟩
      · by_cases hab : a = (b.dev, b.off)
        · refine Or.inr ⟨b, List.mem_cons_self, hab, h.trans ?_⟩
          rw [hab, Function.update_self]
        · rw [Function.update_of_ne hab] at h
          exact Or.inl h
      · exact Or.inr ⟨b', List.mem_cons_of_mem _ hb', ha, h⟩
  exact hloop ws s.disk

lemma Placed.keeps_writePages (h : s.Placed e) (v : PvdId) (pgs : List PageId) :
    Keeps e s (s.writePages e v pgs) := ⟨{ h with }, rfl⟩

lemma outside_writePages (e : Env C) (s : State C) (v : PvdId) (pgs : List PageId) :
    (s.writePages e v pgs).outside =
      { s.outside with disk := (s.writePages e v pgs).disk } := rfl

/-- Two pages that the radix trees hold under one key are one page. -/
lemma eq_of_cached {q : PageId} (hp : (s.view e p).tree .rdx = true)
    (hq : (s.view e q).tree .rdx = true) (hv : (s.pages p).pvd = (s.pages q).pvd)
    (hi : (s.pages p).index = (s.pages q).index) : p = q := by
  obtain ⟨v, hpv, hpl⟩ := view_tree.mp hp
  obtain ⟨v', hqv, hql⟩ := view_tree.mp hq
  obtain rfl : v = v' := by simpa [hpv, hqv] using hv
  rw [hi, hql] at hpl
  simpa using hpl.symm

/-- A batch of pages of one pvd with different offsets is written out by the writer. -/
lemma synced_writePages {x : PageId → PageView C} (pgs : List PageId)
    (hw : e.WritesBatch v x pgs)
    (hx : ∀ p ∈ pgs, (s.pages p).pvd = some v ∧ (s.pages p).index = (x p).page.index ∧
      (s.pages p).content = (x p).page.content)
    (hinj : ∀ p ∈ pgs, ∀ q ∈ pgs, (x p).page.index = (x q).page.index → p = q) :
    Synced v x s (s.writePages e v pgs) pgs := by
  have hb := hw s fun p hp => ⟨(hx p hp).1, (hx p hp).2.1⟩
  constructor
  · intro p hp
    refine writeBlocks_written ⟨_, (hb _).mpr ⟨p, hp, rfl⟩, by rw [(hx p hp).2.1]⟩ ?_
    intro b hbm ha
    obtain ⟨q, hq, rfl⟩ := (hb b).mp hbm
    have hi : (x p).page.index = (x q).page.index := by
      rw [← (hx q hq).2.1]
      exact (Prod.mk.inj ha).2
    rw [(hx q hq).2.2, hinj p hp q hq hi]
  · intro a ha
    refine writeBlocks_other fun b hbm => ?_
    obtain ⟨q, hq, rfl⟩ := (hb b).mp hbm
    rw [(hx q hq).2.1]
    exact ha q hq

lemma wrote_writePages {x : PageId → PageView C} (pgs : List PageId) (hw : e.WritesOnly)
    (hx : ∀ p ∈ pgs, (s.pages p).pvd = some v ∧ (s.pages p).index = (x p).page.index ∧
      (s.pages p).content = (x p).page.content) :
    Wrote v x s (s.writePages e v pgs) pgs := by
  intro a
  rcases writeBlocks_cases (s := s) (e.writeAsync (s.pvds v).type s pgs) a with h | ⟨b, hb, ha, h⟩
  · exact Or.inl h
  · obtain ⟨p, hp, rfl⟩ := hw s v pgs (fun p hp => (hx p hp).1) b hb
    obtain ⟨-, hi, hc⟩ := hx p hp
    exact Or.inr ⟨p, hp, by rw [ha, hi], h.trans hc⟩

/-- A batch of pages of one pvd with different offsets. -/
lemma writtenBack_writePages {x : PageId → PageView C} (pgs : List PageId)
    (hx : ∀ p ∈ pgs, (s.pages p).pvd = some v ∧ (s.pages p).index = (x p).page.index ∧
      (s.pages p).content = (x p).page.content)
    (hinj : ∀ p ∈ pgs, ∀ q ∈ pgs, (x p).page.index = (x q).page.index → p = q) :
    WrittenBack e v x s (s.writePages e v pgs) pgs :=
  ⟨fun hw => synced_writePages pgs hw hx hinj, fun hw => wrote_writePages pgs hw hx⟩

end write

/-! ### `evictor_thread` -/

section evictor

variable {e : Env C} {s s' : State C} {id : ℕ} {v : PvdId} {p : PageId}

/-- The pages that a write-back of a pvd can take. -/
def Evictable (e : Env C) (v : PvdId) (p : PageId) (x : PageView C) : Prop :=
  Resident e p x ∧ x.page.isDirty = true ∧ x.page.locked = false ∧ x.page.pvd = some v

lemma tree_update_twice (x : PageView C) {k : TreeKind} (h : x.tree k = true) :
    { x with tree := Function.update (Function.update x.tree k false) k true } = x := by
  rw [Function.update_idem, ← h, Function.update_eq_self]

/-- An iteration of the collection loop on a page that the dirty tree holds. -/
lemma Batch.collectPage {x : PageId → PageView C} {pgs : List PageId} {offset : Pgoff}
    (hx : ∀ p, Idle (x p) ∨ Resident e p (x p))
    (h : Batch e x (Evictable e v) PageView.grabbed s pgs)
    (hid : (offset >>> 9) % evictorThreads = id) (hp : s.treeLookup e .dirty v offset = some p) :
    ∃ s₁, s₁ = s.treeErase ⟨.dirty, v, offset % e.ncpus⟩ offset ∧
    ((s₁.removeIf (.dirty id) p evDeq = (false, s₁) ∧
      Batch e x (Evictable e v) PageView.grabbed
        (s₁.treeInsert e .dirty v (s₁.pages p).index p) pgs) ∨
    ∃ s', s₁.removeIf (.dirty id) p evDeq = (true, s') ∧
      Batch e x (Evictable e v) PageView.grabbed s' (pgs ++ [p])) := by
  obtain ⟨-, hv, hi⟩ := h.placed.tree_own hp
  have htree : (s.view e p).tree .dirty = true := h.placed.tree_of_lookup hp
  have hpg : p ∉ pgs := by
    intro hmem
    rw [h.view_of_mem hmem] at htree
    simp [PageView.grabbed, PageView.untreed] at htree
  have hxp := h.view_of_not_mem hpg
  have hres : Resident e p (x p) := .of_dirtyTree (hx p) (hxp ▸ htree)
  have hdirty : (x p).page.isDirty = true := by rw [← hres.tree, ← hxp, htree]
  have he := h.placed.moves_treeErase hv htree
  rw [hi] at he
  refine ⟨_, rfl, ?_⟩
  set s₁ := s.treeErase ⟨.dirty, v, offset % e.ncpus⟩ offset with hs₁
  have hpages : s₁.pages = s.pages := rfl
  have hq : p ∈ (s₁.queues (.dirty id)).buffer := by
    have hd : (s.view e p).dirty = true := by rw [hxp, hres.dirty, hdirty]
    have := (view_dirty e s p).mp hd
    rw [hi, dirtyQueue, hid] at this
    exact this
  rcases he.placed.removeIf_cases locks_evDeq hq with hf | ⟨s', hs', -, hl, -, hm⟩
  · refine Or.inl ⟨hf, h.keeps ?_⟩
    have hnone : s₁.treeLookup e .dirty v (s₁.pages p).index = none := by
      simp [hs₁, treeLookup, treeErase, hi]
    have hins := he.placed.moves_treeInsert (p := p) (v := v) hv hnone
    have := he.trans hins
    rw [he.view_self] at this
    simp only [tree_update_twice _ htree] at this
    exact this.keeps
  · refine Or.inr ⟨s', hs', h.push hpg ⟨hres, hdirty, ?_, ?_⟩ ?_⟩
    · rw [← hxp]
      exact hl
    · rw [← hxp]
      exact hv
    · have := he.trans hm
      rw [he.view_self, hxp] at this
      exact this

lemma Batch.collect {x : PageId → PageView C} (hx : ∀ p, Idle (x p) ∨ Resident e p (x p))
    (id n : ℕ) (offset : Pgoff) {pgs : List PageId}
    (h : Batch e x (Evictable e v) PageView.grabbed s pgs) :
    Batch e x (Evictable e v) PageView.grabbed (collect e id v n offset pgs s).2
      (collect e id v n offset pgs s).1 ∧
    (State.collect e id v n offset pgs s).2.outside = s.outside := by
  induction n generalizing s offset pgs with
  | zero => exact ⟨h, rfl⟩
  | succ n ih =>
    simp only [State.collect]
    split_ifs with hstop
    · exact ⟨h, rfl⟩
    · have hid : (offset >>> 9) % evictorThreads = id := not_not.mp (not_or.mp hstop).2
      cases hl : s.treeLookup e .dirty v offset with
      | none => exact ih (offset + 1) h
      | some p =>
        have hout := outside_removeIf (s.treeErase ⟨.dirty, v, offset % e.ncpus⟩ offset) p
          (.dirty id) evDeq outside_evDeq
        obtain ⟨s₁, rfl, ⟨hf, hb⟩ | ⟨s', hs', hb⟩⟩ := h.collectPage hx hid hl
        · simp only [hf]
          exact ⟨(ih _ hb).1, (ih _ hb).2.trans (by simp)⟩
        · simp only [hs']
          rw [hs'] at hout
          exact ⟨(ih _ hb).1, (ih _ hb).2.trans hout⟩

/-- The batch is written, and its pages become clean. -/
lemma Batch.evict {x : PageId → PageView C} {pgs : List PageId}
    (h : Batch e x (Evictable e v) PageView.grabbed s pgs)
    (hinj : ∀ p ∈ pgs, ∀ q ∈ pgs, (x p).page.index = (x q).page.index → p = q) :
    Batch e x (Evictable e v) PageView.evicted (s.evict e v pgs) pgs ∧
    (s.evict e v pgs).outside = { s.outside with disk := (s.evict e v pgs).disk } ∧
    WrittenBack e v x s (s.evict e v pgs) pgs := by
  have h₁ : Batch e x (Evictable e v) (fun x => x.grabbed.wrprotected)
      (pgs.foldl clearMappings s) pgs := by
    refine h.foldl fun t p ht _ hv => ?_
    rw [← hv]
    exact ht.moves_clearMappings
  set s₁ := pgs.foldl clearMappings s with hs₁
  have h₂ := h₁.keeps (h₁.placed.keeps_writePages v pgs)
  set s₂ := s₁.writePages e v pgs with hs₂
  have h₃ : Batch e x (Evictable e v) (fun x =>
      { x.cleaned with page := { x.cleaned.page with locked := true }, pte := x.wrprotected.pte })
      (pgs.foldl (fun s p => s.insertPage p true) s₂) pgs := by
    refine h₂.foldl fun t p ht hp hv => ?_
    have hrw : (x p).grabbed.wrprotected =
        { (x p).grabbed with pte := (x p).wrprotected.pte } := by
      rw [PageView.wrprotected_eq]
      congr 1
      exact PageView.wrprotected_pte_congr rfl rfl
    rw [hrw] at hv
    have hm := ht.moves_insertPage true hp.1.lt (by rw [hv]; rfl) (by rw [hv]; rfl)
    rw [← view_page e, hv] at hm
    simpa [PageView.grabbed, PageView.cleaned, PageView.dequeued, PageView.untreed] using hm
  set s₃ := pgs.foldl (fun s p => s.insertPage p true) s₂ with hs₃
  have h₄ : Batch e x (Evictable e v) PageView.evicted (pgs.foldl unlockTp s₃) pgs := by
    refine h₃.foldl fun t p ht hp hv => ?_
    have hm := ht.moves_modifyPage p (f := fun t => { t with locked := false }) rfl rfl
    rw [hv, ← view_page e, hv] at hm
    exact hm
  have hout₁ : s₁.outside = s.outside := foldl_outside (fun s p => outside_clearMappings s p) _ _
  have hout₄ : (s.evict e v pgs).outside = s₂.outside :=
    (foldl_outside (fun s p => outside_unlockTp s p) _ _).trans
      (foldl_outside (fun s p => outside_insertPage s p true) _ _)
  have hdisk : (s.evict e v pgs).disk = s₂.disk := congrArg Outside.disk hout₄
  refine ⟨h₄, ?_, ?_⟩
  · rw [hout₄, hs₂, outside_writePages, hout₁, hdisk]
  · have hback := writtenBack_writePages (e := e) (s := s₁) (v := v) (x := x) pgs ?_ hinj
    · exact hback.congr (fun _ _ => rfl) (congrArg Outside.pvds hout₁).symm
        (congrArg Outside.disk hout₁).symm hdisk
    · intro p hp
      have hv := h₁.view_of_mem hp
      rw [PageView.wrprotected_eq] at hv
      rw [← view_page e, hv]
      exact ⟨(h.all hp).2.2.2, rfl, rfl⟩

/-- The head of a dirty queue, once it has left the queue and the dirty tree. -/
lemma Inv.dequeueIf_dirty (h : s.Inv e)
    (hd : s.dequeueIf (.dirty id) evDeq = (some p, s')) :
    ∃ v, (s'.pages p).pvd = some v ∧
      Batch e (s.view e) (Evictable e v) PageView.grabbed (s'.removeFromDirtyTree e p) [p] := by
  rcases h.placed.dequeueIf_cases (q := .dirty id) locks_evDeq with
    ⟨s₁, hd₁, -⟩ | ⟨p₁, s₁, hd₁, hp, -, hl, -, hm⟩
  · simp [hd] at hd₁
  · obtain ⟨rfl, rfl⟩ : p = p₁ ∧ s' = s₁ := by simpa [hd] using hd₁
    have hres := h.resident_of_queue hp
    have hdirty : (s.pages p).isDirty = true :=
      hres.dirty.symm.trans (h.placed.dirty_of_mem hp)
    have hpage : s'.pages p = { s.pages p with locked := true, bufferId := .biNone } := by
      rw [← view_page e, hm.view_self]
      rfl
    obtain ⟨v, hv, -⟩ := view_tree.mp hres.cached
    have hv' : (s'.pages p).pvd = some v := by rw [hpage]; exact hv
    have ht : (s'.view e p).tree .dirty = true := by
      rw [hm.view_self]
      exact hres.tree.trans hdirty
    have he := hm.placed.moves_treeErase hv' ht
    rw [hm.view_self] at he
    have hrm : s'.removeFromDirtyTree e p =
        s'.treeErase ⟨.dirty, v, (s'.pages p).index % e.ncpus⟩ (s'.pages p).index := by
      simp only [removeFromDirtyTree, hv']
    refine ⟨v, hv', ?_⟩
    rw [hrm]
    exact h.placed.batch_nil.push (by simp) ⟨hres, hdirty, hl, hv⟩ (hm.trans he)

/-- A round of an evictor makes some dirty pages of one pvd clean. -/
lemma Inv.evictorRound (h : s.Inv e) (id : ℕ) : ∃ v,
    Batch e (s.view e) (Evictable e v) PageView.evicted (s.evictorRound e id)
      (s.evictorBatch e id) ∧
    (s.evictorRound e id).outside = { s.outside with disk := (s.evictorRound e id).disk } ∧
    WrittenBack e v (s.view e) s (s.evictorRound e id) (s.evictorBatch e id) := by
  -- nothing to do, or the head of the queue is in use
  have hnop : ∀ s', Keeps e s s' → s'.outside = s.outside → ∃ v,
      Batch e (s.view e) (Evictable e v) PageView.evicted s' [] ∧
      s'.outside = { s.outside with disk := s'.disk } ∧
      WrittenBack e v (s.view e) s s' [] := by
    intro s' hk ho
    have hd : s'.disk = s.disk := congrArg Outside.disk ho
    refine ⟨0, h.placed.batch_nil.keeps hk, ?_, fun _ => ⟨by simp, fun _ => by rw [hd]⟩,
      fun _ a => Or.inl (by rw [hd])⟩
    rw [ho, hd]
    rfl
  have hout := outside_dequeueIf s (.dirty id) evDeq outside_evDeq
  simp only [State.evictorRound, State.evictorBatch]
  split_ifs with hb
  · exact hnop s ⟨h.placed, rfl⟩ rfl
  · rcases h.placed.dequeueIf_cases (q := .dirty id) locks_evDeq with
      ⟨s', hd, hk⟩ | ⟨p, s', hd, -⟩
    · rw [hd] at hout
      simp only [hd]
      exact hnop s' hk hout
    · obtain ⟨v, hv', hb₁⟩ := h.dequeueIf_dirty hd
      rw [hd] at hout
      simp only [hd]
      obtain ⟨hb₂, hout₂⟩ := Batch.collect h.page id collectIters ((s'.pages p).index + 1)
        hb₁
      have hout₃ := hout₂.trans ((outside_removeFromDirtyTree e s' p).trans hout)
      have hev := hb₂.evict fun q hq r hr hi => ?_
      · obtain ⟨hb₃, ho, hsync⟩ := hev
        simp only [hv']
        exact ⟨v, hb₃, by rw [ho, hout₃], hsync.congr (fun _ _ => rfl)
          (congrArg Outside.pvds hout₃).symm (congrArg Outside.disk hout₃).symm rfl⟩
      · have hq' := hb₂.all hq
        have hr' := hb₂.all hr
        exact eq_of_cached hq'.1.cached hr'.1.cached
          ((hq'.2.2.2 : (s.pages q).pvd = _).trans (hr'.2.2.2 : (s.pages r).pvd = _).symm) hi

end evictor

end State

end FastMap
