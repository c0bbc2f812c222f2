import FastMap.Requests
import FastMap.Writers

/-!
# What a sync leaves unwritten

`write_dirty_pages` finds its work in the dirty trees of the file. An evictor takes pages out of
these trees long before it writes them, so a sync that runs beside it can find all trees empty and
return while a page that was dirty when it started is still in the evictor's hands. The other gap is
that of the merged requests: a batch with a run of more than 256 pages loses one of them. Without
the two, whatever the order of the steps, every page that was dirty has been written when the call
returns.
-/

namespace FastMap

variable {C : Type*}

namespace Pc

/-- The pages that a writer has taken out of their dirty trees and has not yet written. -/
def unwritten : Pc → Multiset PageId
  | .evict (.scan c) => c.pgs
  | .evict (.grab c q) => q ::ₘ c.pgs
  | .evict (.back c q) => q ::ₘ c.pgs
  | .evict (.clear _ pgs) => pgs
  | .evict (.write _ pgs) => pgs
  | .sync _ (.unlock h _) => heapPages h
  | .sync a x => (Pc.sync a x).locks
  | _ => 0

/-- The pages that an evictor has written and not yet marked clean. -/
def written : Pc → List PageId
  | .evict (.insert _ _ todo) => todo
  | _ => []

/-- The pages that a sync has marked clean and not yet written. -/
def batch : Pc → List PageId
  | .sync _ (.min _ pgs) => pgs
  | .sync _ (.pull _ _ pgs) => pgs
  | .sync _ (.clear _ _ pgs) => pgs
  | .sync _ (.remove _ _ pgs) => pgs
  | .sync _ (.enqueue _ _ pgs) => pgs
  | .sync _ (.write _ pgs) => pgs
  | _ => []

/-- The page that the next step marks clean. -/
def cleans : Pc → Option PageId
  | .evict (.insert _ _ (p :: _)) => some p
  | .sync _ (.enqueue p _ _) => some p
  | _ => none

/-- The batch that the next step writes. -/
def writes : Pc → List PageId
  | .evict (.write _ pgs) => pgs
  | .sync _ (.write _ pgs) => pgs
  | _ => []

lemma unwritten_of_transit {pc : Pc} {c : Scan} {p : PageId} (h : pc.transit = some (c, p)) :
    p ∈ pc.unwritten := by
  unfold transit at h
  split at h
  · obtain ⟨rfl, rfl⟩ := Prod.mk.inj (Option.some.inj h)
    simp [unwritten]
  · obtain ⟨rfl, rfl⟩ := Prod.mk.inj (Option.some.inj h)
    simp [unwritten]
  · cases h

end Pc

namespace State

variable {e : Env C} {s s' s'' : State C} {p : PageId} {cl : Option PageId}

/-! ### What the writers leave alone -/

/-- No page has changed its block or its content, no page has become dirty, at most the page `cl`
has become clean, and nothing has entered a dirty tree. -/
structure Tame (cl : Option PageId) (s s' : State C) : Prop where
  pvds : s'.pvds = s.pvds
  pvd (p : PageId) : (s'.pages p).pvd = (s.pages p).pvd
  index (p : PageId) : (s'.pages p).index = (s.pages p).index
  content (p : PageId) : (s'.pages p).content = (s.pages p).content
  dirty {p : PageId} : (s'.pages p).isDirty = true → (s.pages p).isDirty = true
  kept {p : PageId} : (s.pages p).isDirty = true → (s'.pages p).isDirty = true ∨ cl = some p
  tree {v : PvdId} {cpu : ℕ} {i : Pgoff} {p : PageId} :
    (s'.trees ⟨.dirty, v, cpu⟩).lookup i = some p → (s.trees ⟨.dirty, v, cpu⟩).lookup i = some p

lemma Tame.of_pages (hv : s'.pvds = s.pvds) (hp : s'.pages = s.pages) (ht : s'.trees = s.trees) :
    Tame cl s s' where
  pvds := hv
  pvd p := by rw [hp]
  index p := by rw [hp]
  content p := by rw [hp]
  dirty h := by rwa [hp] at h
  kept h := .inl (by rwa [hp])
  tree h := by rwa [ht] at h

lemma Tame.refl (s : State C) : Tame cl s s := .of_pages rfl rfl rfl

lemma Tame.trans (h : Tame none s s') (h' : Tame cl s' s'') : Tame cl s s'' where
  pvds := h'.pvds.trans h.pvds
  pvd p := (h'.pvd p).trans (h.pvd p)
  index p := (h'.index p).trans (h.index p)
  content p := (h'.content p).trans (h.content p)
  dirty hp := h.dirty (h'.dirty hp)
  kept hp := (h.kept hp).elim h'.kept fun hn => absurd hn (by simp)
  tree hp := h.tree (h'.tree hp)

/-- One page changes, in fields that do not matter here. -/
lemma Tame.of_update {t : TaggedPage C} (hv : s'.pvds = s.pvds)
    (hp : s'.pages = Function.update s.pages p t) (ht : s'.trees = s.trees)
    (h₁ : t.pvd = (s.pages p).pvd) (h₂ : t.index = (s.pages p).index)
    (h₃ : t.content = (s.pages p).content) (h₄ : t.isDirty = true → (s.pages p).isDirty = true)
    (h₅ : (s.pages p).isDirty = true → t.isDirty = true ∨ cl = some p) : Tame cl s s' := by
  have hself : s'.pages p = t := by rw [hp, Function.update_self]
  have hsame : ∀ q, q ≠ p → s'.pages q = s.pages q := fun q hq => by
    rw [hp, Function.update_of_ne hq]
  refine ⟨hv, fun q => ?_, fun q => ?_, fun q => ?_, fun {q} => ?_, fun {q} => ?_,
    fun hl => by rwa [ht] at hl⟩
  all_goals by_cases hq : q = p
  all_goals first | (subst hq; rw [hself]; assumption) | rw [hsame q hq]
  · exact id
  · exact .inl

lemma tame_trylockTp (s : State C) (p : PageId) (i : Pgoff) : Tame cl s (s.trylockTp p i).2 := by
  rcases trylockTp_cases s p i with ⟨r, -, h⟩ | ⟨-, -, -, h⟩
  · rw [h]
    exact .refl s
  · rw [h]
    exact .of_update rfl rfl rfl rfl rfl rfl id .inl

lemma tame_unlockTp (s : State C) (p : PageId) : Tame cl s (s.unlockTp p) :=
  .of_update rfl rfl rfl rfl rfl rfl id .inl

lemma tame_remove (s : State C) (q : Queue) (p : PageId) : Tame cl s (s.remove q p) :=
  .of_update rfl rfl rfl rfl rfl rfl id .inl

lemma tame_enqueue (s : State C) (q : Queue) (p : PageId) : Tame cl s (s.enqueue q p).2 := by
  unfold enqueue
  split_ifs
  · exact .of_pages rfl rfl rfl
  · exact .of_update rfl rfl rfl rfl rfl rfl id .inl

lemma tame_setDirty (s : State C) (p : PageId) : Tame (some p) s (s.setDirty p false) := by
  refine .of_update rfl rfl rfl rfl rfl rfl (fun h => ?_) fun _ => .inr rfl
  exact absurd h (by simp)

lemma tame_insertPage (s : State C) (p : PageId) : Tame (some p) s (s.insertPage p true) :=
  (tame_enqueue s _ p).trans (tame_setDirty _ p)

lemma tame_treeErase (s : State C) (t : TreeId) (i : Pgoff) : Tame cl s (s.treeErase t i) where
  pvds := rfl
  pvd _ := rfl
  index _ := rfl
  content _ := rfl
  dirty := id
  kept := .inl
  tree {v cpu j p} h := by
    simp only [treeErase] at h
    by_cases ht : (⟨.dirty, v, cpu⟩ : TreeId) = t
    · rw [ht] at h ⊢
      rw [Function.update_self, KeyMap.lookup_erase] at h
      split_ifs at h
      exact h
    · rwa [Function.update_of_ne ht] at h

lemma tame_removeFromDirtyTree (e : Env C) (s : State C) (p : PageId) :
    Tame cl s (s.removeFromDirtyTree e p) := by
  unfold removeFromDirtyTree
  split
  · exact .refl s
  · exact tame_treeErase s _ _

lemma tame_clearMappings (s : State C) (p : PageId) : Tame none s (s.clearMappings p) := by
  unfold clearMappings
  induction List.finRange maxRmapsPerPage generalizing s with
  | nil => exact .refl s
  | cons i l ih =>
    rw [List.foldl_cons]
    refine Tame.trans ?_ (ih _)
    dsimp only
    split_ifs
    · unfold wrprotect
      split
      · split_ifs <;> exact .of_pages rfl rfl rfl
      · exact .refl s
    · exact .refl s

lemma tame_foldl_clearMappings (s : State C) (pgs : List PageId) :
    Tame none s (pgs.foldl clearMappings s) := by
  induction pgs generalizing s with
  | nil => exact .refl s
  | cons p pgs ih =>
    rw [List.foldl_cons]
    exact (tame_clearMappings s p).trans (ih _)

lemma tame_evDeq (s : State C) (p : PageId) : Tame none s (evDeq s p).2 := by
  have h : Tame none s (s.trylockTp p ulongMax).2 := tame_trylockTp s p ulongMax
  unfold evDeq
  exact h

lemma tame_dequeueIf (s : State C) (q : Queue) : Tame none s (s.dequeueIf q evDeq).2 := by
  unfold dequeueIf
  split_ifs
  · exact .refl s
  · split
    · exact .refl s
    · rename_i p _ _
      have h := tame_evDeq s p
      split
      all_goals
        rename_i heq
        rw [heq] at h
      · exact h.trans (tame_remove _ q p)
      · exact h.trans (.of_pages rfl rfl rfl)

lemma tame_removeIf (s : State C) (q : Queue) (p : PageId) :
    Tame none s (s.removeIf q p evDeq).2 := by
  have h := tame_evDeq s p
  unfold removeIf
  split
  all_goals
    rename_i heq
    rw [heq] at h
  · exact h.trans (tame_remove _ q p)
  · exact h

lemma tame_pullOnce {v : PvdId} {cpu : ℕ} {h h' : MinHeap} {b : Option Bool}
    (hs : s.pullOnce v cpu h = .ok (b, s', h')) : Tame none s s' := by
  unfold pullOnce at hs
  split at hs
  · obtain ⟨-, rfl, -⟩ : _ ∧ s = s' ∧ _ := by simpa using hs
    exact .refl s
  · rename_i k p _
    have ht : Tame none s (s.trylockTp p ulongMax).2 := tame_trylockTp s p ulongMax
    split at hs
    all_goals
      rename_i heq
      rw [heq] at ht
    · split at hs
      · exact absurd hs (by simp)
      · obtain ⟨-, rfl, -⟩ : _ ∧ _ = s' ∧ _ := by simpa using hs
        exact ht.trans (tame_treeErase _ _ _)
    · obtain ⟨-, rfl, -⟩ : _ ∧ _ = s' ∧ _ := by simpa using hs
      exact ht

/-! ### The steps of the writers -/

/-- An evictor that puts no page back. -/
lemma tame_stepEvict {x : EvictPc} {pc' : Pc} (hx : ∀ c q, x ≠ .back c q)
    (hs : s.stepEvict e x = .ok (s', pc')) : Tame (Pc.evict x).cleans s s' := by
  cases x with
  | take id =>
    have h := tame_dequeueIf s (.dirty id)
    simp only [stepEvict] at hs
    split at hs
    all_goals
      rename_i heq
      rw [heq] at h
      rw [← (Prod.mk.inj (Except.ok.inj hs)).1]
      exact h
  | untree id p =>
    simp only [stepEvict] at hs
    split at hs
    · cases hs
    · rw [← (Prod.mk.inj (Except.ok.inj hs)).1]
      exact tame_removeFromDirtyTree e s p
  | scan c =>
    simp only [stepEvict] at hs
    split_ifs at hs
    · rw [← (Prod.mk.inj (Except.ok.inj hs)).1]
      exact .refl s
    · split at hs
      · rw [← (Prod.mk.inj (Except.ok.inj hs)).1]
        exact .refl s
      · rw [← (Prod.mk.inj (Except.ok.inj hs)).1]
        exact tame_treeErase s _ _
  | grab c q =>
    have h := tame_removeIf s (.dirty c.id) q
    simp only [stepEvict] at hs
    split at hs
    all_goals
      rename_i heq
      rw [heq] at h
      rw [← (Prod.mk.inj (Except.ok.inj hs)).1]
      exact h
  | back c q => exact absurd rfl (hx c q)
  | clear v pgs =>
    rw [← (Prod.mk.inj (Except.ok.inj hs)).1]
    exact tame_foldl_clearMappings s pgs
  | write v pgs =>
    rw [← (Prod.mk.inj (Except.ok.inj hs)).1]
    exact .of_pages rfl rfl rfl
  | insert v done todo =>
    cases todo with
    | nil =>
      rw [← (Prod.mk.inj (Except.ok.inj hs)).1]
      exact .refl s
    | cons p todo =>
      rw [← (Prod.mk.inj (Except.ok.inj hs)).1]
      exact tame_insertPage s p
  | unlock todo =>
    cases todo with
    | nil =>
      rw [← (Prod.mk.inj (Except.ok.inj hs)).1]
      exact .refl s
    | cons p todo =>
      rw [← (Prod.mk.inj (Except.ok.inj hs)).1]
      exact tame_unlockTp s p

lemma tame_stepSync {a : SyncArgs} {x : SyncPc} {pc' : Pc}
    (hs : s.stepSync e a x = .ok (s', pc')) : Tame (Pc.sync a x).cleans s s' := by
  cases x with
  | fill cpus h =>
    cases cpus with
    | nil =>
      rw [← (Prod.mk.inj (Except.ok.inj hs)).1]
      exact .refl s
    | cons cpu cpus =>
      obtain ⟨b, h', hpull, -⟩ := stepSync_fill_cons hs
      exact tame_pullOnce hpull
  | min h pgs =>
    simp only [stepSync] at hs
    split_ifs at hs
    all_goals
      rw [← (Prod.mk.inj (Except.ok.inj hs)).1]
      exact .refl s
  | pull n h pgs =>
    obtain ⟨b, h', hpull, -⟩ := stepSync_pull hs
    exact tame_pullOnce hpull
  | clear p h pgs =>
    rw [← (Prod.mk.inj (Except.ok.inj hs)).1]
    exact tame_clearMappings s p
  | remove p h pgs =>
    rw [← (Prod.mk.inj (Except.ok.inj hs)).1]
    exact tame_remove s _ p
  | enqueue p h pgs =>
    simp only [stepSync] at hs
    split_ifs at hs
    all_goals
      rw [← (Prod.mk.inj (Except.ok.inj hs)).1]
      exact (tame_enqueue s _ p).trans (tame_setDirty _ p)
  | write h pgs =>
    rw [← (Prod.mk.inj (Except.ok.inj hs)).1]
    exact .of_pages rfl rfl rfl
  | unlock h todo =>
    cases todo with
    | nil =>
      rw [← (Prod.mk.inj (Except.ok.inj hs)).1]
      exact .refl s
    | cons p todo =>
      rw [← (Prod.mk.inj (Except.ok.inj hs)).1]
      exact tame_unlockTp s p

/-- How the batch of a sync changes. -/
lemma batch_stepSync {a : SyncArgs} {x : SyncPc} {pc' : Pc} (hs : s.stepSync e a x = .ok (s', pc'))
    (hp : p ∈ (Pc.sync a x).batch ∨ (Pc.sync a x).cleans = some p) :
    p ∈ pc'.batch ∨ ∃ h pgs, x = .write h pgs ∧ p ∈ pgs := by
  cases x with
  | fill cpus h => simp [Pc.batch, Pc.cleans] at hp
  | unlock h todo => simp [Pc.batch, Pc.cleans] at hp
  | min h pgs =>
    have hp : p ∈ pgs := by simpa [Pc.batch, Pc.cleans] using hp
    simp only [stepSync] at hs
    split_ifs at hs with hz hnil
    · rw [hnil] at hp
      exact absurd hp List.not_mem_nil
    all_goals
      rw [← (Prod.mk.inj (Except.ok.inj hs)).2]
      exact .inl hp
  | pull n h pgs =>
    have hp : p ∈ pgs := by simpa [Pc.batch, Pc.cleans] using hp
    simp only [stepSync] at hs
    split at hs
    · cases hs
    · rw [← (Prod.mk.inj (Except.ok.inj hs)).2]
      exact .inl hp
    · rw [← (Prod.mk.inj (Except.ok.inj hs)).2, startCleanup]
      split <;> exact .inl hp
  | clear q h pgs =>
    rw [← (Prod.mk.inj (Except.ok.inj hs)).2]
    exact .inl (by simpa [Pc.batch, Pc.cleans] using hp)
  | remove q h pgs =>
    rw [← (Prod.mk.inj (Except.ok.inj hs)).2]
    exact .inl (by simpa [Pc.batch, Pc.cleans] using hp)
  | enqueue q h pgs =>
    have hp : p ∈ pgs ++ [q] := by simpa [Pc.batch, Pc.cleans, eq_comm] using hp
    simp only [stepSync] at hs
    split_ifs at hs
    all_goals
      rw [← (Prod.mk.inj (Except.ok.inj hs)).2]
      exact .inl hp
  | write h pgs => exact .inr ⟨h, pgs, rfl, by simpa [Pc.batch, Pc.cleans] using hp⟩

/-- What an evictor has written it has written in one step. -/
lemma written_stepEvict {x : EvictPc} {pc' : Pc} (hs : s.stepEvict e x = .ok (s', pc'))
    (hp : p ∈ pc'.written) :
    p ∈ (Pc.evict x).written ∨ ∃ v pgs, x = .write v pgs ∧ p ∈ pgs := by
  cases x with
  | take id | grab c q | untree id q =>
    simp only [stepEvict] at hs
    split at hs
    all_goals cases hs
    all_goals exact absurd hp List.not_mem_nil
  | scan c =>
    simp only [stepEvict] at hs
    split_ifs at hs
    · rw [← (Prod.mk.inj (Except.ok.inj hs)).2] at hp
      exact absurd hp List.not_mem_nil
    · split at hs
      all_goals
        rw [← (Prod.mk.inj (Except.ok.inj hs)).2] at hp
        exact absurd hp List.not_mem_nil
  | back c q | clear v pgs =>
    rw [← (Prod.mk.inj (Except.ok.inj hs)).2] at hp
    exact absurd hp List.not_mem_nil
  | write v pgs =>
    rw [← (Prod.mk.inj (Except.ok.inj hs)).2] at hp
    exact .inr ⟨v, pgs, rfl, hp⟩
  | insert v done todo =>
    cases todo with
    | nil =>
      rw [← (Prod.mk.inj (Except.ok.inj hs)).2] at hp
      exact absurd hp List.not_mem_nil
    | cons q todo =>
      rw [← (Prod.mk.inj (Except.ok.inj hs)).2] at hp
      exact .inl (List.mem_cons_of_mem q hp)
  | unlock todo =>
    cases todo
    all_goals
      rw [← (Prod.mk.inj (Except.ok.inj hs)).2] at hp
      exact absurd hp List.not_mem_nil

/-- No page has changed its block or its content, and none has become dirty. -/
structure SameBlocks (s s' : State C) : Prop where
  pvds : s'.pvds = s.pvds
  pvd (p : PageId) : (s'.pages p).pvd = (s.pages p).pvd
  index (p : PageId) : (s'.pages p).index = (s.pages p).index
  content (p : PageId) : (s'.pages p).content = (s.pages p).content
  dirty {p : PageId} : (s'.pages p).isDirty = true → (s.pages p).isDirty = true

lemma SameBlocks.refl (s : State C) : SameBlocks s s :=
  ⟨rfl, fun _ => rfl, fun _ => rfl, fun _ => rfl, id⟩

lemma SameBlocks.tame (h : SameBlocks s s') (h' : Tame cl s' s'') : SameBlocks s s'' where
  pvds := h'.pvds.trans h.pvds
  pvd p := (h'.pvd p).trans (h.pvd p)
  index p := (h'.index p).trans (h.index p)
  content p := (h'.content p).trans (h.content p)
  dirty hp := h.dirty (h'.dirty hp)

/-- What a write of a page hands to the device. -/
def blockOf (s : State C) (v : PvdId) (p : PageId) : BlockWrite C :=
  ⟨(s.pvds v).bk, (s.pages p).index, (s.pages p).content⟩

lemma SameBlocks.blockOf (h : SameBlocks s s') (v : PvdId) (p : PageId) :
    s'.blockOf v p = s.blockOf v p := by
  simp only [State.blockOf, h.pvds, h.index, h.content]

end State

/-! ### A sync among evictors -/

/-- The trees that a sync has still to look at. -/
def SyncPc.scans : SyncPc → Multiset ℕ
  | .fill cpus h => cpus + h.elems.map HeapNode.cpu
  | .min h _ => h.elems.map HeapNode.cpu
  | .pull n h _ => n.cpu ::ₘ h.elems.map HeapNode.cpu
  | .clear _ h _ => h.elems.map HeapNode.cpu
  | .remove _ h _ => h.elems.map HeapNode.cpu
  | .enqueue _ h _ => h.elems.map HeapNode.cpu
  | .write h _ => h.elems.map HeapNode.cpu
  | .unlock h _ => h.elems.map HeapNode.cpu

namespace Machine

open State

variable {e : Env C} {v : PvdId} {s₀ s' : State C} {m m' : Machine C} {t : Tid} {pc' : Pc}
  {l : Tid × Act C} {p q : PageId}

/-- The next step of a thread does not run into one of the two gaps. -/
structure Careful (v : PvdId) (m : Machine C) (t : Tid) : Prop where
  /-- A batch of the file that an evictor writes has no run of more than 256 pages. -/
  evict {pgs : List PageId} : m.pc t = .evict (.write v pgs) →
    ¬LongRun (m.st.indices pgs) pgs.length
  /-- Nor has one that a sync writes. -/
  sync {cb : Cleanup} {h : MinHeap} {pgs : List PageId} : m.pc t = .sync ⟨cb, v⟩ (.write h pgs) →
    ¬LongRun (m.st.indices pgs) pgs.length
  /-- When a sync returns, nobody has a page of the file in hand that he has not yet written. -/
  returns {cb : Cleanup} {h : MinHeap} : m.pc t = .sync ⟨cb, v⟩ (.min h []) → h.size = 0 →
    ∀ u p, p ∈ (m.pc u).unwritten → (m.st.pages p).pvd ≠ some v

/-- A step of an evictor or of the sync, in which only evictors start new rounds. -/
def StepsBeside (e : Env C) (m : Machine C) (l : Tid × Act C) (m' : Machine C) : Prop :=
  (∀ k, l.2 = .start k → k = .evict) ∧ Steps e m l m'

/-- Such a step that is careful with the pages of a file. -/
def StepsCareful (e : Env C) (v : PvdId) (m : Machine C) (l : Tid × Act C) (m' : Machine C) :
    Prop :=
  Careful v m l.1 ∧ StepsBeside e m l m'

/-- Evictors and one sync of the file `v` are at work since the state `s₀`. A page of the file that
was dirty there has been written, is dirty, or is in the batch of the sync. -/
structure Covers (e : Env C) (v : PvdId) (s₀ : State C) (m : Machine C) : Prop where
  inv : Inv e m
  same : SameBlocks s₀ m.st
  threads (t : Tid) : m.pc t = .idle ∨
    (t ≠ .user 0 ∧ ∃ x, m.pc t = .evict x ∧ ∀ c q, x ≠ .back c q) ∨
    t = .user 0 ∧ ∃ cb x, m.pc t = .sync ⟨cb, v⟩ x
  covered {p : PageId} : (s₀.pages p).isDirty = true → (s₀.pages p).pvd = some v →
    s₀.blockOf v p ∈ m.log ∨ (m.st.pages p).isDirty = true ∨ p ∈ (m.pc (.user 0)).batch
  written {t : Tid} {p : PageId} : p ∈ (m.pc t).written → (s₀.pages p).pvd = some v →
    s₀.blockOf v p ∈ m.log

lemma covers_quiescent (h : s₀.Quiet e) : Covers e v s₀ (quiescent s₀) where
  inv := inv_quiescent h
  same := .refl s₀
  threads _ := .inl rfl
  covered hd _ := .inr (.inl hd)
  written hp := absurd hp List.not_mem_nil

/-- A page that an evictor has taken out of its tree and not yet locked is not held by anybody. -/
lemma Covers.unheld_of_transit (h : Covers e v s₀ m) (hm : m.Moved q) (u : Tid) :
    ¬(m.pc u).Holds q := by
  intro hh
  have hfresh : (m.pc u).fresh = none := by
    rcases h.threads u with hu | ⟨-, x, hu, -⟩ | ⟨-, cb, x, hu⟩ <;> rw [hu] <;> rfl
  have hl : q ∈ (m.pc u).locks := hh.resolve_right (by simp [hfresh])
  obtain ⟨hat, hk⟩ := (h.inv.page q).held hh
  have htree := hat.moved hm
  by_cases hc : q ∈ (m.pc u).collected
  · rcases Pc.stage_of_collected hc with hg | hg | hg <;> simp [hg] at htree
  · rcases h.threads u with hu | ⟨-, x, hu, -⟩ | ⟨-, cb, x, hu⟩
    · simp [hu, Pc.locks] at hl
    · rw [hu] at hl hc hk
      cases x with
      | untree id p' => exact h.inv.not_moved_of_queue (by rw [hu]; rfl) (by rw [hu]; rfl) hk hm
      | _ => exact hc hl
    · rw [hu] at hl hc
      exact hc hl

/-- So the evictor locks it. -/
lemma Covers.not_back (h : Covers e v s₀ m) {x : EvictPc} (hpc : m.pc t = .evict x)
    (hs : m.st.stepEvict e x = .ok (s', pc')) (c : Scan) : pc' ≠ .evict (.back c q) := by
  rintro rfl
  cases x with
  | grab c' q' =>
    have hm : m.Moved q' := ⟨t, c', by rw [hpc]; rfl⟩
    have hrest := (h.inv.page q').rest (h.unheld_of_transit hm)
    have hat := hrest.phase.resolve_left fun hi => hi.2 hm
    have hdeq : evDeq m.st q' = (true, m.st.modifyPage q' fun t => { t with locked := true }) := by
      rw [evDeq, trylockTp_eq hat.inUse hrest.unlocked]
      rfl
    simp [stepEvict, removeIf, hdeq] at hs
  | take id | untree id p =>
    simp only [stepEvict] at hs
    split at hs <;> cases hs
  | scan c' =>
    simp only [stepEvict] at hs
    split_ifs at hs
    · cases hs
    · split at hs <;> cases hs
  | insert v done todo | unlock todo => cases todo <;> cases hs
  | back c' q' | clear v pgs | write v pgs => cases hs

/-- The block of a page that is written without a long run. -/
lemma Covers.mem_blocks (h : Covers e v s₀ m) (he : e.writeAsync = driverWriter) {pgs : List PageId}
    (hl : ¬LongRun (m.st.indices pgs) pgs.length) (hpgs : ∀ q ∈ pgs, (m.st.pages q).pvd = some v)
    (hp : p ∈ pgs) : s₀.blockOf v p ∈ e.writeAsync (m.st.pvds v).type m.st pgs := by
  rw [← h.same.blockOf v p]
  exact (writesBatch_of_not_longRun he v hl m.st (fun q hq => ⟨hpgs q hq, rfl⟩) _).mpr ⟨p, hp, rfl⟩

lemma Covers.unclaimed (h : Covers e v s₀ m) : Unclaimed e m l := by
  intro c r p s₁ _ hpc
  rcases h.threads l.1 with hu | ⟨-, x, hu, -⟩ | ⟨-, cb, x, hu⟩ <;> simp [hu] at hpc

/-- A new round of an evictor, or the call of the sync. -/
lemma Covers.start (h : Covers e v s₀ m) {k : Task} (hidle : m.pc t = .idle)
    (hs : m.st.start e t k = .ok pc') (hk : k = .evict ∨ t = .user 0 ∧ ∃ cb, k = .sync cb v) :
    Covers e v s₀ (m.put t m.st pc' m.log) := by
  have hpc : (t ≠ .user 0 ∧ ∃ id, pc' = .evict (.take id)) ∨
      t = .user 0 ∧ ∃ cb x, pc' = .sync ⟨cb, v⟩ (.fill x minHeapCreate) := by
    rcases start_inv hs with ⟨_, _, _, rfl, -⟩ | ⟨_, _, _, _, _, rfl, -⟩ | ⟨_, rfl, -⟩ |
      ⟨id, -, rfl, rfl⟩ | ⟨cb, v', rfl, rfl⟩
    · simp at hk
    · simp at hk
    · simp at hk
    · exact .inl ⟨by simp, id, rfl⟩
    · obtain ⟨ht, cb', hk⟩ := hk.resolve_left (by simp)
      obtain ⟨rfl, rfl⟩ := Task.sync.inj hk
      exact .inr ⟨ht, _, _, rfl⟩
  have hawait : ∀ r q i, pc'.await ≠ some (r, q, i) := by
    intro r q i
    rcases hpc with ⟨-, id, rfl⟩ | ⟨-, cb, x, rfl⟩ <;> simp [Pc.await]
  have hnew : pc'.batch = [] ∧ pc'.written = [] := by
    rcases hpc with ⟨-, id, rfl⟩ | ⟨-, cb, x, rfl⟩ <;> exact ⟨rfl, rfl⟩
  refine ⟨h.inv.start_of_await hidle hs fun r q i hq => absurd hq (hawait r q i), h.same,
    fun u => ?_, fun {p} hd hv => ?_, fun {u p} hp => ?_⟩
  · by_cases hu : u = t
    · subst hu
      rw [put_pc_self]
      rcases hpc with ⟨ht, id, rfl⟩ | ⟨ht, cb, x, rfl⟩
      · exact .inr (.inl ⟨ht, _, rfl, by simp⟩)
      · exact .inr (.inr ⟨ht, cb, _, rfl⟩)
    · rw [put_pc_of_ne hu]
      exact h.threads u
  · by_cases ht : Tid.user 0 = t
    · rw [← ht] at hidle ⊢
      rw [put_pc_self, hnew.1]
      have hc := h.covered hd hv
      rwa [hidle] at hc
    · rw [put_pc_of_ne ht]
      exact h.covered hd hv
  · by_cases hu : u = t
    · subst hu
      rw [put_pc_self, hnew.2] at hp
      exact absurd hp List.not_mem_nil
    · rw [put_pc_of_ne hu] at hp
      exact h.written hp

/-- A step of an evictor. -/
lemma Covers.evict (h : Covers e v s₀ m) (he : e.writeAsync = driverWriter) {x : EvictPc}
    {c : Choice C} (hpc : m.pc t = .evict x) (hc : Careful v m t)
    (hs : m.st.stepThread e c (m.pc t) = .ok (s', pc')) :
    Covers e v s₀ (m.put t s' pc' (m.log ++ m.st.blocks e (m.pc t))) := by
  have hs' : m.st.stepEvict e x = .ok (s', pc') := by
    rw [hpc] at hs
    exact hs
  obtain ⟨ht, hback⟩ : t ≠ .user 0 ∧ ∀ c q, x ≠ .back c q := by
    rcases h.threads t with hu | ⟨ht, y, hu, hy⟩ | ⟨-, cb, y, hu⟩
    · simp [hpc] at hu
    · obtain rfl := Pc.evict.inj (hpc.symm.trans hu)
      exact ⟨ht, hy⟩
    · simp [hpc] at hu
  have htame := tame_stepEvict hback hs'
  refine ⟨h.inv.stepThread h.unclaimed hs, h.same.tame htame, fun u => ?_, fun {p} hd hv => ?_,
    fun {u p} hp hv => ?_⟩
  · by_cases hu : u = t
    · subst hu
      rw [put_pc_self]
      rcases frame_stepEvict hs' with hf | hf
      · cases pc' with
        | evict y =>
          refine .inr (.inl ⟨ht, y, rfl, fun c q hy => ?_⟩)
          exact h.not_back hpc hs' c (by rw [hy])
        | purge ret y => cases ret <;> simp [Pc.frame] at hf
        | _ => simp [Pc.frame] at hf
      · exact .inl hf
    · rw [put_pc_of_ne hu]
      exact h.threads u
  · rw [put_pc_of_ne (Ne.symm ht)]
    rcases h.covered hd hv with hlog | hdirty | hbatch
    · exact .inl (List.mem_append_left _ hlog)
    · rcases htame.kept hdirty with hdirty | hcl
      · exact .inr (.inl hdirty)
      · -- a page is marked clean after it has been written
        refine .inl (List.mem_append_left _ (h.written (t := t) ?_ hv))
        rw [hpc]
        cases x with
        | insert v' done todo =>
          cases todo with
          | nil => simp [Pc.cleans] at hcl
          | cons q todo =>
            obtain rfl : q = p := by simpa [Pc.cleans] using hcl
            exact List.mem_cons_self
        | _ => simp [Pc.cleans] at hcl
    · exact .inr (.inr hbatch)
  · by_cases hu : u = t
    · subst hu
      rw [put_pc_self] at hp
      rcases written_stepEvict hs' hp with hp | ⟨v', pgs, rfl, hp⟩
      · exact List.mem_append_left _ (h.written (t := u) (by rw [hpc]; exact hp) hv)
      · have hpgs : ∀ q ∈ pgs, (m.st.pages q).pvd = some v' := fun q hq => by
          have hk := ((h.inv.page q).held (t := u) (by rw [hpc]; exact .inl hq)).2
          rw [hpc] at hk
          exact hk
        obtain rfl : v' = v :=
          Option.some.inj ((hpgs p hp).symm.trans ((h.same.pvd p).trans hv))
        rw [hpc]
        exact List.mem_append_right _ (h.mem_blocks he (hc.evict hpc) hpgs hp)
    · rw [put_pc_of_ne hu] at hp
      exact List.mem_append_left _ (h.written hp hv)

lemma pc_of_stepSync {s : State C} {a : SyncArgs} {x : SyncPc}
    (hs : s.stepSync e a x = .ok (s', pc')) : pc' = .idle ∨ ∃ y, pc' = .sync a y := by
  rcases frame_stepSync hs with hf | hf
  · cases pc' with
    | sync a' y =>
      obtain rfl : a' = a := by simpa [Pc.frame] using hf
      exact .inr ⟨y, rfl⟩
    | purge ret y => cases ret <;> simp [Pc.frame] at hf
    | _ => simp [Pc.frame] at hf
  · exact .inl hf

/-- A step of the sync. -/
lemma Covers.sync (h : Covers e v s₀ m) (he : e.writeAsync = driverWriter) {cb : Cleanup}
    {x : SyncPc} {c : Choice C} (hpc : m.pc (.user 0) = .sync ⟨cb, v⟩ x)
    (hc : Careful v m (.user 0))
    (hs : m.st.stepThread e c (m.pc (.user 0)) = .ok (s', pc')) :
    Covers e v s₀ (m.put (.user 0) s' pc' (m.log ++ m.st.blocks e (m.pc (.user 0)))) := by
  have hs' : m.st.stepSync e ⟨cb, v⟩ x = .ok (s', pc') := by
    rw [hpc] at hs
    exact hs
  have htame := tame_stepSync hs'
  have hpc' := pc_of_stepSync hs'
  refine ⟨h.inv.stepThread h.unclaimed hs, h.same.tame htame, fun u => ?_, fun {p} hd hv => ?_,
    fun {u p} hp hv => ?_⟩
  · by_cases hu : u = .user 0
    · subst hu
      rw [put_pc_self]
      exact hpc'.imp_right fun ⟨y, hy⟩ => .inr ⟨rfl, cb, y, hy⟩
    · rw [put_pc_of_ne hu]
      exact h.threads u
  · rw [put_pc_self]
    -- the batch loses its pages when it is written
    have hbatch : p ∈ (Pc.sync ⟨cb, v⟩ x).batch ∨ (Pc.sync ⟨cb, v⟩ x).cleans = some p →
        s₀.blockOf v p ∈ m.log ++ m.st.blocks e (m.pc (.user 0)) ∨ p ∈ pc'.batch := by
      intro hp
      rcases batch_stepSync hs' hp with hp | ⟨hh, pgs, rfl, hmem⟩
      · exact .inr hp
      · have hpgs : ∀ q ∈ pgs, (m.st.pages q).pvd = some v := fun q hq => by
          have hk := ((h.inv.page q).held (t := .user 0)
            (by rw [hpc]; exact .inl (Multiset.mem_add.mpr (.inr hq)))).2
          rw [hpc] at hk
          exact hk
        rw [hpc]
        exact .inl (List.mem_append_right _ (h.mem_blocks he (hc.sync hpc) hpgs hmem))
    rcases h.covered hd hv with hlog | hdirty | hp
    · exact .inl (List.mem_append_left _ hlog)
    · rcases htame.kept hdirty with hdirty | hcl
      · exact .inr (.inl hdirty)
      · exact (hbatch (.inr hcl)).imp_right .inr
    · rw [hpc] at hp
      exact (hbatch (.inl hp)).imp_right .inr
  · by_cases hu : u = .user 0
    · subst hu
      rw [put_pc_self] at hp
      rcases hpc' with rfl | ⟨y, rfl⟩ <;> exact absurd hp List.not_mem_nil
    · rw [put_pc_of_ne hu] at hp
      exact List.mem_append_left _ (h.written hp hv)

lemma Covers.step (h : Covers e v s₀ m) (he : e.writeAsync = driverWriter)
    (hs : StepsCareful e v m l m') : Covers e v s₀ m' := by
  obtain ⟨hc, hev, hs⟩ := hs
  rcases steps_cases hs with ⟨k, pc', hk, hidle, hst, rfl⟩ | ⟨c, s', pc', -, hst, rfl⟩
  · exact h.start hidle hst (.inl (hev k hk))
  · rcases h.threads l.1 with hu | ⟨-, x, hu, -⟩ | ⟨ht, cb, x, hu⟩
    · rw [hu] at hst
      cases hst
    · exact h.evict he hu hc hst
    · rw [ht] at hu hc hst ⊢
      exact h.sync he hu hc hst

/-! ### The trees that the sync has seen empty -/

/-- The dirty trees that a sync is done with are empty. -/
def Emptied (e : Env C) (v : PvdId) (s : State C) (x : SyncPc) : Prop :=
  ∀ cpu < e.ncpus, cpu ∉ x.scans → ∀ i, (s.trees ⟨.dirty, v, cpu⟩).lookup i = none

lemma Emptied.tame {s : State C} {x : SyncPc} {cl : Option PageId} (h : Emptied e v s x)
    (ht : Tame cl s s') : Emptied e v s' x := by
  intro cpu hcpu hx i
  by_contra hne
  obtain ⟨p, hp⟩ := Option.ne_none_iff_exists'.mp hne
  have hp₀ := ht.tree hp
  rw [h cpu hcpu hx i] at hp₀
  cases hp₀

/-- The heap gets a page of the tree, or the tree is empty, unless the page cannot be locked. -/
lemma cpus_pullOnce {s : State C} (h : s.Placed e) {cpu : ℕ} {hp hp' : MinHeap} {b : Option Bool}
    (hs : s.pullOnce v cpu hp = .ok (b, s', hp')) :
    b = some false ∧ hp' = hp ∨
      b ≠ some false ∧ ∀ cpu' ∈ cpu ::ₘ hp.elems.map HeapNode.cpu,
        cpu' ∈ hp'.elems.map HeapNode.cpu ∨
          ∀ i, (s.trees ⟨.dirty, v, cpu'⟩).lookup i = none := by
  rcases h.pullOnce_cases hs with ⟨rfl, -, rfl, hf⟩ | ⟨rfl, -, rfl⟩ | ⟨n, rfl, helems, rfl, -⟩
  · refine .inr ⟨by simp, fun cpu' hc => ?_⟩
    rcases Multiset.mem_cons.mp hc with rfl | hc
    · exact .inr (KeyMap.lookup_of_first?_none hf)
    · exact .inl hc
  · exact .inl ⟨rfl, rfl⟩
  · refine .inr ⟨by simp, fun cpu' hc => .inl ?_⟩
    rw [helems, Multiset.map_cons]
    exact hc

/-- A sync is done with a tree only when it has found it empty. -/
lemma scans_stepSync {s : State C} (h : s.Placed e) {a : SyncArgs} {x y : SyncPc}
    (hs : s.stepSync e a x = .ok (s', .sync a y)) {cpu : ℕ} (hcpu : cpu ∈ x.scans) :
    cpu ∈ y.scans ∨ ∀ i, (s.trees ⟨.dirty, a.pvd, cpu⟩).lookup i = none := by
  cases x with
  | fill cpus hp =>
    cases cpus with
    | nil =>
      cases hs
      exact .inl (by simpa [SyncPc.scans] using hcpu)
    | cons cpu' cpus =>
      obtain ⟨b, hp', hpull, hy⟩ := stepSync_fill_cons hs
      obtain rfl : y = _ := (Pc.sync.inj hy).2
      rcases cpus_pullOnce h hpull with ⟨rfl, rfl⟩ | ⟨hb, hc⟩
      · exact .inl hcpu
      · rw [if_neg hb]
        have hcpu : cpu ∈ cpus ∨ cpu ∈ cpu' ::ₘ hp.elems.map HeapNode.cpu := by
          simp only [SyncPc.scans, Multiset.mem_add, Multiset.mem_coe, List.mem_cons] at hcpu
          rw [Multiset.mem_cons]
          tauto
        rcases hcpu with hcpu | hcpu
        · exact .inl (Multiset.mem_add.mpr (.inl hcpu))
        · exact (hc cpu hcpu).imp_left fun hm => Multiset.mem_add.mpr (.inr hm)
  | min hp pgs =>
    simp only [stepSync] at hs
    split_ifs at hs with hz hnil
    · cases hs
    · cases hs
      exact .inl hcpu
    · rcases hd : minHeapDeleteMin hp with ⟨n, hp'⟩
      rw [hd] at hs
      cases hs
      refine .inl ?_
      simp only [SyncPc.scans, heapPages_deleteMin hz hd, Multiset.map_cons] at hcpu ⊢
      exact hcpu
  | pull n hp pgs =>
    obtain ⟨b, hp', hpull, hy⟩ := stepSync_pull hs
    rcases cpus_pullOnce h hpull with ⟨rfl, rfl⟩ | ⟨hb, hc⟩
    · rw [if_pos rfl] at hy
      obtain rfl : y = _ := (Pc.sync.inj hy).2
      exact .inl hcpu
    · rw [if_neg hb] at hy
      have hscans : y.scans = hp'.elems.map HeapNode.cpu := by
        unfold startCleanup at hy
        split at hy <;> cases hy <;> rfl
      rw [hscans]
      exact hc cpu hcpu
  | clear p hp pgs | remove p hp pgs | write hp pgs =>
    cases hs
    exact .inl hcpu
  | enqueue p hp pgs =>
    simp only [stepSync] at hs
    split_ifs at hs
    all_goals
      cases hs
      exact .inl hcpu
  | unlock hp todo =>
    cases todo
    all_goals
      cases hs
      exact .inl hcpu

/-! ### The return of the sync -/

/-- A dirty page in nobody's hands is in its dirty tree. An evictor that holds a dirty page has
taken it out of its queue only, or has not yet written it, or has just written it. -/
lemma Covers.dirty_cases (h : Covers e v s₀ m) (hd : (m.st.pages p).isDirty = true)
    (hno : ∀ u, p ∉ (m.pc u).unwritten) :
    (m.st.view e p).tree .dirty = true ∨ ∃ u, p ∈ (m.pc u).written := by
  have hmv : ¬m.Moved p := by
    rintro ⟨u, c, hu⟩
    exact hno u (Pc.unwritten_of_transit hu)
  by_cases hh : ∃ u, (m.pc u).Holds p
  · obtain ⟨u, hu⟩ := hh
    have hat := ((h.inv.page p).held hu).1
    rcases h.threads u with hpc | ⟨-, x, hpc, -⟩ | ⟨-, cb, x, hpc⟩
    · rw [hpc] at hu
      simp [Pc.Holds, Pc.locks, Pc.fresh] at hu
    · have hl : p ∈ (Pc.evict x).locks := by
        rw [hpc] at hu
        exact hu.resolve_right (by simp [Pc.fresh])
      have hun := hno u
      rw [hpc] at hat hun
      cases x with
      | take id => exact absurd hl (Multiset.notMem_zero p)
      | untree id q => exact .inl (hat.tree.mpr ⟨rfl, hmv⟩)
      | scan c => exact absurd hl hun
      | grab c q => exact absurd (Multiset.mem_cons_of_mem hl) hun
      | back c q => exact absurd (Multiset.mem_cons_of_mem hl) hun
      | clear v' pgs => exact absurd hl hun
      | write v' pgs => exact absurd hl hun
      | insert v' done todo =>
        have hl : p ∈ done ∨ p ∈ todo := by simpa [Pc.locks] using hl
        rcases hl with hl | hl
        · have hclean := hat.isDirty (b := false) (by simp [Pc.stage, hl])
          exact absurd (hclean.symm.trans hd) (by simp)
        · exact .inr ⟨u, by rw [hpc]; exact hl⟩
      | unlock todo =>
        have hclean := hat.isDirty (b := false) rfl
        exact absurd (hclean.symm.trans hd) (by simp)
    · have hl : p ∈ (Pc.sync ⟨cb, v⟩ x).locks := by
        rw [hpc] at hu
        exact hu.resolve_right (by simp [Pc.fresh])
      have hun := hno u
      rw [hpc] at hat hun
      cases x with
      | unlock hp todo =>
        have hl : p ∈ heapPages hp ∨ p ∈ todo := by simpa [Pc.locks] using hl
        rcases hl with hl | hl
        · exact absurd hl hun
        · have hclean := hat.isDirty (b := false) (by simp [Pc.stage, hl])
          exact absurd (hclean.symm.trans hd) (by simp)
      | _ => exact absurd hl hun
  · have hrest := (h.inv.page p).rest fun u hu => hh ⟨u, hu⟩
    rcases hrest.phase with ⟨hi, -⟩ | hat
    · exact absurd (hi.isDirty.symm.trans hd) (by simp)
    · exact .inl (hat.tree.mpr ⟨hd, hmv⟩)

/-- When the sync returns, all trees have been seen empty, and what was in them has been written. -/
lemma Covers.logged_of_return (h : Covers e v s₀ m) (hc : Careful v m (.user 0)) {cb : Cleanup}
    {hp : MinHeap} (hpc : m.pc (.user 0) = .sync ⟨cb, v⟩ (.min hp [])) (hz : hp.size = 0)
    (hemp : Emptied e v m.st (.min hp [])) (hd : (s₀.pages p).isDirty = true)
    (hv : (s₀.pages p).pvd = some v) : s₀.blockOf v p ∈ m.log := by
  have hvm : (m.st.pages p).pvd = some v := (h.same.pvd p).trans hv
  rcases h.covered hd hv with hlog | hdirty | hbatch
  · exact hlog
  · rcases h.dirty_cases hdirty fun u hu => hc.returns hpc hz u p hu hvm with htree | ⟨u, hu⟩
    · obtain ⟨v', hv', hl⟩ := view_tree.mp htree
      obtain rfl : v' = v := Option.some.inj (hv'.symm.trans hvm)
      have hscans : ∀ cpu, cpu ∉ (SyncPc.min hp []).scans := by
        simp [SyncPc.scans, BinHeap.elems, hz]
      have hnone := hemp _ (Nat.mod_lt (m.st.pages p).index e.ncpus_pos) (hscans _)
        (m.st.pages p).index
      exact absurd (hnone.symm.trans hl) (by simp)
    · exact h.written hu hv
  · rw [hpc] at hbatch
    exact absurd hbatch List.not_mem_nil

/-- The sync is at work, or it has returned and all pages have been written. -/
structure Syncing (e : Env C) (v : PvdId) (s₀ : State C) (m : Machine C) : Prop where
  covers : Covers e v s₀ m
  progress : (∃ cb x, m.pc (.user 0) = .sync ⟨cb, v⟩ x ∧ Emptied e v m.st x) ∨
    m.pc (.user 0) = .idle ∧ ∀ p, (s₀.pages p).isDirty = true → (s₀.pages p).pvd = some v →
      s₀.blockOf v p ∈ m.log

/-- A sync returns when its heap and its batch are empty. -/
lemma return_of_idle {s : State C} {a : SyncArgs} {x : SyncPc}
    (hs : s.stepSync e a x = .ok (s', .idle)) : ∃ hp, x = .min hp [] ∧ hp.size = 0 := by
  cases x with
  | fill cpus hp =>
    cases cpus with
    | nil => cases hs
    | cons cpu cpus =>
      simp only [stepSync] at hs
      split at hs <;> cases hs
  | min hp pgs =>
    simp only [stepSync] at hs
    split_ifs at hs with hz hnil
    · exact ⟨hp, by rw [hnil], hz⟩
    · cases hs
    · cases hs
  | pull n hp pgs =>
    simp only [stepSync] at hs
    split at hs
    · cases hs
    · cases hs
    · have hpc := (Prod.mk.inj (Except.ok.inj hs)).2
      unfold startCleanup at hpc
      split at hpc <;> cases hpc
  | clear p hp pgs | remove p hp pgs | write hp pgs => cases hs
  | enqueue p hp pgs =>
    simp only [stepSync] at hs
    split_ifs at hs <;> cases hs
  | unlock hp todo => cases todo <;> cases hs

lemma Syncing.progress_sync (h : Syncing e v s₀ m) (hc : Careful v m (.user 0)) {cb : Cleanup}
    {x : SyncPc} {c : Choice C} (hpc : m.pc (.user 0) = .sync ⟨cb, v⟩ x)
    (hs : m.st.stepThread e c (m.pc (.user 0)) = .ok (s', pc')) :
    (∃ cb y, pc' = .sync ⟨cb, v⟩ y ∧ Emptied e v s' y) ∨
      pc' = .idle ∧ ∀ p, (s₀.pages p).isDirty = true → (s₀.pages p).pvd = some v →
        s₀.blockOf v p ∈ m.log ++ m.st.blocks e (m.pc (.user 0)) := by
  have hs' : m.st.stepSync e ⟨cb, v⟩ x = .ok (s', pc') := by
    rw [hpc] at hs
    exact hs
  have hemp : Emptied e v m.st x := by
    rcases h.progress with ⟨cb', y, hy, hemp⟩ | ⟨hidle, -⟩
    · obtain ⟨-, rfl⟩ := Pc.sync.inj (hpc.symm.trans hy)
      exact hemp
    · simp [hpc] at hidle
  rcases pc_of_stepSync hs' with rfl | ⟨y, rfl⟩
  · obtain ⟨hp, rfl, hz⟩ := return_of_idle hs'
    exact .inr ⟨rfl, fun p hd hv =>
      List.mem_append_left _ (h.covers.logged_of_return hc hpc hz hemp hd hv)⟩
  · refine .inl ⟨cb, y, rfl, Emptied.tame ?_ (tame_stepSync hs')⟩
    intro cpu hcpu hy
    by_cases hx : cpu ∈ x.scans
    · exact (scans_stepSync h.covers.inv.placed hs' hx).resolve_left hy
    · exact hemp cpu hcpu hx

lemma Syncing.step (h : Syncing e v s₀ m) (he : e.writeAsync = driverWriter)
    (hs : StepsCareful e v m l m') : Syncing e v s₀ m' := by
  refine ⟨h.covers.step he hs, ?_⟩
  obtain ⟨hc, hev, hs⟩ := hs
  rcases steps_cases hs with ⟨k, pc', hk, hidle, hst, rfl⟩ | ⟨c, s', pc', -, hst, rfl⟩
  · have ht : Tid.user 0 ≠ l.1 := by
      intro ht
      rw [← ht, hev k hk] at hst
      cases hst
    rw [put_pc_of_ne ht]
    exact h.progress
  · rcases h.covers.threads l.1 with hu | ⟨ht, x, hu, hback⟩ | ⟨ht, cb, x, hu⟩
    · rw [hu] at hst
      cases hst
    · rw [put_pc_of_ne (Ne.symm ht)]
      rw [hu] at hst
      have htame := tame_stepEvict hback hst
      refine h.progress.imp ?_ ?_
      · rintro ⟨cb, y, hy, hemp⟩
        exact ⟨cb, y, hy, hemp.tame htame⟩
      · rintro ⟨hidle, hlog⟩
        exact ⟨hidle, fun p hd hv => List.mem_append_left _ (hlog p hd hv)⟩
    · rw [ht] at hu hc hst ⊢
      rw [put_pc_self]
      exact h.progress_sync hc hu hst

end Machine

end FastMap
