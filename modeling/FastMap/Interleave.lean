import FastMap.Locks
import FastMap.Stages

/-!
# Threads and pages

What the point of a thread says about the pages it holds, and the invariant of the machine: every
page is at the stage that its holder has brought it to, or at rest if nobody holds it. A step of a
thread touches pages that it holds or that it has just locked; all others keep their role.
-/

namespace FastMap

variable {C : Type*}

namespace Pc

/-! ### What a thread knows -/

/-- The page that `perma_getpage` has allocated and not yet tried to lock. -/
def fresh : Pc → Option PageId
  | .get _ (.fresh p) => some p
  | _ => none

/-- The pages that nobody else may touch. -/
def Holds (pc : Pc) (p : PageId) : Prop := p ∈ pc.locks ∨ pc.fresh = some p

/-- The page that an evictor has taken out of a dirty tree and not yet locked. -/
def transit : Pc → Option (Scan × PageId)
  | .evict (.grab c q) => some (c, q)
  | .evict (.back c q) => some (c, q)
  | _ => none

/-- The page that a fault has found and not yet locked, and the index it asks for. -/
def await : Pc → Option (Req × PageId × Pgoff)
  | .get r (.lock p) => some (r, p, ulongMax)
  | .mkwrite r p .lock => some (r, p, r.vmf.pgoff)
  | _ => none

/-- The `ID` of an evictor that collects pages. -/
def evictor : Pc → Option ℕ
  | .evict (.take id) => some id
  | .evict (.untree id _) => some id
  | .evict (.scan c) => some c.id
  | .evict (.grab c _) => some c.id
  | .evict (.back c _) => some c.id
  | _ => none

/-- The stage of a page that a thread holds. -/
def stage : Pc → PageId → Stage
  | .idle, _ => .cached
  | .get _ (.fresh _), _ => .alone
  | .get _ (.insert _), _ => .alone
  | .get _ (.rollback _), _ => .alone
  | .get _ (.enqueue _), _ => .inserted
  | .get _ (.io _), _ => .clean
  | .get _ _, _ => .cached
  | .mkwrite _ _ .insert, _ => .marked
  | .mkwrite _ _ .remove, _ => .treed
  | .mkwrite _ _ .enqueue, _ => .floating
  | .mkwrite _ _ _, _ => .cached
  | .purge _ (.delete _ _ _ p), q => if q = p then .inserted else .alone
  | .purge _ _, _ => .alone
  | .evict (.untree _ _), _ => .floating
  | .evict (.insert _ done _), q => if q ∈ done then .clean else .grabbed
  | .evict (.unlock _), _ => .clean
  | .evict _, _ => .grabbed
  | .sync _ (.fill _ _), _ => .heaped
  | .sync _ (.min _ pgs), q => if q ∈ pgs then .clean else .heaped
  | .sync _ (.pull _ _ pgs), q => if q ∈ pgs then .clean else .heaped
  | .sync _ (.clear _ _ pgs), q => if q ∈ pgs then .clean else .heaped
  | .sync _ (.remove _ _ pgs), q => if q ∈ pgs then .clean else .heaped
  | .sync _ (.enqueue p _ pgs), q =>
    if q = p then .grabbed else if q ∈ pgs then .clean else .heaped
  | .sync _ (.write _ pgs), q => if q ∈ pgs then .clean else .heaped
  | .sync _ (.unlock _ todo), q => if q ∈ todo then .clean else .heaped

/-- What a thread has made sure of about the `pvd` and the `index` of the pages it holds. -/
def Knows : Pc → Option PvdId → Pgoff → Prop
  | .idle, _, _ => True
  | .get r _, v, i => v = some r.pvd ∧ i = r.vmf.pgoff
  | .mkwrite r _ _, v, i => v = some r.pvd ∧ i = r.vmf.pgoff
  | .purge _ _, _, _ => True
  | .evict (.take _), _, _ => True
  | .evict (.untree id _), _, i => dirtyQueue i = .dirty id
  | .evict (.scan c), v, _ => v = some c.pvd
  | .evict (.grab c _), v, _ => v = some c.pvd
  | .evict (.back c _), v, _ => v = some c.pvd
  | .evict (.clear v' _), v, _ => v = some v'
  | .evict (.write v' _), v, _ => v = some v'
  | .evict (.insert v' _ _), v, _ => v = some v'
  | .evict (.unlock _), _, _ => True
  | .sync a _, v, _ => v = some a.pvd

/-- A step of a thread does not concern a page. -/
structure SameRole (pc pc' : Pc) (q : PageId) : Prop where
  holds : pc'.Holds q ↔ pc.Holds q
  stage : pc.Holds q → pc'.stage q = pc.stage q
  knows : pc.Holds q → ∀ {v i}, pc.Knows v i → pc'.Knows v i
  transit : (∃ c, pc'.transit = some (c, q)) ↔ ∃ c, pc.transit = some (c, q)

end Pc

namespace Machine

open State

/-- Some evictor has taken the page out of its dirty tree and not yet locked it. -/
def Moved (m : Machine C) (p : PageId) : Prop := ∃ t c, (m.pc t).transit = some (c, p)

/-! ### The invariant -/

/-- A page is where its holder says, or at rest. -/
structure PageOk (e : Env C) (m : Machine C) (p : PageId) : Prop where
  held {t : Tid} : (m.pc t).Holds p → At e p (m.Moved p) ((m.pc t).stage p) (m.st.view e p) ∧
    (m.pc t).Knows (m.st.pages p).pvd (m.st.pages p).index
  rest : (∀ t, ¬ (m.pc t).Holds p) → AtRest e p (m.Moved p) (m.st.view e p)

/-- What a thread relies on without holding a lock. A page that a fault is about to lock may have
been reclaimed, but not given to another block. -/
structure ThreadOk (m : Machine C) (t : Tid) : Prop where
  evictor {id : ℕ} : (m.pc t).evictor = some id → t = .evictor id
  transit {c : Scan} {q : PageId} : (m.pc t).transit = some (c, q) →
    (m.st.pages q).pvd = some c.pvd ∧ (m.st.pages q).index = c.offset ∧
      (c.offset >>> 9) % evictorThreads = c.id
  await {r : Req} {p : PageId} {i : Pgoff} : (m.pc t).await = some (r, p, i) →
    (m.st.pages p).inUse = true → (i = ulongMax ∨ (m.st.pages p).index = i) →
      (m.st.pages p).pvd = some r.pvd ∧ (m.st.pages p).index = r.vmf.pgoff
  fresh {p : PageId} : (m.pc t).fresh = some p → (m.st.pages p).locked = false ∧
    ∀ u, ((m.pc u).fresh = some p → u = t) ∧
      ∀ r i, (m.pc u).await = some (r, p, i) → i ≠ ulongMax ∧ (m.st.pages p).index ≠ i

structure Inv (e : Env C) (m : Machine C) : Prop where
  placed : m.st.Placed e
  table : LockTable m.st.lockBits fun t => (m.pc t).locks
  page (p : PageId) : PageOk e m p
  thread (t : Tid) : ThreadOk m t

variable {e : Env C} {m : Machine C} {s' : State C} {t : Tid} {pc pc' : Pc}
  {log : List (BlockWrite C)} {p q : PageId} {w : PageView C}

lemma inv_of_idle (h : m.st.Quiet e) (hi : ∀ t, m.pc t = .idle) : Inv e m where
  placed := h.placed
  table := by
    have hlocks : (fun t => (m.pc t).locks) = fun _ => 0 := by
      funext t
      rw [hi t]
      rfl
    rw [hlocks]
    exact LockTable.init _
  page p :=
    { held := fun {t} hp => by simp [hi t, Pc.Holds, Pc.locks, Pc.fresh] at hp
      rest := fun _ => by
        have hm : m.Moved p ↔ False := by simp [Moved, hi, Pc.transit]
        exact (atRest_iff.mpr (h.page p)).congr_moved hm }
  thread t :=
    { evictor := fun h => by simp [hi t, Pc.evictor] at h
      transit := fun h => by simp [hi t, Pc.transit] at h
      await := fun h => by simp [hi t, Pc.await] at h
      fresh := fun h => by simp [hi t, Pc.fresh] at h }

lemma inv_quiescent {s : State C} (h : s.Quiet e) : Inv e (quiescent s) :=
  inv_of_idle h fun _ => rfl

/-- When all threads are between calls, so is the buffer. -/
lemma Inv.quiet (h : Inv e m) (hi : ∀ t, m.pc t = .idle) : m.st.Quiet e := by
  refine ⟨h.placed, fun p => atRest_iff.mp (((h.page p).rest fun t => ?_).congr_moved ?_)⟩
  · simp [hi, Pc.Holds, Pc.locks, Pc.fresh]
  · simp [Moved, hi, Pc.transit]

/-! ### Who holds a page -/

lemma Inv.inUse_of_holds (h : Inv e m) (hp : (m.pc t).Holds p) : (m.st.pages p).inUse = true :=
  ((h.page p).held hp).1.inUse

lemma Inv.locked_or_fresh (h : Inv e m) (hp : (m.pc t).Holds p) :
    (m.st.pages p).locked = true ∧ p ∈ (m.pc t).locks ∨
      (m.st.pages p).locked = false ∧ (m.pc t).fresh = some p :=
  hp.imp (fun hl => ⟨h.table.locked_of_mem hl, hl⟩) fun hf => ⟨((h.thread t).fresh hf).1, hf⟩

/-- A page has at most one holder. -/
lemma Inv.exclusive (h : Inv e m) {u : Tid} (ht : (m.pc t).Holds p) (hu : (m.pc u).Holds p) :
    u = t := by
  rcases h.locked_or_fresh ht with ⟨hl, ht⟩ | ⟨hl, ht⟩ <;>
    rcases h.locked_or_fresh hu with ⟨hl', hu⟩ | ⟨hl', hu⟩
  · exact h.table.exclusive hu ht
  · exact absurd (hl.symm.trans hl') (by simp)
  · exact absurd (hl.symm.trans hl') (by simp)
  · exact (((h.thread t).fresh ht).2 u).1 hu

/-- Whoever holds an unlocked page has just allocated it. -/
lemma Inv.fresh_of_unlocked (h : Inv e m) (hp : (m.pc t).Holds p)
    (hl : (m.st.pages p).locked = false) : (m.pc t).fresh = some p := by
  rcases h.locked_or_fresh hp with ⟨hl', -⟩ | ⟨-, hf⟩
  · exact absurd (hl.symm.trans hl') (by simp)
  · exact hf

lemma stage_of_fresh {pc : Pc} (h : pc.fresh = some p) (q : PageId) : pc.stage q = .alone := by
  unfold Pc.fresh at h
  split at h
  · rfl
  · exact absurd h (by simp)

lemma Inv.alone_of_fresh (h : Inv e m) (hf : (m.pc t).fresh = some p) :
    At e p (m.Moved p) .alone (m.st.view e p) := by
  have := ((h.page p).held (Or.inr hf)).1
  rwa [stage_of_fresh hf] at this

/-- A page that is linked somewhere and not locked is at rest. -/
lemma Inv.unheld_of_linked (h : Inv e m) (hl : (m.st.pages p).locked = false)
    (hp : ¬ (m.st.view e p).Unlinked) (t : Tid) : ¬ (m.pc t).Holds p := by
  intro hh
  exact hp (h.alone_of_fresh (h.fresh_of_unlocked hh hl)).unlinked

lemma Inv.unheld_of_queue (h : Inv e m) (hl : (m.st.pages p).locked = false) {l : Queue}
    (hp : p ∈ (m.st.queues l).buffer) (t : Tid) : ¬ (m.pc t).Holds p := by
  refine h.unheld_of_linked hl (fun hu => ?_) t
  exact h.placed.not_mem_queue hu.clean hu.dirty l hp

lemma Inv.unheld_of_tree (h : Inv e m) (hl : (m.st.pages p).locked = false) {k : TreeKind}
    (hp : (m.st.view e p).tree k = true) (t : Tid) : ¬ (m.pc t).Holds p := by
  refine h.unheld_of_linked hl (fun hu => ?_) t
  exact Bool.false_ne_true ((hu.tree k).symm.trans hp)

lemma Inv.unheld_of_await (h : Inv e m) (hl : (m.st.pages p).locked = false) {r : Req} {i : Pgoff}
    (ha : (m.pc t).await = some (r, p, i)) (hi : i = ulongMax ∨ (m.st.pages p).index = i)
    (u : Tid) : ¬ (m.pc u).Holds p := by
  intro hh
  obtain ⟨h₁, h₂⟩ := (((h.thread u).fresh (h.fresh_of_unlocked hh hl)).2 t).2 r i ha
  exact hi.elim h₁ h₂

lemma Inv.unheld_of_free (h : Inv e m) (hp : (m.st.view e p).free = true) (t : Tid) :
    ¬ (m.pc t).Holds p := by
  intro hh
  exact Bool.false_ne_true (((h.page p).held hh).1.free.symm.trans hp)

/-- A page that is in a dirty tree, or will be put back into one, is in use. -/
lemma Inv.at_of_tree (h : Inv e m) (hp : (m.st.view e p).tree .dirty = true ∨ m.Moved p) :
    ∃ g, At e p (m.Moved p) g (m.st.view e p) := by
  by_cases hh : ∃ t, (m.pc t).Holds p
  · obtain ⟨t, hh⟩ := hh
    exact ⟨_, ((h.page p).held hh).1⟩
  · have hr := (h.page p).rest fun t ht => hh ⟨t, ht⟩
    refine ⟨_, hr.phase.resolve_left fun hi => ?_⟩
    rcases hp with hp | hp
    · exact Bool.false_ne_true ((hi.1.unlinked.tree .dirty).symm.trans hp)
    · exact hi.2 hp

/-- Such a page is in the radix tree. -/
lemma Inv.rdx_of_tree (h : Inv e m) (hp : (m.st.view e p).tree .dirty = true ∨ m.Moved p) :
    (m.st.view e p).tree .rdx = true := by
  obtain ⟨g, hat⟩ := h.at_of_tree hp
  rw [hat.rdx]
  exact Stage.rdx_of_tree (hp.elim (fun hp => (hat.tree.mp hp).1) hat.moved)

/-- The key of a page of the radix tree is free in the dirty tree unless the page is there. -/
lemma Inv.dirtyTree_vacant (h : Inv e m) {v : PvdId} (hr : (m.st.view e p).tree .rdx = true)
    (hv : (m.st.pages p).pvd = some v) (ht : (m.st.view e p).tree .dirty = false) :
    m.st.treeLookup e .dirty v (m.st.pages p).index = none := by
  by_contra hne
  obtain ⟨q, hq⟩ := Option.ne_none_iff_exists'.mp hne
  obtain ⟨htq, hvq, hiq⟩ := h.placed.treeLookup_iff.mp hq
  obtain rfl := eq_of_cached (h.rdx_of_tree (Or.inl htq)) hr (hvq.trans hv.symm) hiq
  exact Bool.false_ne_true (ht.symm.trans htq)

/-! ### Frame -/

lemma moved_put : (m.put t s' pc' log).Moved q ↔
    (∃ c, pc'.transit = some (c, q)) ∨ ∃ u, u ≠ t ∧ ∃ c, (m.pc u).transit = some (c, q) := by
  constructor
  · rintro ⟨u, c, hc⟩
    by_cases hu : u = t
    · subst hu
      rw [put_pc_self] at hc
      exact Or.inl ⟨c, hc⟩
    · rw [put_pc_of_ne hu] at hc
      exact Or.inr ⟨u, hu, c, hc⟩
  · rintro (⟨c, hc⟩ | ⟨u, hu, c, hc⟩)
    · exact ⟨t, c, by rw [put_pc_self]; exact hc⟩
    · exact ⟨u, c, by rw [put_pc_of_ne hu]; exact hc⟩

lemma moved_put_iff (h : (∃ c, pc'.transit = some (c, q)) ↔ ∃ c, (m.pc t).transit = some (c, q)) :
    (m.put t s' pc' log).Moved q ↔ m.Moved q := by
  rw [moved_put, h]
  constructor
  · rintro (⟨c, hc⟩ | ⟨u, -, c, hc⟩)
    · exact ⟨t, c, hc⟩
    · exact ⟨u, c, hc⟩
  · rintro ⟨u, c, hc⟩
    by_cases hu : u = t
    · exact Or.inl ⟨c, hu ▸ hc⟩
    · exact Or.inr ⟨u, hu, c, hc⟩

/-- A page that the step does not concern. -/
lemma PageOk.frame (h : PageOk e m q) (hv : s'.view e q = m.st.view e q)
    (hr : (m.pc t).SameRole pc' q) : PageOk e (m.put t s' pc' log) q := by
  have hm : (m.put t s' pc' log).Moved q ↔ m.Moved q := moved_put_iff hr.transit
  have hp : s'.pages q = m.st.pages q := congrArg PageView.page hv
  constructor
  · intro u hu
    rw [put_st, hv, hp]
    by_cases hut : u = t
    · subst hut
      rw [put_pc_self] at hu ⊢
      have hold := hr.holds.mp hu
      obtain ⟨hat, hk⟩ := h.held hold
      rw [hr.stage hold]
      exact ⟨hat.congr hm rfl rfl rfl rfl rfl rfl rfl rfl, hr.knows hold hk⟩
    · rw [put_pc_of_ne hut] at hu ⊢
      obtain ⟨hat, hk⟩ := h.held hu
      exact ⟨hat.congr hm rfl rfl rfl rfl rfl rfl rfl rfl, hk⟩
  · intro hno
    rw [put_st, hv]
    refine (h.rest fun u hu => ?_).congr_moved hm
    by_cases hut : u = t
    · subst hut
      exact hno u (by rw [put_pc_self]; exact hr.holds.mpr hu)
    · exact hno u (by rw [put_pc_of_ne hut]; exact hu)

/-- A page that only the thread of the step can hold. -/
lemma PageOk.own {moved : Prop} (hno : ∀ u, u ≠ t → ¬ (m.pc u).Holds p)
    (hmoved : (m.put t s' pc' log).Moved p ↔ moved) (hv : s'.view e p = w)
    (hheld : pc'.Holds p →
      At e p moved (pc'.stage p) w ∧ pc'.Knows w.page.pvd w.page.index)
    (hrest : ¬ pc'.Holds p → AtRest e p moved w) : PageOk e (m.put t s' pc' log) p := by
  have hp : s'.pages p = w.page := congrArg PageView.page hv
  constructor
  · intro u hu
    by_cases hut : u = t
    · subst hut
      rw [put_pc_self] at hu ⊢
      obtain ⟨hat, hk⟩ := hheld hu
      rw [put_st, hv, hp]
      exact ⟨hat.congr hmoved rfl rfl rfl rfl rfl rfl rfl rfl, hk⟩
    · rw [put_pc_of_ne hut] at hu
      exact absurd hu (hno u hut)
  · intro hall
    rw [put_st, hv]
    refine (hrest fun hh => hall t ?_).congr_moved hmoved
    rw [put_pc_self]
    exact hh

/-- The threads other than `t` can still rely on what they know of a page: what an evictor has
moved keeps its name, and what a fault waits for is not given away. -/
structure Steady (m : Machine C) (t : Tid) (q : PageId) (a b : TaggedPage C) : Prop where
  moved : m.Moved q → b.pvd = a.pvd ∧ b.index = a.index
  await {u : Tid} {r : Req} {i : Pgoff} : u ≠ t → (m.pc u).await = some (r, q, i) →
    b.inUse = true → (i = ulongMax ∨ b.index = i) →
      a.inUse = true ∧ b.pvd = a.pvd ∧ b.index = a.index

lemma Steady.of_same {a b : TaggedPage C} (hu : b.inUse = a.inUse) (hv : b.pvd = a.pvd)
    (hi : b.index = a.index) : Steady m t q a b :=
  ⟨fun _ => ⟨hv, hi⟩, fun _ _ h _ => ⟨hu ▸ h, hv, hi⟩⟩

/-- A new point of a thread at which it relies on nothing but the pages it holds. -/
structure Settles (pc pc' : Pc) : Prop where
  evictor {id : ℕ} : pc'.evictor = some id → pc.evictor = some id
  transit : pc'.transit = none
  await : pc'.await = none
  fresh : pc'.fresh = none

/-- A point at which the thread is no evictor and relies on nothing at all. -/
lemma settles_of_none (he : pc'.evictor = none) (ht : pc'.transit = none) (ha : pc'.await = none)
    (hf : pc'.fresh = none) : Settles pc pc' := by
  refine ⟨?_, ht, ha, hf⟩
  intro id hid
  rw [he] at hid
  exact absurd hid (by simp)

lemma ThreadOk.settles (h : ThreadOk m t) (hs : Settles (m.pc t) pc') :
    ThreadOk (m.put t s' pc' log) t where
  evictor he := by
    rw [put_pc_self] at he
    exact h.evictor (hs.evictor he)
  transit hc := by simp [hs.transit] at hc
  await ha := by simp [hs.await] at ha
  fresh hf := by simp [hs.fresh] at hf

/-- The other threads, when the new point of `t` does not wait for a page that is fresh. -/
lemma ThreadOk.frame {u : Tid} (h : ThreadOk m u) (hu : u ≠ t)
    (hsteady : ∀ q, Steady m t q (m.st.pages q) (s'.pages q))
    (hfresh : ∀ q, (m.pc u).fresh = some q → s'.pages q = m.st.pages q ∧ pc'.fresh ≠ some q ∧
      ∀ r i, pc'.await ≠ some (r, q, i)) : ThreadOk (m.put t s' pc' log) u where
  evictor he := by
    rw [put_pc_of_ne hu] at he
    exact h.evictor he
  transit {c q} hc := by
    rw [put_pc_of_ne hu] at hc
    obtain ⟨hv, hi⟩ := (hsteady q).moved ⟨u, c, hc⟩
    rw [put_st, hv, hi]
    exact h.transit hc
  await {r q i} ha hb hi := by
    rw [put_pc_of_ne hu] at ha
    obtain ⟨hua, hv, hidx⟩ := (hsteady q).await hu ha hb hi
    rw [put_st] at hi ⊢
    rw [hidx] at hi
    rw [hv, hidx]
    exact h.await ha hua hi
  fresh {q} hf := by
    rw [put_pc_of_ne hu] at hf
    obtain ⟨hp, hnf, hna⟩ := hfresh q hf
    obtain ⟨hl, hothers⟩ := h.fresh hf
    rw [put_st, hp]
    refine ⟨hl, fun u' => ?_⟩
    by_cases hut : u' = t
    · subst hut
      rw [put_pc_self]
      exact ⟨fun hf' => absurd hf' hnf, fun r i ha => absurd ha (hna r i)⟩
    · rw [put_pc_of_ne hut]
      exact hothers u'

/-- The page locks after the step. -/
def Table (m : Machine C) (t : Tid) (s' : State C) (pc' : Pc) (log : List (BlockWrite C)) : Prop :=
  LockTable s'.lockBits fun u => ((m.put t s' pc' log).pc u).locks

/-- A step that works on one page, which nobody else holds. -/
lemma Inv.act (h : Inv e m) {moved : Prop} (hpc : m.pc t = pc) (hm : Moves e m.st s' p w)
    (htab : Table m t s' pc' log)
    (hno : ∀ u, u ≠ t → ¬ (m.pc u).Holds p) (hrole : ∀ q, q ≠ p → pc.SameRole pc' q)
    (hsteady : Steady m t p (m.st.pages p) w.page) (hset : Settles pc pc')
    (hmoved : (m.put t s' pc' log).Moved p ↔ moved)
    (hheld : pc'.Holds p → At e p moved (pc'.stage p) w ∧ pc'.Knows w.page.pvd w.page.index)
    (hrest : ¬ pc'.Holds p → AtRest e p moved w) : Inv e (m.put t s' pc' log) := by
  subst hpc
  have hpages : ∀ q, q ≠ p → s'.pages q = m.st.pages q := fun q hq =>
    congrArg PageView.page (hm.view_of_ne hq)
  refine ⟨hm.placed, htab, fun q => ?_, fun u => ?_⟩
  · by_cases hq : q = p
    · subst hq
      exact PageOk.own hno hmoved hm.view_self hheld hrest
    · exact (h.page q).frame (hm.view_of_ne hq) (hrole q hq)
  · by_cases hu : u = t
    · subst hu
      exact (h.thread u).settles hset
    · refine (h.thread u).frame hu (fun q => ?_) fun q hf => ⟨?_, ?_, ?_⟩
      · by_cases hq : q = p
        · subst hq
          rw [hm.pages_self]
          exact hsteady
        · rw [hpages q hq]
          exact Steady.of_same rfl rfl rfl
      · exact hpages q fun hq => hno u hu (hq ▸ Or.inr hf)
      · simp [hset.fresh]
      · simp [hset.await]

/-- A step that the pages do not notice. -/
lemma Inv.skip (h : Inv e m) (hpc : m.pc t = pc) (hk : Keeps e m.st s')
    (htab : Table m t s' pc' log)
    (hrole : ∀ q, pc.SameRole pc' q) (hthread : ThreadOk (m.put t s' pc' log) t)
    (hfresh : ∀ u q, (m.pc u).fresh = some q → pc'.fresh ≠ some q ∧
      ∀ r i, pc'.await ≠ some (r, q, i)) : Inv e (m.put t s' pc' log) := by
  subst hpc
  have hview : ∀ q, s'.view e q = m.st.view e q := fun q => congrFun hk.view_eq q
  have hpages : ∀ q, s'.pages q = m.st.pages q := fun q => congrArg PageView.page (hview q)
  refine ⟨hk.placed, htab, fun q => (h.page q).frame (hview q) (hrole q), fun u => ?_⟩
  by_cases hu : u = t
  · subst hu
    exact hthread
  · refine (h.thread u).frame hu (fun q => ?_) fun q hf => ⟨hpages q, hfresh u q hf⟩
    rw [hpages q]
    exact Steady.of_same rfl rfl rfl

/-- The same for a point at which the thread relies on nothing new. -/
lemma Inv.pass (h : Inv e m) (hpc : m.pc t = pc) (hk : Keeps e m.st s')
    (htab : Table m t s' pc' log)
    (hrole : ∀ q, pc.SameRole pc' q) (hset : Settles pc pc') : Inv e (m.put t s' pc' log) :=
  h.skip hpc hk htab hrole ((h.thread t).settles (hpc ▸ hset)) fun _ _ _ =>
    ⟨by simp [hset.fresh], by simp [hset.await]⟩

/-- A thread that waits does nothing. -/
lemma Inv.stay (h : Inv e m) (hpc : m.pc t = pc) : Inv e (m.put t m.st pc log) := by
  have hself : m.put t m.st pc log = { m with log := log } := by
    rw [← hpc, put, Function.update_eq_self]
  rw [hself]
  exact ⟨h.placed, h.table, fun p => ⟨(h.page p).held, (h.page p).rest⟩, fun t =>
    ⟨(h.thread t).evictor, (h.thread t).transit, (h.thread t).await, (h.thread t).fresh⟩⟩

lemma Inv.table_step (h : Inv e m) {c : Choice C}
    (hs : m.st.stepThread e c (m.pc t) = .ok (s', pc')) :
    Table m t s' pc' log := by
  rw [Table, locks_put]
  refine h.table.step (lockStep_stepThread (fun r p hp => ?_) hs)
  have hf : (m.pc t).fresh = some p := by rw [hp]; rfl
  exact ⟨h.inUse_of_holds (Or.inr hf), ((h.thread t).fresh hf).1⟩

/-- Nobody else holds a page that the thread holds. -/
lemma Inv.others (h : Inv e m) (hp : (m.pc t).Holds p) (u : Tid) (hu : u ≠ t) :
    ¬ (m.pc u).Holds p :=
  fun hh => hu (h.exclusive hp hh)

/-! ### The three kinds of steps on a page -/

/-- The page keeps its name. -/
def SameName (a b : TaggedPage C) : Prop :=
  b.inUse = a.inUse ∧ b.pvd = a.pvd ∧ b.index = a.index

lemma SameName.steady {a b : TaggedPage C} (h : SameName a b) : Steady m t q a b :=
  Steady.of_same h.1 h.2.1 h.2.2

section kinds

variable (h : Inv e m) (hpc : m.pc t = pc) (hm : Moves e m.st s' p w)
  (htab : Table m t s' pc' log)
  (hset : Settles pc pc') (hrole : ∀ q, q ≠ p → pc.SameRole pc' q)

include h hpc hm htab hset hrole

/-- The thread works on a page that it holds, and holds it afterwards. -/
lemma Inv.hold (hname : SameName (m.st.pages p) w.page) (htr : pc.transit = none)
    (hx : pc.Holds p) (hx' : pc'.Holds p)
    (hk : pc.Knows (m.st.pages p).pvd (m.st.pages p).index →
      pc'.Knows (m.st.pages p).pvd (m.st.pages p).index)
    (hat : At e p (m.Moved p) (pc.stage p) (m.st.view e p) →
      At e p (m.Moved p) (pc'.stage p) w) : Inv e (m.put t s' pc' log) := by
  have hh : (m.pc t).Holds p := by rw [hpc]; exact hx
  obtain ⟨hold, hknow⟩ := (h.page p).held hh
  rw [hpc] at hold hknow
  refine h.act hpc hm htab (h.others hh) hrole hname.steady hset (moved_put_iff ?_)
    (fun _ => ⟨hat hold, ?_⟩) fun hno => absurd hx' hno
  · rw [hpc, hset.transit, htr]
  · rw [hname.2.1, hname.2.2]
    exact hk hknow

/-- The thread gives a page back. -/
lemma Inv.release (hsteady : Steady m t p (m.st.pages p) w.page) (htr : pc.transit = none)
    (hx : pc.Holds p) (hx' : ¬ pc'.Holds p)
    (hat : At e p (m.Moved p) (pc.stage p) (m.st.view e p) → AtRest e p (m.Moved p) w) :
    Inv e (m.put t s' pc' log) := by
  have hh : (m.pc t).Holds p := by rw [hpc]; exact hx
  obtain ⟨hold, -⟩ := (h.page p).held hh
  rw [hpc] at hold
  refine h.act hpc hm htab (h.others hh) hrole hsteady hset (moved_put_iff ?_)
    (fun hh' => absurd hh' hx') fun _ => hat hold
  rw [hpc, hset.transit, htr]

/-- The thread takes a page that is at rest. -/
lemma Inv.acquire (hname : SameName (m.st.pages p) w.page) (htr : pc.transit = none)
    (hun : ∀ u, ¬ (m.pc u).Holds p) (hx' : pc'.Holds p)
    (hk : pc'.Knows (m.st.pages p).pvd (m.st.pages p).index)
    (hat : AtRest e p (m.Moved p) (m.st.view e p) → At e p (m.Moved p) (pc'.stage p) w) :
    Inv e (m.put t s' pc' log) := by
  refine h.act hpc hm htab (fun u _ => hun u) hrole hname.steady hset (moved_put_iff ?_)
    (fun _ => ⟨hat ((h.page p).rest hun), ?_⟩) fun hno => absurd hx' hno
  · rw [hpc, hset.transit, htr]
  · rw [hname.2.1, hname.2.2]
    exact hk

end kinds

/-- An evictor takes a page out of its dirty tree or puts it back, whoever holds it. -/
lemma Inv.toggle (h : Inv e m) (hpc : m.pc t = pc) (hm : Moves e m.st s' q w)
    (hw : w.page = m.st.pages q) (htab : Table m t s' pc' log)
    (hrole : ∀ p, p ≠ q → pc.SameRole pc' p) (hholds : pc'.Holds q ↔ pc.Holds q)
    (hstage : pc'.stage q = pc.stage q) (hknows : ∀ {v i}, pc.Knows v i → pc'.Knows v i)
    (hthread : ThreadOk (m.put t s' pc' log) t) (hfresh : pc'.fresh = none)
    (hawait : pc'.await = none)
    (hat : ∀ {g}, At e q (m.Moved q) g (m.st.view e q) →
      At e q ((m.put t s' pc' log).Moved q) g w)
    (hlink : (m.st.view e q).tree .dirty = true ∨ m.Moved q) : Inv e (m.put t s' pc' log) := by
  subst hpc
  have hpages : ∀ p, s'.pages p = m.st.pages p := by
    intro p
    by_cases hp : p = q
    · subst hp
      rw [hm.pages_self, hw]
    · exact congrArg PageView.page (hm.view_of_ne hp)
  refine ⟨hm.placed, htab, fun p => ?_, fun u => ?_⟩
  · by_cases hp : p = q
    · subst hp
      constructor
      · intro u hu
        rw [put_st, hm.view_self, hpages p]
        by_cases hut : u = t
        · subst hut
          rw [put_pc_self] at hu ⊢
          obtain ⟨hold, hk⟩ := (h.page p).held (hholds.mp hu)
          rw [hstage]
          exact ⟨hat hold, hknows hk⟩
        · rw [put_pc_of_ne hut] at hu ⊢
          obtain ⟨hold, hk⟩ := (h.page p).held hu
          exact ⟨hat hold, hk⟩
      · intro hno
        have hrest : AtRest e p (m.Moved p) (m.st.view e p) := by
          refine (h.page p).rest fun u hu => ?_
          by_cases hut : u = t
          · subst hut
            exact hno u (by rw [put_pc_self]; exact hholds.mpr hu)
          · exact hno u (by rw [put_pc_of_ne hut]; exact hu)
        have hold : At e p (m.Moved p) .cached (m.st.view e p) := by
          refine hrest.phase.resolve_left fun hi => ?_
          rcases hlink with ht | hmv
          · exact Bool.false_ne_true ((hi.1.unlinked.tree .dirty).symm.trans ht)
          · exact hi.2 hmv
        rw [put_st, hm.view_self]
        refine (hat hold).atRest ?_
        rw [hw]
        exact hrest.unlocked
    · exact (h.page p).frame (hm.view_of_ne hp) (hrole p hp)
  · by_cases hu : u = t
    · subst hu
      exact hthread
    · refine (h.thread u).frame hu (fun p => ?_) fun p hf => ⟨hpages p, ?_, ?_⟩
      · rw [hpages p]
        exact Steady.of_same rfl rfl rfl
      · simp [hfresh]
      · simp [hawait]

end Machine

end FastMap
