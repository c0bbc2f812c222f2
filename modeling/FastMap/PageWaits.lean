import FastMap.HeapBounds

/-!
# Who waits for a page lock

A fault, a write fault and `write_dirty_pages` try to lock a page until they succeed; all other
calls go on without the page. A fault holds nothing while it waits. `write_dirty_pages` waits with
its heap and its batch locked, but only for a page of a dirty tree, and what it has locked is in no
dirty tree: so whoever waits for a writer, and whoever the writer waits for, do not close a cycle.
-/

namespace FastMap

variable {C : Type*}

/-- The thread is in `write_dirty_pages`. -/
def Pc.Syncs (pc : Pc) : Prop := ∃ a x, pc = .sync a x

/-- What `write_dirty_pages` has locked, it has taken out of the dirty trees. -/
lemma Pc.Syncs.collected_eq {pc : Pc} (h : pc.Syncs) : pc.collected = pc.locks := by
  obtain ⟨a, x, rfl⟩ := h
  rfl

namespace State

/-- The first page of a dirty tree, when it cannot be locked. -/
def lockedFirst (s : State C) (v : PvdId) (cpu : ℕ) : Option PageId :=
  match (s.trees ⟨.dirty, v, cpu⟩).first? with
  | none => none
  | some (_, p) => if (s.trylockTp p ulongMax).1 = -1 then some p else none

/-- The page whose lock the next step of a thread asks for in vain. -/
def awaited (s : State C) : Pc → Option PageId
  | .get _ (.lock p) => if (s.trylockTp p ulongMax).1 = -1 then some p else none
  | .mkwrite r p .lock => if (s.trylockTp p r.vmf.pgoff).1 = -1 then some p else none
  | .sync a (.fill (cpu :: _) _) => s.lockedFirst a.pvd cpu
  | .sync a (.pull n _ _) => s.lockedFirst a.pvd n.cpu
  | _ => none

variable {s s' : State C} {p : PageId} {pc pc' : Pc}

lemma locked_of_trylockTp {i : Pgoff} (h : (s.trylockTp p i).1 = -1) :
    (s.pages p).locked = true := by
  simp only [trylockTp] at h
  split_ifs at h with hu hi hl
  · simp at h
  · simp at h
  · exact hl

lemma lockedFirst_eq_some {v : PvdId} {cpu : ℕ} (h : s.lockedFirst v cpu = some p) :
    (s.pages p).locked = true ∧ ∃ i, (s.trees ⟨.dirty, v, cpu⟩).lookup i = some p := by
  simp only [lockedFirst] at h
  split at h
  · simp at h
  · rename_i k q hfirst
    split_ifs at h with hl
    obtain rfl := Option.some.inj h
    exact ⟨locked_of_trylockTp hl, k, KeyMap.lookup_of_first? hfirst⟩

/-- A thread waits for a locked page, either with empty hands or for a page of a dirty tree. -/
lemma awaited_eq_some (h : s.awaited pc = some p) :
    (s.pages p).locked = true ∧ (pc.locks = 0 ∨ pc.Syncs ∧
      ∃ v cpu i, (s.trees ⟨.dirty, v, cpu⟩).lookup i = some p) := by
  unfold awaited at h
  split at h
  · split_ifs at h with hl
    obtain rfl := Option.some.inj h
    exact ⟨locked_of_trylockTp hl, Or.inl rfl⟩
  · split_ifs at h with hl
    obtain rfl := Option.some.inj h
    exact ⟨locked_of_trylockTp hl, Or.inl rfl⟩
  · obtain ⟨hl, i, hi⟩ := lockedFirst_eq_some h
    exact ⟨hl, Or.inr ⟨⟨_, _, rfl⟩, _, _, i, hi⟩⟩
  · obtain ⟨hl, i, hi⟩ := lockedFirst_eq_some h
    exact ⟨hl, Or.inr ⟨⟨_, _, rfl⟩, _, _, i, hi⟩⟩
  · simp at h

end State

namespace Machine

open State

variable {e : Env C} {s₀ : State C} {m m' : Machine C} {t u w : Tid} {p q : PageId}
  {ls : List (Tid × Act C)}

/-- The page that a thread waits for. -/
def awaits (m : Machine C) (t : Tid) : Option PageId := m.st.awaited (m.pc t)

/-- A locked page is in the hands of a thread. -/
lemma Inv.exists_holder (h : Inv e m) (hl : (m.st.pages p).locked = true) :
    ∃ u, p ∈ (m.pc u).locks := by
  by_contra! hno
  have hnot : ∀ u, ¬ (m.pc u).Holds p := by
    rintro u (hu | hu)
    · exact hno u hu
    · exact Bool.false_ne_true (((h.thread u).fresh hu).1.symm.trans hl)
  exact Bool.false_ne_true (((h.page p).rest hnot).unlocked.symm.trans hl)

/-- A thread that waits with a page in its hands is a writer, and no writer has collected the page
that it waits for. -/
lemma Sound.awaits_holding (h : Sound e m) (hu : m.awaits u = some q)
    (hp : p ∈ (m.pc u).locks) : (m.pc u).Syncs ∧ ∀ w, q ∉ (m.pc w).collected := by
  obtain ⟨-, h0 | ⟨hs, v, cpu, i, hi⟩⟩ := awaited_eq_some hu
  · rw [h0] at hp
    exact absurd hp (Multiset.notMem_zero p)
  · exact ⟨hs, fun w hw => (h.writerOwns hw).tree v cpu i hi⟩

/-- So whoever holds that page is in another call. -/
lemma Sound.not_syncs_holder (h : Sound e m) (hu : m.awaits u = some q) (hp : p ∈ (m.pc u).locks)
    (hq : q ∈ (m.pc w).locks) : ¬ (m.pc w).Syncs := by
  intro hs
  exact (h.awaits_holding hu hp).2 w (hs.collected_eq ▸ hq)

/-- A thread does not wait for a page that it holds. -/
lemma Sound.notMem_locks (h : Sound e m) (ht : m.awaits t = some p) : p ∉ (m.pc t).locks :=
  fun hp => h.not_syncs_holder ht hp hp (h.awaits_holding ht hp).1

end Machine

/-! ### How long a page stays locked -/

namespace Pc

/-- A bound on the steps that a fault, a write fault, a purge or an evictor has still to make until
it has given back the pages it holds. -/
def stepsLeft : Pc → ℕ
  | .get _ (.insert _) => 5
  | .get _ (.enqueue _) => 4
  | .get _ (.io _) => 3
  | .get _ (.valid _) => 3
  | .get _ (.done _) => 2
  | .get _ (.rollback _) => 1
  | .get _ (.map _) => 1
  | .mkwrite _ _ .dirty => 5
  | .mkwrite _ _ .insert => 4
  | .mkwrite _ _ .remove => 3
  | .mkwrite _ _ .enqueue => 2
  | .mkwrite _ _ .map => 1
  | .purge _ (.take _ n pgs) => 5 * n + pgs.length + 1
  | .purge _ (.delete _ n pgs _) => 5 * n + pgs.length + 4
  | .purge _ (.unmap _ n pgs _) => 5 * n + pgs.length + 3
  | .purge _ (.free pgs) => pgs.length
  | .evict (.untree _ _) => 5 * State.collectIters + 7
  | .evict (.scan c) => 5 * c.iter + 2 * c.pgs.length + 4
  | .evict (.grab c _) => 5 * (c.iter - 1) + 2 * c.pgs.length + 8
  | .evict (.back c _) => 5 * (c.iter - 1) + 2 * c.pgs.length + 7
  | .evict (.clear _ pgs) => 2 * pgs.length + 3
  | .evict (.write _ pgs) => 2 * pgs.length + 2
  | .evict (.insert _ done todo) => 2 * todo.length + done.length + 1
  | .evict (.unlock todo) => todo.length
  | _ => 0

/-- The longest of these is the round of an evictor that has just taken its first page. -/
def maxHold : ℕ := 5 * State.collectIters + 7

/-- A step brings the thread closer to the end of its hold, or starts one. -/
def Shrinks (pc pc' : Pc) : Prop :=
  pc'.stepsLeft < pc.stepsLeft ∨ pc.locks = 0 ∧ pc'.stepsLeft ≤ maxHold

end Pc

namespace State

open Pc

variable {e : Env C} {s s' : State C} {c : Choice C} {pc pc' : Pc}

lemma shrinks_stepGet {r : Req} {x : GetPc} (hs : s.stepGet e c r x = .ok (s', pc')) :
    (Pc.get r x).Shrinks pc' := by
  cases x with
  | lookup | alloc =>
    simp only [stepGet] at hs
    split at hs
    all_goals
      rw [← (Prod.mk.inj (Except.ok.inj hs)).2]
      exact Or.inr ⟨rfl, by simp [stepsLeft, maxHold, purgeBatch, collectIters]⟩
  | fresh p =>
    rw [← (Prod.mk.inj (Except.ok.inj hs)).2]
    exact Or.inr ⟨rfl, by simp [stepsLeft, maxHold]⟩
  | insert p =>
    simp only [stepGet] at hs
    split at hs
    all_goals
      rw [← (Prod.mk.inj (Except.ok.inj hs)).2]
      exact Or.inl (by simp [stepsLeft])
  | lock p =>
    simp only [stepGet] at hs
    split at hs
    all_goals
      rw [← (Prod.mk.inj (Except.ok.inj hs)).2]
      exact Or.inr ⟨rfl, by simp [stepsLeft, maxHold]⟩
  | valid p =>
    simp only [stepGet] at hs
    split_ifs at hs
    rw [← (Prod.mk.inj (Except.ok.inj hs)).2]
    exact Or.inl (by simp [stepsLeft])
  | done p =>
    simp only [stepGet] at hs
    obtain ⟨s₁, -, hs⟩ := Except.map_eq_ok.mp hs
    rw [← (Prod.mk.inj hs).2]
    exact Or.inl (by simp [stepsLeft])
  | rollback p | enqueue p | io p | map p =>
    rw [← (Prod.mk.inj (Except.ok.inj hs)).2]
    exact Or.inl (by simp [stepsLeft])

lemma shrinks_stepMkwrite {r : Req} {p : PageId} {x : MkPc}
    (hs : s.stepMkwrite e r p x = .ok (s', pc')) : (Pc.mkwrite r p x).Shrinks pc' := by
  cases x with
  | lock =>
    simp only [stepMkwrite] at hs
    split at hs
    all_goals
      rw [← (Prod.mk.inj (Except.ok.inj hs)).2]
      exact Or.inr ⟨rfl, by simp [stepsLeft, maxHold]⟩
  | dirty =>
    simp only [stepMkwrite] at hs
    split_ifs at hs
    all_goals
      rw [← (Prod.mk.inj (Except.ok.inj hs)).2]
      exact Or.inl (by simp [stepsLeft])
  | insert | remove | enqueue | map =>
    rw [← (Prod.mk.inj (Except.ok.inj hs)).2]
    exact Or.inl (by simp [stepsLeft])

lemma shrinks_stepPurge {ret : Option Req} {x : PurgePc}
    (hs : s.stepPurge e ret x = .ok (s', pc')) : (Pc.purge ret x).Shrinks pc' := by
  cases x with
  | take qid n pgs =>
    cases n with
    | zero =>
      rw [← (Prod.mk.inj (Except.ok.inj hs)).2]
      exact Or.inl (by simp [stepsLeft])
    | succ n =>
      simp only [stepPurge] at hs
      split at hs
      all_goals
        rw [← (Prod.mk.inj (Except.ok.inj hs)).2]
        exact Or.inl (by simp only [stepsLeft]; omega)
  | delete qid n pgs p =>
    simp only [stepPurge] at hs
    split at hs
    · exact absurd hs (by simp)
    · rw [← (Prod.mk.inj (Except.ok.inj hs)).2]
      exact Or.inl (by simp [stepsLeft])
  | unmap qid n pgs p =>
    rw [← (Prod.mk.inj (Except.ok.inj hs)).2]
    exact Or.inl (by simp only [stepsLeft, List.length_append, List.length_singleton]; omega)
  | free pgs =>
    cases pgs with
    | nil =>
      rw [← (Prod.mk.inj (Except.ok.inj hs)).2]
      cases ret <;> exact Or.inr ⟨rfl, by simp [stepsLeft, maxHold, purgeReturn]⟩
    | cons p pgs =>
      rw [← (Prod.mk.inj (Except.ok.inj hs)).2]
      exact Or.inl (by simp [stepsLeft])

lemma shrinks_stepEvict {x : EvictPc} (hs : s.stepEvict e x = .ok (s', pc')) :
    (Pc.evict x).Shrinks pc' := by
  cases x with
  | take id =>
    simp only [stepEvict] at hs
    split at hs
    all_goals
      rw [← (Prod.mk.inj (Except.ok.inj hs)).2]
      exact Or.inr ⟨rfl, by simp [stepsLeft, maxHold]⟩
  | untree id p =>
    simp only [stepEvict] at hs
    split at hs
    · exact absurd hs (by simp)
    · rw [← (Prod.mk.inj (Except.ok.inj hs)).2]
      exact Or.inl (by simp [stepsLeft])
  | scan c =>
    simp only [stepEvict] at hs
    split_ifs at hs with hend
    · rw [← (Prod.mk.inj (Except.ok.inj hs)).2]
      exact Or.inl (by simp only [stepsLeft]; omega)
    · split at hs
      all_goals
        rw [← (Prod.mk.inj (Except.ok.inj hs)).2]
        exact Or.inl (by simp only [stepsLeft, Scan.next]; omega)
  | grab c q =>
    simp only [stepEvict] at hs
    split at hs
    all_goals
      rw [← (Prod.mk.inj (Except.ok.inj hs)).2]
      refine Or.inl ?_
      simp only [stepsLeft, Scan.next, List.length_append, List.length_singleton]
      omega
  | insert v done todo =>
    cases todo
    all_goals
      rw [← (Prod.mk.inj (Except.ok.inj hs)).2]
      refine Or.inl ?_
      simp only [stepsLeft, List.length_append, List.length_cons, List.length_nil]
      omega
  | unlock todo =>
    cases todo
    · rw [← (Prod.mk.inj (Except.ok.inj hs)).2]
      exact Or.inr ⟨rfl, by simp [stepsLeft, maxHold]⟩
    · rw [← (Prod.mk.inj (Except.ok.inj hs)).2]
      exact Or.inl (by simp [stepsLeft])
  | back c q | clear v pgs | write v pgs =>
    rw [← (Prod.mk.inj (Except.ok.inj hs)).2]
    exact Or.inl (by simp [stepsLeft, Scan.next])

/-- Of the calls that lock pages, only `write_dirty_pages` may hold one for longer. -/
lemma shrinks_stepThread (hs : s.stepThread e c pc = .ok (s', pc')) (hsync : ¬ pc.Syncs) :
    pc.Shrinks pc' := by
  cases pc with
  | idle => exact absurd hs (by simp [stepThread])
  | get r x => exact shrinks_stepGet hs
  | mkwrite r p x => exact shrinks_stepMkwrite hs
  | purge ret x => exact shrinks_stepPurge hs
  | evict x => exact shrinks_stepEvict hs
  | sync a x => exact absurd ⟨a, x, rfl⟩ hsync

lemma stepsLeft_stepSync {a : SyncArgs} {x : SyncPc} (hs : s.stepSync e a x = .ok (s', pc')) :
    pc'.stepsLeft = 0 := by
  rcases frame_stepSync hs with hf | rfl
  · cases pc' with
    | sync b y => rfl
    | purge ret y => cases ret <;> simp [Pc.frame] at hf
    | _ => simp [Pc.frame] at hf
  · rfl

/-- No call turns into `write_dirty_pages`. -/
lemma not_syncs_stepThread (hs : s.stepThread e c pc = .ok (s', pc')) (hsync : ¬ pc.Syncs) :
    ¬ pc'.Syncs := by
  rintro ⟨a, x, rfl⟩
  rcases frame_stepThread hs with hf | hidle
  · cases pc with
    | sync b y => exact hsync ⟨b, y, rfl⟩
    | purge ret y => cases ret <;> simp [Pc.frame] at hf
    | _ => simp [Pc.frame] at hf
  · simp at hidle

lemma stepsLeft_start {t : Tid} {k : Task} (hs : s.start e t k = .ok pc) :
    pc.stepsLeft ≤ maxHold := by
  rcases start_inv hs with ⟨vma, i, v, -, -, rfl⟩ | ⟨vma, i, v, p, w, -, -, -, rfl⟩ |
    ⟨qid, -, rfl⟩ | ⟨id, -, -, rfl⟩ | ⟨cb, v, -, rfl⟩
  all_goals simp [stepsLeft, maxHold, purgeBatch, collectIters]

end State

namespace Machine

open State

variable {e : Env C} {s₀ : State C} {m m' : Machine C} {t : Tid} {p : PageId}
  {ls ls' : List (Tid × Act C)} {l : Tid × Act C}

/-- No thread ever has more steps left than that. -/
lemma stepsLeft_step (h : ∀ u, (m.pc u).stepsLeft ≤ Pc.maxHold) (hs : Steps e m l m') (u : Tid) :
    (m'.pc u).stepsLeft ≤ Pc.maxHold := by
  have hput : ∀ {s' pc' log}, pc'.stepsLeft ≤ Pc.maxHold →
      ((m.put l.1 s' pc' log).pc u).stepsLeft ≤ Pc.maxHold := by
    intro s' pc' log hpc
    by_cases hu : u = l.1
    · subst hu
      rw [put_pc_self]
      exact hpc
    · rw [put_pc_of_ne hu]
      exact h u
  rcases steps_cases hs with ⟨k, pc', -, -, hk, rfl⟩ | ⟨c, s', pc', -, hk, rfl⟩
  · exact hput (stepsLeft_start hk)
  · refine hput ?_
    by_cases hsync : (m.pc l.1).Syncs
    · obtain ⟨a, x, hx⟩ := hsync
      rw [hx] at hk
      rw [stepsLeft_stepSync hk]
      exact Nat.zero_le _
    · rcases shrinks_stepThread hk hsync with hlt | ⟨-, hle⟩
      · exact hlt.le.trans (h l.1)
      · exact hle

/-- A step after which thread `t` still has the page. -/
def StepsKeeping (e : Env C) (t : Tid) (p : PageId) (m : Machine C) (l : Tid × Act C)
    (m' : Machine C) : Prop :=
  Steps e m l m' ∧ p ∈ (m'.pc t).locks

/-- Each step of the thread that keeps the page is one less to go. -/
lemma keeping_run (hp : p ∈ (m.pc t).locks) (hsync : ¬ (m.pc t).Syncs)
    (hr : Run (StepsKeeping e t p) m ls m') : p ∈ (m'.pc t).locks ∧ ¬ (m'.pc t).Syncs ∧
      ls.countP (fun l => l.1 = t) + (m'.pc t).stepsLeft ≤ (m.pc t).stepsLeft := by
  induction hr with
  | nil => exact ⟨hp, hsync, by simp⟩
  | @snoc as l m₁ m₂ _ hs ih =>
    obtain ⟨hp₁, hsync₁, hle⟩ := ih
    obtain ⟨hs, hp₂⟩ := hs
    rw [List.countP_append]
    by_cases ht : l.1 = t
    · subst ht
      rcases steps_cases hs with ⟨k, pc', -, hidle, -, -⟩ | ⟨c, s', pc', -, hk, rfl⟩
      · rw [hidle] at hp₁
        exact absurd hp₁ (Multiset.notMem_zero p)
      · rw [put_pc_self] at hp₂ ⊢
        refine ⟨hp₂, not_syncs_stepThread hk hsync₁, ?_⟩
        rcases shrinks_stepThread hk hsync₁ with hlt | ⟨h0, -⟩
        · simp only [List.countP_singleton, decide_true, if_true]
          omega
        · rw [h0] at hp₁
          exact absurd hp₁ (Multiset.notMem_zero p)
    · have hpc : m₂.pc t = m₁.pc t := by
        rcases steps_cases hs with ⟨k, pc', -, -, -, rfl⟩ | ⟨c, s', pc', -, -, rfl⟩ <;>
          exact put_pc_of_ne (Ne.symm ht)
      rw [hpc]
      exact ⟨hp₁, hsync₁, by simpa [ht] using hle⟩

/-- The thread does not wait for a page, and whatever the others do in between, it gives page `p`
back before it has made `maxHold` more steps. -/
structure GivesBack (e : Env C) (m : Machine C) (t : Tid) (p : PageId) : Prop where
  awaits : m.awaits t = none
  steps (ls : List (Tid × Act C)) (m' : Machine C) : Run (StepsKeeping e t p) m ls m' →
    ls.countP (fun l => l.1 = t) ≤ Pc.maxHold

lemma Sound.givesBack (h : Sound e m) (hle : ∀ u, (m.pc u).stepsLeft ≤ Pc.maxHold)
    (hp : p ∈ (m.pc t).locks) (hsync : ¬ (m.pc t).Syncs) : GivesBack e m t p where
  awaits := by
    by_contra hw
    obtain ⟨q, hq⟩ := Option.ne_none_iff_exists'.mp hw
    exact hsync (h.awaits_holding hq hp).1
  steps ls m' hr := by
    obtain ⟨-, -, hcount⟩ := keeping_run hp hsync hr
    exact (Nat.le_of_add_right_le hcount).trans (hle t)

/-- Whenever a thread waits for a page, another thread holds the page. That thread gives it back
after a bounded number of its own steps; or it is in `write_dirty_pages`, and then it waits for no
page, or for one whose holder gives it back so. Nobody waits in a circle. The schedule is to claim
no page that a fault waits for, and to overrun neither the slots of a page nor the heap of a
write-back. -/
theorem waits_end (e : Env C) (s₀ : State C) (h₀ : s₀.Tidy e) (ls : List (Tid × Act C))
    (m : Machine C) (hr : Run (StepsInRoom e) (quiescent s₀) ls m) (t : Tid) (p : PageId)
    (hp : m.awaits t = some p) :
    ∃ u, u ≠ t ∧ p ∈ (m.pc u).locks ∧ (GivesBack e m u p ∨ (m.pc u).Syncs ∧
      (m.awaits u = none ∨
        ∃ q w, m.awaits u = some q ∧ w ≠ u ∧ q ∈ (m.pc w).locks ∧ GivesBack e m w q)) := by
  have hun : Run (StepsUnclaimed e) (quiescent s₀) ls m :=
    hr.mono_of_mem fun _ _ _ _ hs => hs.2
  have h := sound_run h₀ hun
  have hle : ∀ u, (m.pc u).stepsLeft ≤ Pc.maxHold :=
    hun.invariant (I := fun m => ∀ u, (m.pc u).stepsLeft ≤ Pc.maxHold)
      (fun _ _ _ h hs => stepsLeft_step h hs.2) fun _ => Nat.zero_le _
  have hother : ∀ {a b : Tid} {r : PageId}, m.awaits a = some r → r ∈ (m.pc b).locks → b ≠ a := by
    rintro a b r ha hb rfl
    exact h.notMem_locks ha hb
  obtain ⟨u, hu⟩ := h.inv.exists_holder (awaited_eq_some hp).1
  refine ⟨u, hother hp hu, hu, ?_⟩
  by_cases hsync : (m.pc u).Syncs
  · cases hq : m.awaits u with
    | none => exact Or.inr ⟨hsync, Or.inl rfl⟩
    | some q =>
      obtain ⟨w, hw⟩ := h.inv.exists_holder (awaited_eq_some hq).1
      exact Or.inr ⟨hsync, Or.inr ⟨q, w, rfl, hother hq hw, hw,
        h.givesBack hle hw (h.not_syncs_holder hq hu hw)⟩⟩
  · exact Or.inl (h.givesBack hle hu hsync)

/-! ### Two faults for one page -/

/-- Thread 1 has put the page of block 0 into the radix tree. -/
def insertedPage : List (Tid × Act ℕ) := (.user 1, .start (.getpage 0 0)) :: steps (.user 1) 4

theorem waits_end_twoFaults :
    ∃ m, Run (StepsInRoom onePageEnv) (quiescent (initParams onePageEnv smallWorld))
        (insertedPage ++ [(.user 2, .start (.getpage 0 0)), (.user 2, .step plain)]) m ∧
      m.awaits (.user 2) = some 0 ∧ ∃ u, u ≠ .user 2 ∧ 0 ∈ (m.pc u).locks := by
  have h : ((nextAll onePageEnv (quiescent (initParams onePageEnv smallWorld))
      (insertedPage ++ [(.user 2, .start (.getpage 0 0)), (.user 2, .step plain)])).map
        fun m => m.awaits (.user 2)) = some (some 0) := by decide +kernel
  obtain ⟨m, hm, hp⟩ := Option.map_eq_some_iff.mp h
  have hr : Run (Steps onePageEnv) (quiescent (initParams onePageEnv smallWorld))
      (insertedPage ++ [(.user 2, .start (.getpage 0 0))] ++ [(.user 2, .step plain)]) m := by
    simpa using run_nextAll hm
  obtain ⟨m₂, hr, hs₂⟩ := hr.last_step
  obtain ⟨m₁, hr₁, hs₁⟩ := hr.last_step
  have hr₁ := (run_alone (t := .user 1) hr₁ (by decide)).1
  have hpc : ∀ r, m₂.pc (.user 2) ≠ .get r .alloc := by
    intro r hr
    rcases steps_cases hs₁ with ⟨k, pc', hk, -, hstart, rfl⟩ | ⟨c, s', pc', hk, -, -⟩
    · rcases start_inv hstart with ⟨_, _, _, -, -, rfl⟩ | ⟨_, _, _, _, _, -, -, -, rfl⟩ |
        ⟨_, -, rfl⟩ | ⟨_, -, -, rfl⟩ | ⟨_, _, -, rfl⟩ <;> simp at hr
    · simp at hk
  have hrun : Run (StepsInRoom onePageEnv) (quiescent (initParams onePageEnv smallWorld))
      (insertedPage ++ [(.user 2, .start (.getpage 0 0)), (.user 2, .step plain)]) m := by
    have := (hr₁.snoc ⟨fun c r q s₁ hc => by simp at hc, hs₁⟩).snoc
      (show StepsUnclaimed onePageEnv m₂ _ m from
        ⟨fun c r q s₁ _ hget => absurd hget (hpc r), hs₂⟩)
    have := this.mono_of_mem fun _ _ _ _ hs => hs.inRoom
    simpa using this
  obtain ⟨u, hu, hlocks, -⟩ := waits_end _ _ (tidy_initParams _ _) _ m hrun (.user 2) 0 hp
  exact ⟨m, hrun, hp, u, hu, hlocks⟩

end Machine

end FastMap
