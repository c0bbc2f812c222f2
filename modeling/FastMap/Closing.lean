import FastMap.Custody

/-!
# Teardown beside other threads

The loops that empty the radix trees of a pvd take a page out of its tree first, and then wait until
they can lock it. Meanwhile purges and faults of other files run. A page that is purged while the
loop waits for it may be handed out to another file; as long as this does not happen, every page
that the loop frees is one of its own pvd.
-/

namespace FastMap

variable {C : Type*}

/-- The functions that contain the loop. -/
inductive TeardownKind where
  | wrapfsUnlink
  | rawRelease
  | clearPvd
  deriving DecidableEq, Repr

/-- The points of the loop. -/
inductive TeardownPc where
  | idle
  /-- The trees of these processors are looked at next. -/
  | scan (cpus : List ℕ)
  | lock (p : PageId)
  | remove (p : PageId)
  | free (p : PageId)
  | unlock (p : PageId)
  deriving DecidableEq, Repr

namespace State

/-- The start of the loop; only `wrapfs_unlink` marks the pvd. -/
def startTeardown (s : State C) (v : PvdId) : TeardownKind → State C
  | .wrapfsUnlink => s.modifyPvd v fun d => { d with duringUnlink := true }
  | .rawRelease => s
  | .clearPvd => s

/-- The page that is locked leaves its queue. `wrapfs_unlink` frees only pages of a clean queue, and
`__clear_pvd` takes every page to be in one. -/
def teardownRemove (s : State C) (p : PageId) : TeardownKind → State C × TeardownPc
  | .wrapfsUnlink =>
    match (s.pages p).bufferId with
    | .biClean => (s.remove (cleanQueue (s.pages p).index) p, .free p)
    | _ => (s, .unlock p)
  | .rawRelease =>
    match (s.pages p).bufferId with
    | .biClean => (s.remove (cleanQueue (s.pages p).index) p, .free p)
    | .biDirty => (s.remove (dirtyQueue (s.pages p).index) p, .free p)
    | .biNone => (s, .free p)
  | .clearPvd => (s.remove (cleanQueue (s.pages p).index) p, .free p)

/-- One step of the loop. -/
def stepTeardown (e : Env C) (s : State C) (k : TeardownKind) (v : PvdId) :
    TeardownPc → State C × TeardownPc
  | .idle => (s.startTeardown v k, .scan (List.range e.ncpus))
  | .scan [] => (s, .idle)
  | .scan (cpu :: cpus) =>
    match (s.trees ⟨.rdx, v, cpu⟩).first? with
    | none => (s, .scan cpus)
    | some (i, p) => (s.treeErase ⟨.rdx, v, cpu⟩ i, .lock p)
  | .lock p =>
    match s.trylockTp p ulongMax with
    | (0, s) => (s, .remove p)
    | (_, s) => (s, .lock p)
  | .remove p => s.teardownRemove p k
  | .free p => (s.freePageLock p, .scan (List.range e.ncpus))
  | .unlock p => (s.unlockTp p, .scan (List.range e.ncpus))

end State

/-- The threads, and the loop. -/
structure Closing (C : Type*) where
  m : Machine C
  td : TeardownPc

/-- The steps: of a thread, or of the loop. -/
inductive ClosingAct (C : Type*) where
  | thread (t : Tid) (a : Act C)
  | teardown

namespace Closing

open State

/-- Purges, and faults of other files. -/
def elsewhere (s : State C) (v : PvdId) : Task → Bool
  | .purge _ => true
  | .getpage vma _ => s.vmaPvd vma ≠ some v
  | _ => false

/-- Whether a thread may start this call. -/
def admits (s : State C) (v : PvdId) : Act C → Bool
  | .start k => elsewhere s v k
  | .step _ => true

def next (e : Env C) (k : TeardownKind) (v : PvdId) (c : Closing C) :
    ClosingAct C → Except Halt (Closing C)
  | .thread t a =>
    if admits c.m.st v a then (c.m.next e t a).map fun m => { c with m := m }
    else .error .notIssued
  | .teardown =>
    match c.m.st.stepTeardown e k v c.td with
    | (s, td) => .ok ⟨{ c.m with st := s }, td⟩

def Steps (e : Env C) (k : TeardownKind) (v : PvdId) (c : Closing C) (l : ClosingAct C)
    (c' : Closing C) : Prop := c.next e k v l = .ok c'

/-- Nobody is in a call. -/
def quiescent (s : State C) : Closing C := ⟨Machine.quiescent s, .idle⟩

/-- A page that is allocated is not one that the loop waits for. -/
def unawaited (e : Env C) (c : Closing C) : ClosingAct C → Bool
  | .thread t (.step ch) =>
    match c.m.pc t with
    | .get r .alloc =>
      match (c.m.st.allocPageLock e ch.node r.vmf.pgoff r.pvd).1 with
      | some p => c.td ≠ .lock p
      | none => true
    | _ => true
  | _ => true

def StepsUnawaited (e : Env C) (k : TeardownKind) (v : PvdId) (c : Closing C) (l : ClosingAct C)
    (c' : Closing C) : Prop := c.unawaited e l = true ∧ Steps e k v c l c'

end Closing

/-! ### The loop and the threads together -/

/-- The page that the loop has locked. -/
def TeardownPc.held : TeardownPc → List PageId
  | .remove p => [p]
  | .free p => [p]
  | .unlock p => [p]
  | _ => []

/-- The page that the loop waits for. -/
def TeardownPc.waits : TeardownPc → Option PageId
  | .lock p => some p
  | _ => none

namespace Closing

open State

variable {e : Env C} {k : TeardownKind} {v : PvdId} {c c' : Closing C} {l : ClosingAct C}
  {s s' : State C} {t : Tid} {pc' : Pc} {td' : TeardownPc}

def held (c : Closing C) : Option Tid → List PageId
  | some t => (c.m.pc t).purged
  | none => c.td.held

def gone (c : Closing C) : Option Tid → List PageId
  | some t => (c.m.pc t).deleted
  | none => c.td.held

/-- The pages of the pvd are in good hands, and the threads have to do with other files. -/
structure Inv (e : Env C) (v : PvdId) (c : Closing C) : Prop where
  custody : Custody e v c.m.st c.held c.gone c.td.waits
  apart (t : Tid) : (c.m.pc t).Apart v c.m.st

lemma held_put (c : Closing C) (t : Tid) (s : State C) (pc : Pc) (log : List (BlockWrite C)) :
    ({ c with m := c.m.put t s pc log } : Closing C).held =
      Function.update c.held (some t) pc.purged := by
  funext x
  cases x with
  | none => simp [held]
  | some u =>
    by_cases hu : u = t
    · simp [held, hu]
    · simp [held, hu, Machine.put_pc_of_ne]

lemma gone_put (c : Closing C) (t : Tid) (s : State C) (pc : Pc) (log : List (BlockWrite C)) :
    ({ c with m := c.m.put t s pc log } : Closing C).gone =
      Function.update c.gone (some t) pc.deleted := by
  funext x
  cases x with
  | none => simp [gone]
  | some u =>
    by_cases hu : u = t
    · simp [gone, hu]
    · simp [gone, hu, Machine.put_pc_of_ne]

/-- A thread has taken a step. -/
lemma Inv.put {log : List (BlockWrite C)} (h : Inv e v c)
    (hc : Custody e v s' (Function.update c.held (some t) pc'.purged)
      (Function.update c.gone (some t) pc'.deleted) c.td.waits) (ha : pc'.Apart v s')
    (hback : ∀ p, (s'.pages p).OwnedBy v → (c.m.st.pages p).OwnedBy v) :
    Inv e v { c with m := c.m.put t s' pc' log } := by
  constructor
  · rw [held_put, gone_put]
    exact hc
  · intro u
    by_cases hu : u = t
    · subst hu
      simpa using ha
    · simp only [Machine.put_pc_of_ne hu, Machine.put_st]
      exact (h.apart u).back hback

/-- A purge, or a fault of another file, starts. -/
lemma Inv.start {task : Task} {log : List (BlockWrite C)} (h : Inv e v c)
    (hk : elsewhere c.m.st v task = true)
    (hs : c.m.st.start e t task = .ok pc') :
    Inv e v { c with m := c.m.put t c.m.st pc' log } := by
  have hnil : ∀ {pc : Pc}, pc.purged = [] → pc.deleted = [] → pc.Apart v c.m.st →
      Inv e v { c with m := c.m.put t c.m.st pc log } := by
    intro pc hp hd ha
    refine h.put ?_ ha fun _ ho => ho
    rw [hp, hd]
    exact h.custody.untouched (.refl v none _) (by simp) (List.nil_sublist _) (by simp)
  rcases start_inv hs with ⟨vma, i, w, rfl, hw, rfl⟩ | ⟨vma, i, w, p, b, rfl, -⟩ | ⟨qid, rfl, rfl⟩ |
    ⟨id, rfl, -⟩ | ⟨cb, w, rfl, -⟩
  · refine hnil rfl rfl ⟨?_, by simp [GetPc.page?]⟩
    rintro rfl
    simp [elsewhere, hw] at hk
  · simp [elsewhere] at hk
  · exact hnil rfl rfl (by simp [Pc.Apart])
  · simp [elsewhere] at hk
  · simp [elsewhere] at hk

/-- A thread goes on. -/
lemma Inv.stepThread {ch : Choice C} {log : List (BlockWrite C)} (h : Inv e v c)
    (hw : c.unawaited e (.thread t (.step ch)) = true)
    (hs : c.m.st.stepThread e ch (c.m.pc t) = .ok (s', pc')) :
    Inv e v { c with m := c.m.put t s' pc' log } := by
  have ha := h.apart t
  cases hpc : c.m.pc t with
  | idle =>
    rw [hpc] at hs
    exact absurd hs (by simp [State.stepThread])
  | get r x =>
    rw [hpc] at hs ha
    obtain ⟨hu, ha', hp⟩ := h.custody.own.stepGet ha hs
    have hd : pc'.deleted = [] := by
      cases pc' with
      | purge ret y => cases y <;> simp_all [Pc.purged, Pc.deleted, PurgePc.pages, PurgePc.deleted]
      | _ => rfl
    refine h.put ?_ ha' fun p => hu.back
    rw [hp, hd]
    refine h.custody.untouched hu (fun q hq => ?_) (List.nil_sublist _) (by simp)
    -- the page that is handed out is not the one that the loop waits for
    cases x with
    | alloc =>
      simp only [allocated] at hq
      simp only [unawaited, hpc, hq, decide_eq_true_eq] at hw
      intro hwait
      refine hw ?_
      cases htd : c.td with
      | lock p =>
        rw [htd] at hwait
        rw [Option.some.inj hwait]
      | idle | scan cpus | remove p | free p | unlock p =>
        rw [htd] at hwait
        exact absurd hwait (by simp [TeardownPc.waits])
    | _ => simp [allocated] at hq
  | mkwrite r p x =>
    rw [hpc] at ha
    exact ha.elim
  | purge ret y =>
    rw [hpc] at hs ha
    refine h.put ?_ (apart_stepPurge ha hs) fun p => back_stepPurge hs
    exact h.custody.stepPurge (by simp [held, hpc, Pc.purged]) (by simp [gone, hpc, Pc.deleted]) hs
  | evict x =>
    rw [hpc] at ha
    exact ha.elim
  | sync a x =>
    rw [hpc] at ha
    exact ha.elim

lemma held_teardown (c : Closing C) (s : State C) (td : TeardownPc) :
    (⟨{ c.m with st := s }, td⟩ : Closing C).held = Function.update c.held none td.held := by
  funext x
  cases x <;> simp [held]

lemma gone_teardown (c : Closing C) (s : State C) (td : TeardownPc) :
    (⟨{ c.m with st := s }, td⟩ : Closing C).gone = Function.update c.gone none td.held := by
  funext x
  cases x <;> simp [gone]

/-- The loop has taken a step that leaves the pages of the pvd alone. -/
lemma Inv.untouched {td : TeardownPc} (h : Inv e v c) (hu : Untouched v none c.m.st s')
    (hh : td.held = c.td.held)
    (hw : ∀ p, td.waits = some p →
      ((s'.pages p).inUse = true → (s'.pages p).pvd = some v) ∧ s'.Out v p) :
    Inv e v ⟨{ c.m with st := s' }, td⟩ := by
  constructor
  · rw [held_teardown, gone_teardown]
    refine Custody.await (h.custody.untouched hu (by simp) ?_ fun q hq ho => ?_) hw
    · rw [hh]
      exact List.Sublist.refl _
    · rw [hh] at hq
      exact hu.out (h.custody.gone (x := none) hq (hu.back ho))
  · intro t
    exact (h.apart t).back fun _ => hu.back

/-- A step of the loop. -/
lemma Inv.stepTeardown (h : Inv e v c) (hs : c.m.st.stepTeardown e k v c.td = (s', td')) :
    Inv e v ⟨{ c.m with st := s' }, td'⟩ := by
  cases htd : c.td with
  | idle =>
    rw [htd] at hs
    obtain ⟨rfl, rfl⟩ := Prod.mk.inj hs
    refine h.untouched ?_ (by rw [htd]; rfl) (by simp [TeardownPc.waits])
    cases k <;> exact untouched_of_eq (fun _ => rfl) rfl rfl
  | scan cpus =>
    rw [htd] at hs
    cases cpus with
    | nil =>
      obtain ⟨rfl, rfl⟩ := Prod.mk.inj hs
      exact h.untouched (.refl _ _ _) (by rw [htd]; rfl) (by simp [TeardownPc.waits])
    | cons cpu cpus =>
      simp only [State.stepTeardown] at hs
      split at hs
      · obtain ⟨rfl, rfl⟩ := Prod.mk.inj hs
        exact h.untouched (.refl _ _ _) (by rw [htd]; rfl) (by simp [TeardownPc.waits])
      · rename_i i p hfirst
        obtain ⟨rfl, rfl⟩ := Prod.mk.inj hs
        -- the page is found under its own index
        obtain ⟨ho, rfl, rfl⟩ := h.custody.own.tree (KeyMap.lookup_of_first? hfirst)
        refine h.untouched (untouched_treeErase _ _ _) (by rw [htd]; rfl) fun q hq => ?_
        obtain rfl : p = q := Option.some.inj hq
        exact ⟨fun _ => ho.2, h.custody.own.out_treeErase⟩
  | lock p =>
    rw [htd] at hs
    obtain ⟨hv, hout⟩ := h.custody.waits (p := p) (by rw [htd]; rfl)
    simp only [State.stepTeardown] at hs
    cases hl : c.m.st.trylockTp p ulongMax with
    | mk z s₁ =>
      by_cases hz : z = 0
      · subst hz
        simp only [hl] at hs
        obtain ⟨rfl, rfl⟩ := Prod.mk.inj hs
        obtain ⟨hu, hlock, rfl⟩ := trylockTp_zero hl
        have hc := h.custody.lock (x := none) (g := [p]) hlock (fun _ => ⟨hu, hv hu⟩) (by
          intro q hq _
          obtain rfl := List.mem_singleton.mp hq
          exact hout)
        constructor
        · rw [held_teardown, gone_teardown]
          have hnil : c.held none = [] := by simp [held, htd, TeardownPc.held]
          rw [hnil, List.nil_append] at hc
          exact hc.await (by simp [TeardownPc.waits])
        · intro t
          exact (h.apart t).back fun _ => back_lock
      · simp only [hl] at hs
        obtain ⟨rfl, rfl⟩ := Prod.mk.inj hs
        rw [trylockTp_fail hl hz]
        refine h.untouched (.refl _ _ _) (by rw [htd]) fun q hq => ?_
        obtain rfl : p = q := Option.some.inj hq
        exact ⟨hv, hout⟩
  | remove p =>
    rw [htd] at hs
    have hrem : ∀ {s₁ : State C} {td₁ : TeardownPc}, Untouched v none c.m.st s₁ → td₁.held = [p] →
        td₁.waits = none → (s₁, td₁) = (s', td') → Inv e v ⟨{ c.m with st := s' }, td'⟩ := by
      intro s₁ td₁ hu hh hw heq
      obtain ⟨rfl, rfl⟩ := Prod.mk.inj heq
      refine h.untouched hu (by rw [htd, hh]; rfl) fun q hq => ?_
      rw [hw] at hq
      cases hq
    simp only [State.stepTeardown] at hs
    cases k with
    | wrapfsUnlink =>
      simp only [teardownRemove] at hs
      split at hs
      · exact hrem (untouched_remove _ _ p) rfl rfl hs
      · exact hrem (.refl _ _ _) rfl rfl hs
    | rawRelease =>
      simp only [teardownRemove] at hs
      split at hs
      · exact hrem (untouched_remove _ _ p) rfl rfl hs
      · exact hrem (untouched_remove _ _ p) rfl rfl hs
      · exact hrem (.refl _ _ _) rfl rfl hs
    | clearPvd => exact hrem (untouched_remove _ _ p) rfl rfl hs
  | free p =>
    rw [htd] at hs
    obtain ⟨rfl, rfl⟩ := Prod.mk.inj hs
    constructor
    · rw [held_teardown, gone_teardown]
      refine (h.custody.free (x := none) (p := p) (l := []) (g := []) ?_ ?_ (by simp)).await
        (by simp [TeardownPc.waits])
      · simp [held, htd, TeardownPc.held]
      · simp [gone, htd, TeardownPc.held]
    · intro t
      exact (h.apart t).back fun _ => back_freePageLock
  | unlock p =>
    rw [htd] at hs
    obtain ⟨rfl, rfl⟩ := Prod.mk.inj hs
    constructor
    · rw [held_teardown, gone_teardown]
      exact (h.custody.unlock (by simp [held, htd, TeardownPc.held])).await
        (by simp [TeardownPc.waits])
    · intro t
      refine (h.apart t).back fun q ho => ?_
      by_cases hq : q = p
      · subst hq
        simpa [unlockTp, modifyPage, TaggedPage.OwnedBy] using ho
      · simpa [unlockTp, modifyPage, hq] using ho

/-! ### Runs -/

lemma Inv.step (h : Inv e v c) (hs : StepsUnawaited e k v c l c') : Inv e v c' := by
  obtain ⟨hw, hs⟩ := hs
  cases l with
  | thread t a =>
    simp only [Steps, next] at hs
    split_ifs at hs with hadm
    obtain ⟨m', hm, rfl⟩ := Except.map_eq_ok.mp hs
    rcases Machine.steps_cases (l := (t, a)) hm with
      ⟨task, pc', rfl, -, hk, rfl⟩ | ⟨ch, s', pc', rfl, hk, rfl⟩
    · exact h.start hadm hk
    · exact h.stepThread hw hk
  | teardown =>
    obtain rfl := Except.ok.inj hs
    exact h.stepTeardown rfl

/-- Between calls every page of the pvd is in its radix tree, and nobody holds one. -/
lemma inv_quiescent (h : s.Quiet e) (v : PvdId) : Inv e v (quiescent s) := by
  have hidle : ∀ {p}, (s.pages p).OwnedBy v → Resident e p (s.view e p) := by
    intro p ho
    rcases (h.page p).phase with hi | hr
    · exact absurd (hi.inUse.symm.trans ho.1) Bool.false_ne_true
    · exact hr
  have hheld : ∀ x, (quiescent s).held x = [] ∧ (quiescent s).gone x = [] := by
    intro x
    cases x <;> exact ⟨rfl, rfl⟩
  constructor
  · refine ⟨⟨fun {cpu i p} hl => ?_, fun {w cpu i p} hw hl ho => ?_, fun {cpu p} hf ho => ?_⟩,
      fun {x p} hp => ?_, fun {x p} _ => ?_, fun {x y p} _ hp => ?_, fun {x p} hp => ?_,
      fun hp => ?_, fun hp => ?_⟩
    · obtain ⟨hc, hv, hi⟩ := h.placed.tree_own hl
      refine ⟨⟨?_, hv⟩, hi, hc⟩
      rcases (h.page p).phase with hid | hr
      · have ht := h.placed.tree_of_lookup hl
        rw [hid.unlinked.tree] at ht
        exact absurd ht Bool.false_ne_true
      · exact hr.inUse
    · obtain ⟨-, hv, -⟩ := h.placed.tree_own hl
      exact hw (Option.some.inj (hv.symm.trans ho.2))
    · have hfree := (hidle ho).free
      rw [← h.placed.fl_home hf] at hf
      exact Bool.false_ne_true (hfree.symm.trans ((view_free e s p).mpr hf))
    · rw [(hheld x).1] at hp
      exact absurd hp List.not_mem_nil
    · rw [(hheld x).1]
      exact Nat.zero_le 1
    · rw [(hheld x).1] at hp
      exact absurd hp List.not_mem_nil
    · rw [(hheld x).2] at hp
      exact absurd hp List.not_mem_nil
    · rw [(hheld none).1] at hp
      exact absurd hp List.not_mem_nil
    · exact absurd hp (by simp [quiescent, TeardownPc.waits])
  · intro t
    exact trivial

/-- Every page that the loop takes out of a queue and frees is in use for its pvd. -/
theorem teardown_frees_own (e : Env C) (w : World C) (ops : List (Op C)) (s : State C)
    (k : TeardownKind) (v : PvdId) (ls : List (ClosingAct C)) (c : Closing C) (p : PageId)
    (hs : Run (Completes e) (initParams e w) ops s)
    (hr : Run (StepsUnawaited e k v) (quiescent s) ls c) (hp : c.td = .remove p ∨ c.td = .free p) :
    (c.m.st.pages p).inUse = true ∧ (c.m.st.pages p).pvd = some v := by
  have hq := (quiet_initParams e w).run hs
  have h : Inv e v c := hr.invariant (fun _ _ _ h hs => h.step hs) (inv_quiescent hq v)
  refine h.custody.mine ?_
  rcases hp with hp | hp
  · simp [held, hp, TeardownPc.held]
  · simp [held, hp, TeardownPc.held]

/-- The state after a sequence of steps, under a check of each of them. -/
def nextAll (check : Closing ℕ → ClosingAct ℕ → Bool) (k : TeardownKind) (v : PvdId) (c : Closing ℕ)
    (ls : List (ClosingAct ℕ)) : Option (Closing ℕ) :=
  ls.foldlM (fun c l => if check c l then (c.next onePageEnv k v l).toOption else none) c

/-- The state in which the only page caches the first block of file 0. -/
def cachedPage : List (Op ℕ) := [.fault 0 0 smallFault]

/-- The loop runs alone until it has locked the page. -/
theorem teardown_frees_own_alone :
    ∃ s c, Run (Completes onePageEnv) (initParams onePageEnv smallWorld) cachedPage s ∧
      Run (StepsUnawaited onePageEnv .wrapfsUnlink 0) (quiescent s)
        (List.replicate 3 .teardown) c ∧ c.td = .remove 0 ∧
      (c.m.st.pages 0).inUse = true ∧ (c.m.st.pages 0).pvd = some 0 := by
  have h : ((execAll onePageEnv (initParams onePageEnv smallWorld) cachedPage).bind
      fun s => (nextAll (unawaited onePageEnv) .wrapfsUnlink 0 (quiescent s)
        (List.replicate 3 .teardown)).map fun c => c.td) = some (.remove 0) := by decide +kernel
  obtain ⟨s, hs, hc⟩ := Option.bind_eq_some_iff.mp h
  obtain ⟨c, hc, htd⟩ := Option.map_eq_some_iff.mp hc
  have hr : Run (StepsUnawaited onePageEnv .wrapfsUnlink 0) (quiescent s)
      (List.replicate 3 .teardown) c := by
    refine Run.of_foldlM (fun c l c' hs => ?_) hc
    split_ifs at hs with hcheck
    exact ⟨hcheck, Except.toOption_eq_some.mp hs⟩
  exact ⟨s, c, run_execAll hs, hr, htd,
    teardown_frees_own _ _ _ s _ _ _ c 0 (run_execAll hs) hr (Or.inl htd)⟩

/-- A purge locks the page; the loop takes it out of the tree and waits for it; the purge frees it,
and a fault of file 1 is given it; then the loop locks it. -/
def recycledPage : List (ClosingAct ℕ) :=
  [.thread (.user 3) (.start (.purge 0)), .thread (.user 3) (.step Machine.plain)] ++
    List.replicate 2 .teardown ++ List.replicate 196 (.thread (.user 3) (.step Machine.plain)) ++
    .thread (.user 1) (.start (.getpage 1 0)) ::
      List.replicate 8 (.thread (.user 1) (.step Machine.plain)) ++ [.teardown]

set_option maxRecDepth 4000 in
/-- The loop is about to free a page of another file. -/
theorem teardown_frees_other :
    ¬ ∀ (e : Env ℕ) (w : World ℕ) (ops : List (Op ℕ)) (s : State ℕ) (k : TeardownKind) (v : PvdId)
      (ls : List (ClosingAct ℕ)) (c : Closing ℕ) (p : PageId),
      Run (Completes e) (initParams e w) ops s → Run (Steps e k v) (quiescent s) ls c →
        c.td = .remove p ∨ c.td = .free p →
          (c.m.st.pages p).inUse = true ∧ (c.m.st.pages p).pvd = some v := by
  intro hall
  have h : ((execAll onePageEnv (initParams onePageEnv smallWorld) cachedPage).bind
      fun s => (nextAll (fun _ _ => true) .wrapfsUnlink 0 (quiescent s)
        (recycledPage ++ [.teardown])).map
        fun c => (c.td, (c.m.st.pages 0).pvd)) = some (.free 0, some 1) := by decide +kernel
  obtain ⟨s, hs, hc⟩ := Option.bind_eq_some_iff.mp h
  obtain ⟨c, hc, hp⟩ := Option.map_eq_some_iff.mp hc
  obtain ⟨htd, hpvd⟩ := Prod.mk.inj hp
  have hr : Run (Steps onePageEnv .wrapfsUnlink 0) (quiescent s)
      (recycledPage ++ [.teardown]) c :=
    Run.of_foldlM (fun _ _ _ hs => Except.toOption_eq_some.mp (by simpa using hs)) hc
  have hown := (hall _ _ _ s _ _ _ c 0 (run_execAll hs) hr (Or.inr htd)).2
  rw [hpvd] at hown
  exact absurd hown (by decide)

end Closing

end FastMap
