import FastMap.Accounting
import FastMap.Purge
import FastMap.RawRelease

/-!
# Unloading the buffer

`deallocate_runtime_buffer` first empties the clean queues one after the other and frees their
pages. It then stops the evictors, which have been running all the time, and frees the frames of
the pages that are on a free list. The dirty queues are left to the evictors.
-/

namespace FastMap

variable {C : Type*}

namespace State

/-- `dequeue` -/
def dequeue (s : State C) (q : Queue) : Option PageId × State C :=
  if (s.queues q).size = 0 then (none, s)
  else
    match (s.queues q).buffer with
    | [] => (none, s)
    | p :: _ => (some p, s.remove q p)

/-- `drain_page` on a page that the caller has not locked. -/
def drainPage (e : Env C) (s : State C) (p : PageId) : Except Halt (State C) :=
  match s.trylockTp p ulongMax with
  | (0, s) =>
    match (s.pages p).pvd with
    | none => .error .nullDeref
    | some v =>
      let index := (s.pages p).index
      .ok (((s.treeErase ⟨.rdx, v, index % e.ncpus⟩ index).removeMappings p).freePageLock p)
  | _ => .error .spin

/-- The pages whose frames `free_hash_table` frees, in that order. -/
def freeHashTable (e : Env C) (s : State C) : List PageId := (List.range e.ncpus).flatMap s.fl

end State

/-- The buffer while it is unloaded, with the clean queue that `cleanup_params_fifo_buffer_t` is
at. -/
structure Unloading (C : Type*) where
  st : State C
  queue : ℕ

/-- An iteration of `cleanup_params_fifo_buffer_t`, or a round of an evictor. -/
inductive UnloadStep where
  | cleanup
  | evictor (id : ℕ)

namespace Unloading

/-- `deallocate_runtime_buffer` starts. -/
def start (s : State C) : Unloading C := ⟨s, 0⟩

/-- With the last queue empty, `cleanup_mmap_buffer_data_fifo_buffer_t` waits for the evictors. -/
def exec (e : Env C) (u : Unloading C) : UnloadStep → Except Halt (Unloading C)
  | .cleanup =>
    if numQueues ≤ u.queue then .ok u
    else
      match u.st.dequeue (.clean u.queue) with
      | (none, s) => .ok ⟨s, u.queue + 1⟩
      | (some p, s) => (s.drainPage e p).map fun s => ⟨s, u.queue⟩
  | .evictor id => .ok ⟨u.st.evictorRound e id, u.queue⟩

def Steps (e : Env C) (u : Unloading C) (a : UnloadStep) (u' : Unloading C) : Prop :=
  u.exec e a = .ok u'

end Unloading

namespace State

variable {e : Env C} {s s' : State C} {p : PageId} {i : ℕ}

/-- Every page that was put on a free list by initialisation is freed once, and what was dirty is
on its device. -/
structure Accounted (e : Env C) (s s' : State C) : Prop where
  freed {p : PageId} : p < e.numPages → (s'.freeHashTable e).count p = 1
  written {p : PageId} {v : PvdId} : (s.pages p).OwnedBy v → (s.pages p).isDirty = true →
    s'.disk ((s.pvds v).bk, (s.pages p).index) = (s.pages p).content

/-- However the evictors are scheduled, unloading comes to `free_hash_table`, and accounts for
every page when it is there. -/
structure Unloads (e : Env C) (s : State C) : Prop where
  returns {as : List UnloadStep} {u : Unloading C} : Run (Unloading.Steps e) (.start s) as u →
    ∃ n u', Run (Unloading.Steps e) u (List.replicate n .cleanup) u' ∧ u'.queue = numQueues
  accounted {as : List UnloadStep} {u : Unloading C} :
    Run (Unloading.Steps e) (.start s) as u → u.queue = numQueues → Accounted e s u.st

/-! ### One page -/

/-- A page of a clean queue can be reclaimed. -/
lemma Quiet.purgeable (h : s.Quiet e) (hp : p ∈ (s.queues (.clean i)).buffer) :
    Purgeable e p (s.view e p) := by
  have hres := h.inv.resident_of_queue hp
  refine ⟨hres, ?_, (h.page p).unlocked⟩
  simpa [h.placed.clean_of_mem hp] using hres.clean

/-- The first page of a clean queue is dequeued and drained. -/
lemma Quiet.drainPage (h : s.Quiet e) (hp : p ∈ (s.queues (.clean i)).buffer) :
    ∃ s', (s.remove (.clean i) p).drainPage e p = .ok s' ∧
      s'.queues = (s.remove (.clean i) p).queues ∧ Moves e s s' p (s.view e p).purged := by
  have hpur := h.purgeable hp
  obtain ⟨v, hv, -⟩ := view_tree.mp hpur.1.cached
  have hr := h.placed.moves_remove hp
  have hlock := trylockTp_eq (s := s.remove (.clean i) p) (p := p)
    (by rw [hr.pages_self]; exact hpur.1.inUse) (by rw [hr.pages_self]; exact hpur.2.2)
  have hl := hr.modifyPage (f := fun t => { t with locked := true }) rfl rfl
  set s₁ := (s.remove (.clean i) p).modifyPage p fun t => { t with locked := true } 
  have hview : s₁.view e p = (s.view e p).dequeued := hl.view_self
  have hv₁ : (s₁.pages p).pvd = some v := by
    rw [← view_page e, hview]
    exact hv
  have he := hl.placed.moves_treeErase hv₁ (by rw [hview]; exact hpur.1.cached)
  have hm := he.placed.moves_removeMappings (p := p)
  rw [he.view_self, hview] at hm
  have hf := hm.placed.moves_freeCollected hpur hm.view_self
  refine ⟨_, ?_, ?_, ((hl.trans he).trans hm).trans hf⟩
  · simp only [State.drainPage, hlock, hv₁]
  · exact (slotsOnly_removeMappings _ p).queues_eq

lemma Placed.dequeue_nil (h : s.Placed e) {q : Queue} (hb : (s.queues q).buffer = []) :
    s.dequeue q = (none, s) := by
  rw [dequeue, if_pos]
  rw [h.queue_size, hb, List.length_nil]

lemma Placed.dequeue_cons (h : s.Placed e) {q : Queue} {l : List PageId}
    (hb : (s.queues q).buffer = p :: l) : s.dequeue q = (some p, s.remove q p) := by
  rw [dequeue, if_neg, hb]
  rw [h.queue_size, hb, List.length_cons]
  exact Nat.succ_ne_zero _

end State

namespace Unloading

open State

variable {e : Env C} {u u' : Unloading C} {a : UnloadStep} {s s' : State C} {p : PageId} {i : ℕ}

/-! ### What a step does -/

/-- The four things that can happen. -/
inductive StepCase (e : Env C) (u : Unloading C) : UnloadStep → Unloading C → Prop
  | evictor (id : ℕ) : StepCase e u (.evictor id) ⟨u.st.evictorRound e id, u.queue⟩
  | waits : numQueues ≤ u.queue → StepCase e u .cleanup u
  | next : u.queue < numQueues → (u.st.queues (.clean u.queue)).buffer = [] →
      StepCase e u .cleanup ⟨u.st, u.queue + 1⟩
  | drain {p : PageId} {l : List PageId} {s : State C} : u.queue < numQueues →
      (u.st.queues (.clean u.queue)).buffer = p :: l →
      s.queues = (u.st.remove (.clean u.queue) p).queues →
      Moves e u.st s p (u.st.view e p).purged → StepCase e u .cleanup ⟨s, u.queue⟩

lemma exec_waits (hq : numQueues ≤ u.queue) : u.exec e .cleanup = .ok u := by
  simp only [exec, if_pos hq]

lemma exec_next (h : u.st.Quiet e) (hq : u.queue < numQueues)
    (hb : (u.st.queues (.clean u.queue)).buffer = []) :
    u.exec e .cleanup = .ok ⟨u.st, u.queue + 1⟩ := by
  simp only [exec, if_neg (not_le.mpr hq), h.placed.dequeue_nil hb]

lemma exec_drain (h : u.st.Quiet e) (hq : u.queue < numQueues) {l : List PageId}
    (hb : (u.st.queues (.clean u.queue)).buffer = p :: l) :
    ∃ s, u.exec e .cleanup = .ok ⟨s, u.queue⟩ ∧
      s.queues = (u.st.remove (.clean u.queue) p).queues ∧
      Moves e u.st s p (u.st.view e p).purged := by
  obtain ⟨s, hs, hqs, hm⟩ := h.drainPage (i := u.queue) (p := p) (by simp [hb])
  refine ⟨s, ?_, hqs, hm⟩
  simp only [exec, if_neg (not_le.mpr hq), h.placed.dequeue_cons hb, hs, Except.map]

lemma Steps.stepCase (h : u.st.Quiet e) (hs : Steps e u a u') : StepCase e u a u' := by
  cases a with
  | evictor id =>
    obtain rfl : (⟨u.st.evictorRound e id, u.queue⟩ : Unloading C) = u' := by
      simpa [Steps, exec] using hs
    exact .evictor id
  | cleanup =>
    rcases Nat.lt_or_ge u.queue numQueues with hq | hq
    · cases hb : (u.st.queues (.clean u.queue)).buffer with
      | nil =>
        obtain rfl := Except.ok.inj ((exec_next h hq hb).symm.trans hs)
        exact .next hq hb
      | cons p l =>
        obtain ⟨s, hs', hqs, hm⟩ := exec_drain h hq hb
        obtain rfl := Except.ok.inj (hs'.symm.trans hs)
        exact .drain hq hb hqs hm
    · obtain rfl := Except.ok.inj ((exec_waits hq).symm.trans hs)
      exact .waits hq

lemma quiet_of_purged (h : s.Quiet e) (hp : p ∈ (s.queues (.clean i)).buffer)
    (hm : Moves e s s' p (s.view e p).purged) : s'.Quiet e :=
  h.resolves hm.resolves ((h.page p).of_recycled (recycled_purged (h.purgeable hp)))

lemma StepCase.quiet (h : u.st.Quiet e) (hc : StepCase e u a u') : u'.st.Quiet e := by
  cases hc with
  | evictor id =>
    have hs : Completes e u.st (.evictor id []) (u.st.evictorRound e id) := ⟨rfl, rfl⟩
    exact h.step hs
  | waits _ => exact h
  | next _ _ => exact h
  | drain _ hb _ hm => exact quiet_of_purged h (by rw [hb]; exact List.mem_cons_self) hm

/-! ### Emptying the clean queues -/

/-- The clean queues have been emptied in part; other pages have not been touched. -/
structure Sweeps (e : Env C) (s s' : State C) : Prop where
  quiet : s'.Quiet e
  other {p : PageId} : (s.view e p).clean = false → s'.view e p = s.view e p

lemma Sweeps.trans {s'' : State C} (h : Sweeps e s s') (h' : Sweeps e s' s'') :
    Sweeps e s s'' := by
  refine ⟨h'.quiet, fun {p} hp => ?_⟩
  have hv := h.other hp
  rw [← hv] at hp
  rw [h'.other hp, hv]

lemma sweep_queue (h : s.Quiet e) (hi : i < numQueues) : ∃ n s',
    Run (Steps e) ⟨s, i⟩ (List.replicate n .cleanup) ⟨s', i + 1⟩ ∧ Sweeps e s s' := by
  generalize hb : (s.queues (.clean i)).buffer = l
  induction l generalizing s with
  | nil => exact ⟨1, s, Run.nil.snoc (exec_next (u := ⟨s, i⟩) h hi hb), h, fun _ => rfl⟩
  | cons p l ih =>
    obtain ⟨s₁, hs₁, hqs, hm⟩ := exec_drain (u := ⟨s, i⟩) h hi hb
    have hp : p ∈ (s.queues (.clean i)).buffer := by
      rw [hb]
      exact List.mem_cons_self
    have hq₁ : s₁.Quiet e := quiet_of_purged h hp hm
    have hsw : Sweeps e s s₁ := by
      refine ⟨hq₁, fun {q} hc => hm.view_of_ne ?_⟩
      rintro rfl
      exact Bool.false_ne_true (hc.symm.trans (h.placed.clean_of_mem hp))
    have hb₁ : (s₁.queues (.clean i)).buffer = l := by
      rw [hqs, remove_buffer, hb, List.erase_cons_head]
    obtain ⟨n, s', hr, hs'⟩ := ih hq₁ hb₁
    refine ⟨n + 1, s', ?_, hsw.trans hs'⟩
    have hone : Run (Steps e) ⟨s, i⟩ [.cleanup] ⟨s₁, i⟩ := Run.nil.snoc hs₁
    rw [List.replicate_succ]
    exact hone.append hr

lemma sweep (h : s.Quiet e) {k : ℕ} (hk : i + k = numQueues) : ∃ n s',
    Run (Steps e) ⟨s, i⟩ (List.replicate n .cleanup) ⟨s', numQueues⟩ ∧ Sweeps e s s' := by
  induction k generalizing s i with
  | zero =>
    obtain rfl : i = numQueues := hk
    exact ⟨0, s, .nil, h, fun _ => rfl⟩
  | succ k ih =>
    obtain ⟨n, s₁, hr, hs₁⟩ := sweep_queue h (i := i) (by omega)
    obtain ⟨m, s', hr', hs'⟩ := ih hs₁.quiet (i := i + 1) (by omega)
    refine ⟨n + m, s', ?_, hs₁.trans hs'⟩
    rw [List.replicate_add]
    exact hr.append hr'

/-- Unloading never gets past the last queue. -/
lemma queue_le_of_run {as : List UnloadStep} (h : s.Quiet e) (hr : Run (Steps e) (.start s) as u) :
    u.st.Quiet e ∧ u.queue ≤ numQueues := by
  refine hr.invariant (I := fun u => u.st.Quiet e ∧ u.queue ≤ numQueues) ?_ ⟨h, Nat.zero_le _⟩
  rintro u a u' ⟨hq, hle⟩ hs
  have hc := hs.stepCase hq
  refine ⟨hc.quiet hq, ?_⟩
  cases hc with
  | evictor id => exact hle
  | waits _ => exact hle
  | next hlt _ => exact hlt
  | drain _ _ _ _ => exact hle

/-! ### Without dirty pages -/

/-- A round finds nothing to write. -/
lemma evictorRound_eq (h : s.Quiet e) (hd : ∀ p, (s.pages p).isDirty = false) (id : ℕ) :
    s.evictorRound e id = s := by
  have hb : (s.queues (.dirty id)).buffer = [] := by
    rw [List.eq_nil_iff_forall_not_mem]
    intro p hp
    have hres := h.inv.resident_of_queue hp
    have hdirty := h.placed.dirty_of_mem hp
    rw [hres.dirty, view_page, hd p] at hdirty
    exact Bool.false_ne_true hdirty
  have hz : (s.queues (.dirty id)).size = 0 := by rw [h.placed.queue_size, hb, List.length_nil]
  have hdeq : s.dequeueIf (.dirty id) evDeq = (none, s) := by rw [dequeueIf, if_pos hz]
  simp only [State.evictorRound, hdeq]
  split_ifs <;> rfl

/-- The invariant of unloading a buffer of clean pages. -/
structure Inv (e : Env C) (u : Unloading C) : Prop where
  quiet : u.st.Quiet e
  clean (p : PageId) : (u.st.pages p).isDirty = false
  free {p : PageId} : p < e.numPages → (u.st.pages p).inUse = false → p ∈ u.st.fl (e.home p)
  emptied {i : ℕ} : i < u.queue → (u.st.queues (.clean i)).buffer = []

lemma Inv.step (h : Inv e u) (hs : Steps e u a u') : Inv e u' := by
  have hc := hs.stepCase h.quiet
  have hquiet := hc.quiet h.quiet
  cases hc with
  | evictor id => rwa [evictorRound_eq h.quiet h.clean id]
  | waits _ => exact h
  | next _ hb =>
    refine ⟨h.quiet, h.clean, h.free, fun {i} hi => ?_⟩
    rcases Nat.lt_succ_iff_lt_or_eq.mp hi with hi | rfl
    · exact h.emptied hi
    · exact hb
  | @drain p l s _ hb hqs hm =>
    have hview : ∀ {q}, q ≠ p → s.view e q = u.st.view e q := fun hq => hm.view_of_ne hq
    refine ⟨hquiet, fun q => ?_, fun {q} hq hu => ?_, fun {i} hi => ?_⟩
    · by_cases hqp : q = p
      · subst hqp
        rw [hm.pages_self]
        rfl
      · rw [← view_page e, hview hqp]
        exact h.clean q
    · by_cases hqp : q = p
      · subst hqp
        rw [← view_free, hm.view_self]
        rfl
      · rw [← view_page e, hview hqp] at hu
        rw [← view_free, hview hqp, view_free]
        exact h.free hq hu
    · rw [hqs, remove_buffer, h.emptied hi, List.erase_nil]

/-- With all clean queues empty, every page is on its free list. -/
lemma Inv.mem_fl (h : Inv e u) (hq : u.queue = numQueues) (hp : p < e.numPages) :
    p ∈ u.st.fl (e.home p) := by
  apply h.free hp
  rcases (h.quiet.page p).phase with hi | hres
  · exact hi.inUse
  · have hclean : (u.st.view e p).clean = true := by
      rw [hres.clean, view_page, h.clean p]
      rfl
    have hmem := (view_clean e u.st p).mp hclean
    rw [cleanQueue, h.emptied (by rw [hq]; exact Nat.mod_lt _ (by decide))] at hmem
    exact absurd hmem List.not_mem_nil

end Unloading

namespace State

variable {e : Env C} {s s' : State C} {p : PageId}

/-! ### Main result -/

lemma Placed.mem_freeHashTable (h : s.Placed e) (hp : p < e.numPages) :
    p ∈ s.freeHashTable e ↔ p ∈ s.fl (e.home p) := by
  rw [freeHashTable, List.mem_flatMap]
  constructor
  · rintro ⟨cpu, -, hm⟩
    rwa [h.fl_home hm]
  · intro hm
    exact ⟨e.home p, List.mem_range.mpr (home_lt hp), hm⟩

lemma Placed.freeHashTable_nodup (h : s.Placed e) : (s.freeHashTable e).Nodup := by
  rw [freeHashTable, List.nodup_flatMap]
  refine ⟨fun cpu _ => h.fl_nodup cpu, List.nodup_range.imp ?_⟩
  intro cpu cpu' hne p hp hp'
  exact hne ((h.fl_home hp).symm.trans (h.fl_home hp'))

/-- No cached page is dirty, and no page has been taken off its free list and forgotten. -/
structure Unloadable (e : Env C) (s : State C) : Prop where
  clean {p : PageId} : (s.pages p).inUse = true → (s.pages p).isDirty = false
  free {p : PageId} : p < e.numPages → (s.pages p).inUse = false → p ∈ s.fl (e.home p)

lemma Quiet.unloading_inv (h : s.Quiet e) (hu : s.Unloadable e) :
    Unloading.Inv e (.start s) := by
  refine ⟨h, fun p => ?_, hu.free, fun hi => absurd hi (Nat.not_lt_zero _)⟩
  rcases (h.page p).phase with hi | hres
  · exact hi.isDirty
  · exact hu.clean hres.inUse

lemma Quiet.unloads (h : s.Quiet e) (hu : s.Unloadable e) : s.Unloads e := by
  refine ⟨fun hr => ?_, fun hr hq => ?_⟩
  · obtain ⟨hquiet, hle⟩ := Unloading.queue_le_of_run h hr
    obtain ⟨n, s', hr', -⟩ := Unloading.sweep hquiet (Nat.add_sub_of_le hle)
    exact ⟨n, _, hr', rfl⟩
  · have hinv := hr.invariant (fun _ _ _ hi hs => hi.step hs) (h.unloading_inv hu)
    constructor
    · intro p hp
      apply List.count_eq_one_of_mem hinv.quiet.placed.freeHashTable_nodup
      rw [hinv.quiet.placed.mem_freeHashTable hp]
      exact hinv.mem_fl hq hp
    · intro p v hp hd
      rw [hu.clean hp.1] at hd
      exact absurd hd Bool.false_ne_true

/-- When no evictor makes a round, the pages outside the clean queues stay where they are. -/
lemma Quiet.unloadable_of_unloads (h : s.Quiet e) (hu : s.Unloads e) : s.Unloadable e := by
  obtain ⟨n, s', hr, hsw⟩ := Unloading.sweep h (Nat.zero_add numQueues)
  have hacc := hu.accounted hr rfl
  have hfree : ∀ {p}, p < e.numPages → (s.view e p).clean = false → (s.view e p).free = true := by
    intro p hp hc
    have hcount : (s'.freeHashTable e).count p = 1 := hacc.freed hp
    rw [← hsw.other hc, view_free, ← hsw.quiet.placed.mem_freeHashTable hp]
    exact List.count_pos_iff.mp (by rw [hcount]; exact Nat.one_pos)
  constructor
  · intro p hp
    by_contra hd
    have hres := h.inv.resident_of_inUse hp
    have hclean : (s.view e p).clean = false := by
      rw [hres.clean]
      simpa using hd
    exact Bool.false_ne_true (hres.free.symm.trans (hfree hres.lt hclean))
  · intro p hp hn
    rw [← view_free]
    apply hfree hp
    rcases (h.page p).phase with hi | hres
    · exact hi.unlinked.clean
    · exact absurd (hn.symm.trans hres.inUse) Bool.false_ne_true

/-- A clean page of a file. -/
def oneFileRead : List (Op ℕ) := [.fault 0 0 smallFault]

/-- The small machine with more pages, so that one dirty page does not wake the evictors. -/
def tenPages : Env ℕ := { smallEnv with bufSize := 10, bufSize_lt := by decide }

end State

end FastMap
