import FastMap.Accounting

/-!
# Resetting the buffer fields

`reset_state_fifo_buffer_t` makes the clean queues empty again, whatever they hold. The pages that
were linked there keep their fields and their entries in the radix trees. A page that leaves such a
list later writes to the head it was linked at, so runs are of interest only up to a reset that
loses a page.
-/

namespace FastMap

variable {C : Type*}

/-- The calls on the buffer, and the control `0_reset_buffer_fields`. -/
inductive ControlOp (C : Type*) where
  | call (op : Op C)
  | resetState

/-- The lists that a buffer has. -/
def Slot.Exists (e : Env C) : Slot → Prop
  | .free cpu => cpu < e.ncpus
  | .queue (.clean i) => i < numQueues
  | .queue (.dirty i) => i < evictorThreads

namespace State

/-- `reset` of a clean queue. -/
def resetFifo (s : State C) (q : Queue) : State C :=
  s.modifyQueue q fun l => { l with buffer := [], size := 0 }

/-- `reset_state_fifo_buffer_t` -/
def resetState (s : State C) : State C :=
  (List.range numQueues).foldl (fun s i => s.resetFifo (.clean i)) s

/-- A completed call, or a reset. -/
def Controls (e : Env C) (s : State C) : ControlOp C → State C → Prop
  | .call op, s' => Completes e s op s'
  | .resetState, s' => s' = s.resetState

/-- Every page is in one list that exists, and every counter counts its list. With several nodes
`alloc_page_lock` forgets pages that are not in use; they are not counted here. -/
structure NothingLost (e : Env C) (s : State C) : Prop where
  one_slot {p : PageId} : p < e.numPages → ((s.pages p).inUse = true ∨ e.OneNode) →
    ∃ l, Slot.Exists e l ∧ ∀ l', (s.slot l').count p = if l' = l then 1 else 0
  size_eq (q : Queue) : (s.queues q).size = (s.queues q).buffer.length

variable {e : Env C} {s s' : State C} {p : PageId}

/-! ### Calls -/

lemma Quiet.nothingLost (h : s.Quiet e) : s.NothingLost e := by
  refine ⟨fun {p} hp hu => ?_, h.placed.queue_size⟩
  rcases (h.page p).phase with hi | hres
  · have ho := hu.resolve_left (by rw [show (s.pages p).inUse = false from hi.inUse]; simp)
    have hfree := (h.page p).free ho hp hi.inUse
    exact ⟨.free (e.home p), home_lt hp, h.placed.count_slot (h.placed.slot_idle hi hfree)⟩
  · refine ⟨_, ?_, h.placed.count_slot (h.placed.slot_resident hres)⟩
    split_ifs
    · exact Nat.mod_lt _ (by decide)
    · exact Nat.mod_lt _ (by decide)

/-! ### Resets -/

lemma foldl_resetFifo (s : State C) (l : List ℕ) :
    l.foldl (fun s i => s.resetFifo (.clean i)) s =
      { s with
        queues := fun q =>
          if q ∈ l.map Queue.clean then { s.queues q with buffer := [], size := 0 }
          else s.queues q } := by
  induction l generalizing s with
  | nil => rfl
  | cons i l ih =>
    rw [List.foldl_cons, ih]
    simp only [resetFifo, modifyQueue, State.mk.injEq, true_and, and_true]
    funext q
    by_cases hq : q = .clean i
    · subst hq
      by_cases hl : Queue.clean i ∈ l.map Queue.clean <;> simp [hl]
    · simp [hq]

/-- A reset of queues that are empty does nothing. -/
lemma Quiet.resetState_eq (h : s.Quiet e)
    (hb : ∀ i < numQueues, (s.queues (.clean i)).buffer = []) : s.resetState = s := by
  rw [resetState, foldl_resetFifo]
  congr
  funext q
  split_ifs with hq
  · obtain ⟨i, hi, rfl⟩ := List.mem_map.mp hq
    have hbuf := hb i (List.mem_range.mp hi)
    have hsize : (s.queues (.clean i)).size = 0 := by rw [h.placed.queue_size, hbuf, List.length_nil]
    rw [← hbuf, ← hsize]
  · rfl

/-- Otherwise it loses a page. -/
lemma Quiet.empty_of_nothingLost (h : s.Quiet e) (hn : s.resetState.NothingLost e) (i : ℕ)
    (hi : i < numQueues) : (s.queues (.clean i)).buffer = [] := by
  rw [List.eq_nil_iff_forall_not_mem]
  intro p hp
  have hres := h.inv.resident_of_queue hp
  rw [resetState, foldl_resetFifo] at hn
  obtain ⟨l, -, hl⟩ := hn.one_slot hres.lt (Or.inl hres.inUse)
  have hmem := List.count_pos_iff.mp (by rw [hl l, if_pos rfl]; exact Nat.one_pos)
  cases l with
  | free cpu =>
    have hfree := (h.placed.mem_fl_iff.mp hmem).1
    exact Bool.false_ne_true (hres.free.symm.trans hfree)
  | queue q =>
    simp only [slot] at hmem
    split_ifs at hmem with hq
    · exact absurd hmem List.not_mem_nil
    · obtain rfl := h.placed.queue_one hp hmem
      exact hq (List.mem_map_of_mem (List.mem_range.mpr hi))

/-! ### Runs -/

variable {w : World C} {ops pre : List (ControlOp C)}

/-- As long as the resets find empty queues, the buffer is quiet. -/
lemma quiet_of_controls (hr : Run (Controls e) (initParams e w) ops s)
    (hreset : ∀ pre s, pre ++ [.resetState] <+: ops → Run (Controls e) (initParams e w) pre s →
      s.Quiet e → ∀ i < numQueues, (s.queues (.clean i)).buffer = []) : s.Quiet e := by
  induction hr with
  | nil => exact quiet_initParams e w
  | @snoc pre op s s' hr hs ih =>
    have hq : s.Quiet e := by
      apply ih
      intro pre' t hpre
      exact hreset pre' t (hpre.trans (List.prefix_append pre [op]))
    cases op with
    | call op => exact hq.step hs
    | resetState =>
      obtain rfl : s' = s.resetState := hs
      rwa [hq.resetState_eq (hreset pre s List.prefix_rfl hr hq)]

end State

end FastMap
