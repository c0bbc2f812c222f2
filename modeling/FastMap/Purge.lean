import FastMap.Lib.Rotation
import FastMap.System

/-!
# The order of reclaim

`try_purge_pages_fast` asks a clean queue for its first page a fixed number of times. A page that
`deq` accepts leaves the queue and is freed at the end; any other page goes to the tail. The queue
is a rotating queue in the sense of `List.rotating`, whose condition is fixed for the whole call: a
page that is locked or under unlink stays so, and taking one page does not touch the others.
-/

namespace FastMap

variable {C : Type*}

namespace State

variable {e : Env C} {s s' s₀ : State C} {p : PageId} {qid : ℕ} {gone l : List PageId}

/-- `try_purge_pages_fast` with any number of calls of `dequeue_if`. -/
def purge (e : Env C) (s : State C) (qid n : ℕ) : State C :=
  match purgeCollect e qid n [] s with
  | (pgs, s) => pgs.foldl freePageLock s

lemma tryPurgePagesFast_eq (e : Env C) (s : State C) (qid : ℕ) :
    s.tryPurgePagesFast e qid = s.purge e qid purgeBatch := rfl

/-- Whether `deq` accepts a page. -/
def accepts (s : State C) (p : PageId) : Bool := (s.deq p).1

/-- A clean queue as the operations keep it. -/
structure CleanQueue (s : State C) (qid : ℕ) : Prop where
  nodup : (s.queues (.clean qid)).buffer.Nodup
  size_eq : (s.queues (.clean qid)).size = (s.queues (.clean qid)).buffer.length
  size_lt : (s.queues (.clean qid)).size < ulongSize
  bufferId {p : PageId} : p ∈ (s.queues (.clean qid)).buffer → (s.pages p).bufferId = .biClean

/-- Every reachable clean queue, whichever pages are locked. -/
lemma Inv.cleanQueue (h : s.Inv e) (qid : ℕ) : s.CleanQueue qid := by
  constructor
  · exact h.placed.queue_nodup _
  · exact h.placed.queue_size _
  · rw [h.placed.queue_size]
    exact (h.placed.queue_size_lt _).trans (by decide)
  · intro p hp
    have hres := h.resident_of_queue hp
    have hclean : (s.view e p).clean = true := h.placed.clean_of_mem hp
    have hd : (s.pages p).isDirty = false := by simpa [hclean] using hres.clean
    simpa [hd] using hres.bufferId

/-! ### Unmapping a page -/

/-- Only the slots of one page and the bookkeeping of the areas have changed. -/
structure SlotsOnly (p : PageId) (s s' : State C) : Prop where
  pages_eq : ∃ r, s'.pages = Function.update s.pages p { s.pages p with rmap := r }
  queues_eq : s'.queues = s.queues
  fl_eq : s'.fl = s.fl
  pvds_eq : s'.pvds = s.pvds

lemma slotsOnly_refl (p : PageId) (s : State C) : SlotsOnly p s s :=
  ⟨⟨(s.pages p).rmap, (Function.update_eq_self p s.pages).symm⟩, rfl, rfl, rfl⟩

lemma SlotsOnly.trans {s'' : State C} (h : SlotsOnly p s s') (h' : SlotsOnly p s' s'') :
    SlotsOnly p s s'' := by
  obtain ⟨r, hr⟩ := h.pages_eq
  obtain ⟨r', hr'⟩ := h'.pages_eq
  refine ⟨⟨r', ?_⟩, ?_, ?_, ?_⟩
  · rw [hr', hr, Function.update_self, Function.update_idem]
  · rw [h'.queues_eq, h.queues_eq]
  · rw [h'.fl_eq, h.fl_eq]
  · rw [h'.pvds_eq, h.pvds_eq]

lemma SlotsOnly.foldl {α : Type*} {f : State C → α → State C}
    (hf : ∀ s a, SlotsOnly p s (f s a)) (as : List α) (s : State C) :
    SlotsOnly p s (as.foldl f s) := by
  induction as generalizing s with
  | nil => exact slotsOnly_refl p s
  | cons a as ih => exact (hf s a).trans (ih (f s a))

lemma slotsOnly_removeMappings (s : State C) (p : PageId) : SlotsOnly p s (s.removeMappings p) := by
  apply SlotsOnly.foldl
  intro s i
  dsimp only
  split_ifs with hv
  · have hzap : SlotsOnly p s (s.zapPage p ((s.pages p).rmap i)) := by
      unfold zapPage
      split
      · split_ifs
        · exact ⟨(slotsOnly_refl p s).pages_eq, rfl, rfl, rfl⟩
        · exact slotsOnly_refl p s
      · exact slotsOnly_refl p s
    exact hzap.trans ⟨⟨_, rfl⟩, rfl, rfl, rfl⟩
  · exact slotsOnly_refl p s

/-! ### The collection loop -/

/-- The queue holds `l`, the pages `gone` have been collected, and no other page has changed. -/
structure Purging (qid : ℕ) (s₀ : State C) (gone l : List PageId) (s : State C) : Prop where
  buffer_eq : (s.queues (.clean qid)).buffer = l
  size_eq : (s.queues (.clean qid)).size = l.length
  perm : (gone ++ l).Perm (s₀.queues (.clean qid)).buffer
  page_of_not_mem {p : PageId} : p ∉ gone → s.pages p = s₀.pages p
  cpuid_eq (p : PageId) : (s.pages p).cpuid = (s₀.pages p).cpuid
  fl_eq : s.fl = s₀.fl
  pvds_eq : s.pvds = s₀.pvds

lemma CleanQueue.purging (h : s.CleanQueue qid) :
    Purging qid s [] (s.queues (.clean qid)).buffer s :=
  ⟨rfl, h.size_eq, .refl _, fun _ => rfl, fun _ => rfl, rfl, rfl⟩

/-- `deq` looks at one page and at the mark of its pvd. -/
lemma accepts_congr (hp : s.pages p = s₀.pages p) (hv : s.pvds = s₀.pvds) :
    s.accepts p = s₀.accepts p := by
  simp only [accepts, deq, trylockTp, hp, hv]
  cases (s₀.pages p).pvd with
  | none => rfl
  | some v =>
    dsimp only
    split_ifs <;> rfl

namespace Purging

lemma nodup (hq : s₀.CleanQueue qid) (h : Purging qid s₀ gone l s) : (gone ++ l).Nodup :=
  h.perm.nodup_iff.mpr hq.nodup

/-- A page of the queue is as it was at the start. -/
lemma page_head (hq : s₀.CleanQueue qid) (h : Purging qid s₀ gone (p :: l) s) :
    s.pages p = s₀.pages p := by
  apply h.page_of_not_mem
  intro hmem
  exact List.disjoint_of_nodup_append (h.nodup hq) hmem List.mem_cons_self

lemma purgeOne_nil (h : Purging qid s₀ gone [] s) : s.purgeOne e qid = (none, s) := by
  have hz : (s.queues (.clean qid)).size = 0 := h.size_eq
  simp only [State.purgeOne, dequeueIf, if_pos hz]

lemma size_ne_zero (h : Purging qid s₀ gone (p :: l) s) :
    (s.queues (.clean qid)).size ≠ 0 := by
  rw [h.size_eq]
  exact Nat.succ_ne_zero _

lemma purgeOne_neg (hq : s₀.CleanQueue qid) (h : Purging qid s₀ gone (p :: l) s)
    (hp : s₀.accepts p = false) :
    ∃ s', s.purgeOne e qid = (none, s') ∧ Purging qid s₀ gone (l ++ [p]) s' := by
  have hdeq : s.deq p = (false, s) := by
    rcases locks_deq s p with hd | ⟨hd, -⟩
    · exact hd
    · rw [← accepts_congr (h.page_head hq) h.pvds_eq, accepts, hd] at hp
      exact absurd hp (by simp)
  refine ⟨s.rotate (.clean qid) p, ?_, ?_⟩
  · rw [State.purgeOne, dequeueIf, if_neg h.size_ne_zero, h.buffer_eq]
    simp only [hdeq]
  · have hqueue : (s.rotate (.clean qid) p).queues (.clean qid) =
        { s.queues (.clean qid) with buffer := l ++ [p] } := by
      simp [rotate, listDelInit, modifyQueue, h.buffer_eq]
    constructor
    · rw [hqueue]
    · rw [hqueue, h.size_eq]
      simp
    · exact ((List.perm_append_singleton p l).append_left gone).trans h.perm
    · exact h.page_of_not_mem
    · exact h.cpuid_eq
    · exact h.fl_eq
    · exact h.pvds_eq

lemma purgeOne_pos (hq : s₀.CleanQueue qid) (h : Purging qid s₀ gone (p :: l) s)
    (hp : s₀.accepts p = true) :
    ∃ s', s.purgeOne e qid = (some p, s') ∧ Purging qid s₀ (gone ++ [p]) l s' := by
  rcases locks_deq s p with hd | ⟨hd, -, -, v, hv, -⟩
  · rw [← accepts_congr (h.page_head hq) h.pvds_eq, accepts, hd] at hp
    exact absurd hp (by simp)
  set s₁ := (s.modifyPage p fun t => { t with locked := true }).remove (.clean qid) p with hs₁
  set t : TreeId := ⟨.rdx, v, (s₁.pages p).index % e.ncpus⟩
  have hv₁ : (s₁.pages p).pvd = some v := by simpa [hs₁, remove_pages, modifyPage] using hv
  have hslots := slotsOnly_removeMappings (s₁.treeErase t (s₁.pages p).index) p
  refine ⟨(s₁.treeErase t (s₁.pages p).index).removeMappings p, ?_, ?_⟩
  · rw [State.purgeOne, dequeueIf, if_neg h.size_ne_zero, h.buffer_eq]
    simp only [hd, ← hs₁, hv₁]
    rfl
  · obtain ⟨r, hr⟩ := hslots.pages_eq
    have hpages : ∀ q, q ≠ p → ((s₁.treeErase t (s₁.pages p).index).removeMappings p).pages q =
        s.pages q := by
      intro q hqp
      rw [hr, Function.update_of_ne hqp]
      simp [hs₁, treeErase, remove_pages, modifyPage, hqp]
    constructor
    · rw [hslots.queues_eq]
      simp [hs₁, treeErase, remove_buffer, modifyPage, h.buffer_eq]
    · have hlt := hq.size_lt
      have hlen : l.length + 1 ≤ (s₀.queues (.clean qid)).buffer.length := by
        rw [← h.perm.length_eq, List.length_append, List.length_cons]
        omega
      rw [hq.size_eq] at hlt
      rw [hslots.queues_eq]
      simp only [hs₁, treeErase, remove_size, modifyPage, if_true, h.size_eq, List.length_cons]
      simp only [ulongDec, ulongSize] at *
      omega
    · simpa using h.perm
    · intro q hgone
      have hqp : q ≠ p := by
        rintro rfl
        simp at hgone
      rw [hpages q hqp]
      apply h.page_of_not_mem
      intro hmem
      exact hgone (by simp [hmem])
    · intro q
      by_cases hqp : q = p
      · subst hqp
        rw [← h.cpuid_eq, hr, Function.update_self]
        simp [hs₁, treeErase, remove_pages, modifyPage]
      · rw [hpages q hqp, h.cpuid_eq]
    · rw [hslots.fl_eq, ← h.fl_eq]
      rfl
    · rw [hslots.pvds_eq, ← h.pvds_eq]
      rfl

/-- The loop is a rotating queue. -/
lemma purgeCollect (hq : s₀.CleanQueue qid) (n : ℕ) (h : Purging qid s₀ gone l s) :
    (purgeCollect e qid n gone s).1 = gone ++ (l.rotating s₀.accepts n).1 ∧
    Purging qid s₀ (purgeCollect e qid n gone s).1 (l.rotating s₀.accepts n).2
      (State.purgeCollect e qid n gone s).2 := by
  induction n generalizing gone l s with
  | zero => exact ⟨(List.append_nil gone).symm, h⟩
  | succ n ih =>
    cases l with
    | nil =>
      have hstep : State.purgeCollect e qid (n + 1) gone s = State.purgeCollect e qid n gone s := by
        simp only [State.purgeCollect, h.purgeOne_nil]
      rw [hstep]
      simpa using ih h
    | cons p l =>
      cases hp : s₀.accepts p with
      | false =>
        obtain ⟨s', hone, h'⟩ := h.purgeOne_neg (e := e) hq hp
        have hstep : State.purgeCollect e qid (n + 1) gone s =
            State.purgeCollect e qid n gone s' := by
          simp only [State.purgeCollect, hone]
        rw [hstep, List.rotating_cons_neg hp]
        exact ih h'
      | true =>
        obtain ⟨s', hone, h'⟩ := h.purgeOne_pos (e := e) hq hp
        have hstep : State.purgeCollect e qid (n + 1) gone s =
            State.purgeCollect e qid n (gone ++ [p]) s' := by
          simp only [State.purgeCollect, hone]
        have hrest := ih h'
        rw [← List.append_cons] at hrest
        rw [hstep, List.rotating_cons_pos hp]
        exact hrest

end Purging

/-! ### The free loop -/

/-- The pages have been freed once each, in this order, to the lists they came from. -/
structure Frees (pgs : List PageId) (s s' : State C) : Prop where
  nodup : pgs.Nodup
  fl_eq (cpu : ℕ) : s'.fl cpu = s.fl cpu ++ pgs.filter fun p => (s.pages p).cpuid = cpu
  freed {p : PageId} : p ∈ pgs → (s'.pages p).inUse = false ∧ (s'.pages p).locked = false ∧
    (s'.pages p).bufferId = .biNone

lemma pages_freePageLock_of_ne {q : PageId} (s : State C) (h : q ≠ p) :
    (s.freePageLock p).pages q = s.pages q := by
  simp [freePageLock, freeLink, freeClear, unlockTp, modifyPage, h]

lemma pages_foldl_freePageLock {pgs : List PageId} (h : p ∉ pgs) (s : State C) :
    (pgs.foldl freePageLock s).pages p = s.pages p := by
  induction pgs generalizing s with
  | nil => rfl
  | cons q pgs ih =>
    rw [List.mem_cons, not_or] at h
    rw [List.foldl_cons, ih h.2, pages_freePageLock_of_ne s h.1]

lemma queues_foldl_freePageLock (pgs : List PageId) (s : State C) :
    (pgs.foldl freePageLock s).queues = s.queues := by
  induction pgs generalizing s with
  | nil => rfl
  | cons p pgs ih =>
    rw [List.foldl_cons, ih]
    rfl

lemma frees_foldl_freePageLock {pgs : List PageId} (h : pgs.Nodup) (s : State C) :
    Frees pgs s (pgs.foldl freePageLock s) := by
  induction pgs generalizing s with
  | nil => exact ⟨h, fun cpu => (List.append_nil _).symm, fun hp => absurd hp List.not_mem_nil⟩
  | cons p pgs ih =>
    obtain ⟨hp, hpgs⟩ := List.nodup_cons.mp h
    have hrest := ih hpgs (s.freePageLock p)
    refine ⟨h, ?_, ?_⟩
    · intro cpu
      have hcpuid : ∀ q ∈ pgs, ((s.freePageLock p).pages q).cpuid = (s.pages q).cpuid := by
        intro q hq
        rw [pages_freePageLock_of_ne]
        rintro rfl
        exact hp hq
      have hfilter : (pgs.filter fun q => ((s.freePageLock p).pages q).cpuid = cpu) =
          pgs.filter fun q => (s.pages q).cpuid = cpu := by
        apply List.filter_congr
        intro q hq
        rw [hcpuid q hq]
      rw [List.foldl_cons, hrest.fl_eq, hfilter]
      by_cases hcpu : (s.pages p).cpuid = cpu
      · simp [freePageLock, freeLink, freeClear, unlockTp, modifyPage, hcpu]
      · simp [freePageLock, freeLink, freeClear, unlockTp, modifyPage, hcpu, Ne.symm hcpu]
    · intro q hq
      by_cases hqp : q = p
      · subst hqp
        rw [List.foldl_cons, pages_foldl_freePageLock hp]
        simp [freePageLock, freeLink, freeClear, unlockTp, modifyPage]
      · exact hrest.freed ((List.mem_cons.mp hq).resolve_left hqp)

/-! ### The whole call -/

/-- What `n` calls of `dequeue_if` remove from the queue. -/
def purgedPages (e : Env C) (s : State C) (qid n : ℕ) : List PageId :=
  (purgeCollect e qid n [] s).1

/-- The call as a rotating queue. -/
lemma CleanQueue.purge (h : s.CleanQueue qid) (e : Env C) (n : ℕ) :
    (s.purgedPages e qid n, ((s.purge e qid n).queues (.clean qid)).buffer) =
      (s.queues (.clean qid)).buffer.rotating s.accepts n ∧
    ((s.purge e qid n).queues (.clean qid)).size =
      ((s.purge e qid n).queues (.clean qid)).buffer.length ∧
    Frees (s.purgedPages e qid n) s (s.purge e qid n) ∧
    ∀ p ∈ ((s.purge e qid n).queues (.clean qid)).buffer,
      ((s.purge e qid n).pages p).bufferId = .biClean := by
  obtain ⟨hgone, hp⟩ := h.purging.purgeCollect (e := e) h n
  have hnodup := hp.nodup h
  have hqueues : (s.purge e qid n).queues = (purgeCollect e qid n [] s).2.queues :=
    queues_foldl_freePageLock _ _
  have hfrees := frees_foldl_freePageLock hnodup.of_append_left (purgeCollect e qid n [] s).2
  refine ⟨?_, ?_, ?_, ?_⟩
  · rw [hqueues, hp.buffer_eq, purgedPages, hgone, List.nil_append]
  · rw [hqueues, hp.buffer_eq, hp.size_eq]
  · refine ⟨hfrees.nodup, ?_, hfrees.freed⟩
    intro cpu
    rw [State.purge, hfrees.fl_eq, hp.fl_eq]
    simp only [hp.cpuid_eq]
    rfl
  · intro p hmem
    rw [hqueues, hp.buffer_eq] at hmem
    have hno : p ∉ (purgeCollect e qid n [] s).1 := by
      intro hgone
      exact List.disjoint_of_nodup_append hnodup hgone hmem
    have hpage : (s.purge e qid n).pages p = s.pages p := by
      rw [State.purge, pages_foldl_freePageLock hno, hp.page_of_not_mem hno]
    rw [hpage]
    exact h.bufferId (hp.perm.mem_iff.mp (List.mem_append_right _ hmem))

/-- The calls remove pages from a clean queue in its order, and rotate the others. -/
theorem purge_rotates (e : Env C) (s : State C) (qid n : ℕ) (h : s.CleanQueue qid) :
    let l := (s.queues (.clean qid)).buffer
    let left := ((s.purge e qid n).queues (.clean qid)).buffer
    let failing := l.filter fun p => !s.accepts p
    (n ≤ l.length →
      s.purgedPages e qid n = (l.take n).filter s.accepts ∧
      left = l.drop n ++ (l.take n).filter fun p => !s.accepts p) ∧
    (l.length < n →
      s.purgedPages e qid n = l.filter s.accepts ∧
      left = failing.rotate ((n - l.length) % failing.length)) ∧
    ((s.purge e qid n).queues (.clean qid)).size = left.length ∧
    Frees (s.purgedPages e qid n) s (s.purge e qid n) ∧
    ∀ p ∈ left, ((s.purge e qid n).pages p).bufferId = .biClean := by
  intro l left failing
  obtain ⟨hrot, hrest⟩ := h.purge e n
  refine ⟨?_, ?_, hrest⟩
  · intro hn
    rw [List.rotating_of_le s.accepts hn] at hrot
    exact Prod.mk.inj hrot
  · intro hn
    rw [List.rotating_of_ge s.accepts hn.le, ← List.rotate_mod] at hrot
    exact Prod.mk.inj hrot

/-- Three cached pages, of which the first is locked and the second belongs to a file that is being
unlinked. -/
def threeCached : State ℕ :=
  { initParams smallEnv smallWorld with
    pages := fun p =>
      { TaggedPage.init 0 with
        locked := p == 0, pvd := some p, bufferId := .biClean, inUse := true }
    queues := fun q => if q = .clean 0 then ⟨[0, 1, 2], 3, 8⟩ else ⟨[], 0, 8⟩
    pvds := fun v => { smallWorld.pvds v with duringUnlink := v == 1 } }

/-- Four calls take the third page, and leave the other two rotated by one. -/
theorem threeCached_purge :
    threeCached.purgedPages smallEnv 0 4 = [2] ∧
      ((threeCached.purge smallEnv 0 4).queues (.clean 0)).buffer = [1, 0] := by
  have h : threeCached.CleanQueue 0 := by
    constructor
    · decide
    · decide
    · decide
    · intro p _
      rfl
  have hpurge := (purge_rotates smallEnv threeCached 0 4 h).2.1 (by decide)
  exact ⟨hpurge.1.trans (by decide), hpurge.2.trans (by decide)⟩

end State

end FastMap
