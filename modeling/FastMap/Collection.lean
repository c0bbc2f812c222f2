import FastMap.System

/-!
# The batch of an evictor

The collection phase of a round of `evictor_thread` walks from the head of its dirty queue to the
end of the block of 512 pages that the head lies in. It takes each dirty page it meets out of the
dirty tree before it tries the page lock, and puts the page back if the lock is taken. The batch
holds exactly the pages whose locks were free, and everything else is as it was.
-/

namespace FastMap

variable {C : Type*}

namespace State

/-- The collection phase of a round of `evictor_thread`, with the batch that it ends with. -/
def evictorCollect (e : Env C) (s : State C) (id : ℕ) : List PageId × State C :=
  match s.dequeueIf (.dirty id) evDeq with
  | (none, s) => ([], s)
  | (some p, s) =>
    match (s.pages p).pvd with
    | none => ([], s)
    | some v => collect e id v collectIters ((s.pages p).index + 1) [p] (s.removeFromDirtyTree e p)

/-- It is the phase that `evictorRound` goes through. -/
lemma evictorBatch_eq (e : Env C) (s : State C) (id : ℕ) :
    s.evictorBatch e id = if s.belowThreshold e then [] else (s.evictorCollect e id).1 := by
  unfold evictorBatch evictorCollect
  split_ifs
  · rfl
  · cases s.dequeueIf (.dirty id) evDeq with
    | mk r s₁ =>
      cases r with
      | none => rfl
      | some p =>
        dsimp only
        cases (s₁.pages p).pvd <;> rfl

/-- The locks of the pages `held` are taken by others. -/
def withLocks (s : State C) (held : PageId → Bool) : State C :=
  { s with pages := fun p => { s.pages p with locked := held p } }

variable {e : Env C} {s s' s₀ : State C} {id : ℕ} {v : PvdId} {p head : PageId}
  {pgs : List PageId} {offset : ℕ}

lemma Inv.withLocks (h : s.Inv e) (held : PageId → Bool) : (s.withLocks held).Inv e := by
  refine ⟨{ h.placed with }, ?_⟩
  intro p
  rcases h.page p with hx | hx
  · exact Or.inl ⟨hx.inUse, ⟨hx.unlinked.clean, hx.unlinked.dirty, hx.unlinked.tree⟩, hx.bufferId,
      hx.isDirty⟩
  · exact Or.inr ⟨hx.lt, hx.inUse, hx.free, hx.cpuid, hx.cached, hx.tree, hx.clean, hx.dirty,
      hx.bufferId⟩

/-! ### Locks and queues -/

lemma evDeq_fst (s : State C) (p : PageId) :
    (s.evDeq p).1 = ((s.pages p).inUse && !(s.pages p).locked) := by
  cases hu : (s.pages p).inUse <;> cases hl : (s.pages p).locked <;>
    simp [evDeq, trylockTp, hu, hl]

/-- A page that is taken leaves its queue, and the others keep their order. -/
lemma buffer_removeIf {q : Queue} (h : s.removeIf q p evDeq = (true, s')) (l : Queue) :
    (s'.queues l).buffer = (s.queues l).buffer.erase p := by
  rcases locks_evDeq s p with hf | ⟨ht, -⟩
  · simp [removeIf, hf] at h
  · simp only [removeIf, ht, Prod.mk.injEq, true_and] at h
    rw [← h, remove_buffer]
    rfl

lemma dequeueIf_head {q : Queue} {rest : List PageId} (hz : (s.queues q).size ≠ 0)
    (hb : (s.queues q).buffer = p :: rest) (hp : (s.evDeq p).1 = true) :
    ∃ s', s.dequeueIf q evDeq = (some p, s') ∧ (s'.pages p).index = (s.pages p).index ∧
      ∀ l, (s'.queues l).buffer = (s.queues l).buffer.erase p := by
  rcases locks_evDeq s p with hf | ⟨ht, -⟩
  · simp [hf] at hp
  · refine ⟨(s.modifyPage p fun t => { t with locked := true }).remove q p, ?_, ?_, ?_⟩
    · simp only [dequeueIf, if_neg hz, hb, ht]
    · simp [remove_pages, modifyPage]
    · intro l
      rw [remove_buffer]
      rfl

/-! ### Blocks of 512 pages -/

/-- The first offset after the block of `i`. -/
def blockEnd (i : ℕ) : ℕ := (i >>> 9 + 1) * 512

lemma shiftRight_of_lt_blockEnd {i j : ℕ} (h : i ≤ j) (hj : j < blockEnd i) :
    j >>> 9 = i >>> 9 := by
  unfold blockEnd at hj
  rw [Nat.shiftRight_eq_div_pow] at *
  rw [Nat.shiftRight_eq_div_pow]
  omega

lemma lt_blockEnd_of_shiftRight {i j : ℕ} (h : j >>> 9 = i >>> 9) : j < blockEnd i := by
  unfold blockEnd
  rw [← h, Nat.shiftRight_eq_div_pow]
  omega

lemma blockEnd_le (i : ℕ) : blockEnd i ≤ i + 512 := by
  unfold blockEnd
  rw [Nat.shiftRight_eq_div_pow]
  omega

/-- The next block belongs to another evictor. -/
lemma blockEnd_shiftRight (i : ℕ) :
    (blockEnd i >>> 9) % evictorThreads ≠ (i >>> 9) % evictorThreads := by
  unfold blockEnd evictorThreads
  rw [Nat.shiftRight_eq_div_pow, Nat.mul_div_cancel _ (by decide)]
  omega

/-! ### The loop -/

/-- The loop has come to `offset`: the batch holds the head and the evictable pages between the
two. -/
structure Collecting (e : Env C) (v : PvdId) (s₀ : State C) (head : PageId) (offset : ℕ)
    (pgs : List PageId) (s : State C) : Prop where
  batch : Batch e (s₀.view e) (Evictable e v) PageView.grabbed s pgs
  mem_iff {p : PageId} : p ∈ pgs ↔ p = head ∨ Evictable e v p (s₀.view e p) ∧
    (s₀.pages head).index < (s₀.pages p).index ∧ (s₀.pages p).index < offset
  head_eq : pgs.head? = some head
  sorted : (pgs.map fun p => (s₀.pages p).index).Pairwise (· < ·)
  queue (q : Queue) : (s.queues q).buffer = (s₀.queues q).buffer.filter (· ∉ pgs)
  lt_offset : (s₀.pages head).index < offset

namespace Collecting

lemma index_le (h : Collecting e v s₀ head offset pgs s) (hp : p ∈ pgs) :
    (s₀.pages head).index ≤ (s₀.pages p).index := by
  rcases h.mem_iff.mp hp with rfl | ⟨-, hlt, -⟩
  · exact le_refl _
  · exact hlt.le

lemma index_lt (h : Collecting e v s₀ head offset pgs s) (hp : p ∈ pgs) :
    (s₀.pages p).index < offset := by
  rcases h.mem_iff.mp hp with rfl | ⟨-, -, hlt⟩
  · exact h.lt_offset
  · exact hlt

/-- There is at most one page for each offset that the loop has passed. -/
lemma length_le (h : Collecting e v s₀ head offset pgs s) :
    pgs.length ≤ offset - (s₀.pages head).index := by
  have hsub : pgs.map (fun p => (s₀.pages p).index) ⊆
      List.range' (s₀.pages head).index (offset - (s₀.pages head).index) := by
    intro i hi
    obtain ⟨p, hp, rfl⟩ := List.mem_map.mp hi
    have hle := h.index_le hp
    have hlt := h.index_lt hp
    rw [List.mem_range'_1, Nat.add_sub_cancel' h.lt_offset.le]
    exact ⟨hle, hlt⟩
  have hnodup : (pgs.map fun p => (s₀.pages p).index).Nodup := h.sorted.imp fun hlt => hlt.ne
  simpa using (hnodup.subperm hsub).length_le

/-- No page at `offset` can be taken. -/
lemma skip (h : Collecting e v s₀ head offset pgs s)
    (hno : ∀ p, Evictable e v p (s₀.view e p) → (s₀.pages p).index ≠ offset) :
    Collecting e v s₀ head (offset + 1) pgs s := by
  refine { h with mem_iff := ?_, lt_offset := Nat.lt_succ_of_lt h.lt_offset }
  intro p
  rw [h.mem_iff]
  constructor
  · rintro (hp | ⟨hp, hlt, hoff⟩)
    · exact Or.inl hp
    · exact Or.inr ⟨hp, hlt, Nat.lt_succ_of_lt hoff⟩
  · rintro (hp | ⟨hp, hlt, hoff⟩)
    · exact Or.inl hp
    · exact Or.inr ⟨hp, hlt, lt_of_le_of_ne (Nat.lt_succ_iff.mp hoff) (hno p hp)⟩

/-- The page at `offset` has been taken. -/
lemma take (h : Collecting e v s₀ head offset pgs s) (hoff : (s₀.pages p).index = offset)
    (hb : Batch e (s₀.view e) (Evictable e v) PageView.grabbed s' (pgs ++ [p]))
    (hq : ∀ q, (s'.queues q).buffer = (s.queues q).buffer.erase p) :
    Collecting e v s₀ head (offset + 1) (pgs ++ [p]) s' := by
  have hp : Evictable e v p (s₀.view e p) := hb.all (by simp)
  refine ⟨hb, ?_, ?_, ?_, ?_, Nat.lt_succ_of_lt h.lt_offset⟩
  · intro q
    rw [List.mem_append, List.mem_singleton, h.mem_iff]
    constructor
    · rintro ((hq | ⟨hq, hlt, hlt'⟩) | rfl)
      · exact Or.inl hq
      · exact Or.inr ⟨hq, hlt, Nat.lt_succ_of_lt hlt'⟩
      · refine Or.inr ⟨hp, ?_, ?_⟩
        · rw [hoff]
          exact h.lt_offset
        · rw [hoff]
          exact Nat.lt_succ_self offset
    · rintro (hq | ⟨hq, hlt, hlt'⟩)
      · exact Or.inl (Or.inl hq)
      · rcases Nat.lt_succ_iff_lt_or_eq.mp hlt' with hlt' | heq
        · exact Or.inl (Or.inr ⟨hq, hlt, hlt'⟩)
        · -- two dirty pages at one offset are one page
          right
          exact eq_of_cached hq.1.cached hp.1.cached
            ((hq.2.2.2 : (s₀.pages q).pvd = _).trans (hp.2.2.2 : (s₀.pages p).pvd = _).symm)
            (heq.trans hoff.symm)
  · rw [List.head?_append, h.head_eq]
    rfl
  · rw [List.map_append, List.pairwise_append]
    refine ⟨h.sorted, List.pairwise_singleton _ _, ?_⟩
    intro i hi j hj
    obtain ⟨q, hq, rfl⟩ := List.mem_map.mp hi
    obtain rfl := List.mem_singleton.mp hj
    exact (h.index_lt hq).trans_eq hoff.symm
  · intro q
    have hnodup : ((s₀.queues q).buffer.filter (· ∉ pgs)).Nodup := by
      rw [← h.queue]
      exact h.batch.placed.queue_nodup q
    rw [hq, h.queue, hnodup.erase_eq_filter, List.filter_filter]
    apply List.filter_congr
    intro r _
    by_cases hr : r = p <;> simp [hr]

/-- A page at `offset` that can be taken is in the dirty tree. -/
lemma lookup_eq (h : Collecting e v s₀ head offset pgs s) (hp : Evictable e v p (s₀.view e p))
    (hoff : (s₀.pages p).index = offset) : s.treeLookup e .dirty v offset = some p := by
  have hno : p ∉ pgs := by
    intro hmem
    exact absurd (h.index_lt hmem) (by rw [hoff]; exact lt_irrefl offset)
  have hview := h.batch.view_of_not_mem hno
  have htree : (s.view e p).tree .dirty = true := by
    rw [hview, hp.1.tree]
    exact hp.2.1
  have hpage : s.pages p = s₀.pages p := h.batch.pages_of_not_mem hno
  obtain ⟨w, hw, hlook⟩ := view_tree.mp htree
  rw [hpage] at hw hlook
  obtain rfl : v = w := Option.some.inj ((hp.2.2.2 : (s₀.pages p).pvd = _).symm.trans hw)
  rwa [hoff] at hlook

/-- One iteration of the loop. -/
lemma collect_succ (hinv : s₀.Inv e) (h : Collecting e v s₀ head offset pgs s) (n : ℕ)
    (hlen : pgs.length < 512) (hid : (offset >>> 9) % evictorThreads = id) :
    ∃ pgs' s', collect e id v (n + 1) offset pgs s = collect e id v n (offset + 1) pgs' s' ∧
      Collecting e v s₀ head (offset + 1) pgs' s' := by
  have hgo : ¬ (512 ≤ pgs.length ∨ (offset >>> 9) % evictorThreads ≠ id) := by
    rw [not_or, not_le, not_not]
    exact ⟨hlen, hid⟩
  cases hl : s.treeLookup e .dirty v offset with
  | none =>
    refine ⟨pgs, s, by simp only [collect, if_neg hgo, hl], ?_⟩
    apply h.skip
    intro p hp hoff
    rw [h.lookup_eq hp hoff] at hl
    exact absurd hl (by simp)
  | some p =>
    have hno : p ∉ pgs := by
      intro hmem
      have htree := h.batch.placed.tree_of_lookup hl
      rw [h.batch.view_of_mem hmem] at htree
      simp [PageView.grabbed, PageView.untreed] at htree
    have hpage : s.pages p = s₀.pages p := h.batch.pages_of_not_mem hno
    have hoff : (s₀.pages p).index = offset := by
      rw [← hpage]
      exact (h.batch.placed.tree_own hl).2.2
    obtain ⟨s₁, hs₁, ⟨hf, hb⟩ | ⟨s', ht, hb⟩⟩ := h.batch.collectPage hinv.page hid hl
    · refine ⟨pgs, s₁.treeInsert e .dirty v (s₁.pages p).index p, ?_, ?_⟩
      · rw [hs₁] at hf ⊢
        simp only [collect, if_neg hgo, hl, hf]
      · have hqueue : ∀ q, ((s₁.treeInsert e .dirty v (s₁.pages p).index p).queues q).buffer =
            (s.queues q).buffer := by
          intro q
          rw [hs₁]
          rfl
        have h' : Collecting e v s₀ head offset pgs
            (s₁.treeInsert e .dirty v (s₁.pages p).index p) := by
          refine { h with batch := hb, queue := ?_ }
          intro q
          rw [hqueue, h.queue]
        apply h'.skip
        intro q hq hoffq
        -- the page that is met is the evictable one, so its lock was free
        obtain rfl : p = q := Option.some.inj (hl.symm.trans (h.lookup_eq hq hoffq))
        have hfst := evDeq_fst s₁ p
        have hpage₁ : s₁.pages p = s₀.pages p := by
          rw [hs₁]
          exact hpage
        have hu : (s₀.pages p).inUse = true := hq.1.inUse
        have hfree : (s₀.pages p).locked = false := hq.2.2.1
        rw [hpage₁, hu, hfree] at hfst
        have hfst' : (s₁.evDeq p).1 = true := hfst
        unfold removeIf at hf
        cases hcond : s₁.evDeq p with
        | mk b s₂ =>
          rw [hcond] at hfst' hf
          obtain rfl : b = true := hfst'
          simp at hf
    · refine ⟨pgs ++ [p], s', ?_, ?_⟩
      · rw [hs₁] at ht
        simp only [collect, if_neg hgo, hl, ht]
      · apply h.take hoff hb
        intro q
        rw [buffer_removeIf ht, hs₁]
        rfl

/-- The loop goes on to the end of the block of the head. -/
lemma collect_blockEnd (hinv : s₀.Inv e)
    (hid : ((s₀.pages head).index >>> 9) % evictorThreads = id) (n : ℕ)
    (h : Collecting e v s₀ head offset pgs s) (hle : offset ≤ blockEnd (s₀.pages head).index)
    (hn : blockEnd (s₀.pages head).index ≤ offset + n) :
    Collecting e v s₀ head (blockEnd (s₀.pages head).index) (collect e id v n offset pgs s).1
      (collect e id v n offset pgs s).2 := by
  induction n generalizing offset pgs s with
  | zero =>
    obtain rfl := le_antisymm hle hn
    exact h
  | succ n ih =>
    rcases hle.lt_or_eq with hlt | rfl
    · have hlen : pgs.length < 512 := by
        have hle := h.length_le
        have hend := blockEnd_le (s₀.pages head).index
        omega
      have hblock := shiftRight_of_lt_blockEnd h.lt_offset.le hlt
      obtain ⟨pgs', s', hstep, h'⟩ := h.collect_succ hinv n hlen (hblock ▸ hid)
      rw [hstep]
      apply ih h' hlt
      omega
    · have hstop : 512 ≤ pgs.length ∨
          (blockEnd (s₀.pages head).index >>> 9) % evictorThreads ≠ id := by
        right
        rw [← hid]
        exact blockEnd_shiftRight _
      simp only [collect, if_pos hstop]
      exact h

end Collecting

/-! ### The whole phase -/

/-- The batch `pgs` of the head `p`, and what the phase leaves of the state `s₀` it starts in. -/
structure Collected (id : ℕ) (s₀ : State C) (p : PageId) (pgs : List PageId) (s : State C) :
    Prop where
  length_pos : 1 ≤ pgs.length
  length_le : pgs.length ≤ 512
  head_eq : pgs.head? = some p
  pvd_eq : ∃ v, ∀ q ∈ pgs, (s₀.pages q).pvd = some v
  sorted : (pgs.map fun q => (s₀.pages q).index).Pairwise (· < ·)
  block : ∃ b, b % evictorThreads = id ∧ ∀ q ∈ pgs, (s₀.pages q).index >>> 9 = b
  /-- The dirty pages of the pvd behind the head, in its block and with a free lock. -/
  mem_iff {q : PageId} : q ∈ pgs ↔ q = p ∨ (s₀.pages q).pvd = (s₀.pages p).pvd ∧
    (s₀.pages q).isDirty = true ∧ (s₀.pages p).index < (s₀.pages q).index ∧
    (s₀.pages q).index >>> 9 = (s₀.pages p).index >>> 9 ∧ (s₀.pages q).locked = false
  locked {q : PageId} : q ∈ pgs → (s.pages q).locked = true
  unqueued {q : PageId} (l : Queue) : q ∈ pgs → q ∉ (s.queues l).buffer
  untreed {q : PageId} {t : TreeId} (i : Pgoff) : q ∈ pgs → t.kind = .dirty →
    (s.trees t).lookup i ≠ some q
  /-- The other pages keep their queues and their order in them. -/
  queue (l : Queue) : (s.queues l).buffer = (s₀.queues l).buffer.filter (· ∉ pgs)
  tree {q : PageId} {t : TreeId} {i : Pgoff} : q ∉ pgs →
    ((s.trees t).lookup i = some q ↔ (s₀.trees t).lookup i = some q)
  other {q : PageId} : q ∉ pgs → s.pages q = s₀.pages q

/-- A dirty page of a pvd whose lock is free. -/
lemma Inv.evictable_iff (h : s.Inv e) : Evictable e v p (s.view e p) ↔
    (s.pages p).pvd = some v ∧ (s.pages p).isDirty = true ∧ (s.pages p).locked = false := by
  constructor
  · rintro ⟨-, hd, hl, hv⟩
    exact ⟨hv, hd, hl⟩
  · rintro ⟨hv, hd, hl⟩
    refine ⟨(h.page p).resolve_left ?_, hd, hl, hv⟩
    intro hi
    exact Bool.false_ne_true (hi.isDirty.symm.trans hd)

/-- A tree holds a page only under its own key, so the view knows all its lookups. -/
lemma Placed.lookup_iff {q : PageId} (h : s.Placed e) (h' : s'.Placed e)
    (hq : s'.view e q = s.view e q) {t : TreeId} {i : Pgoff} :
    (s'.trees t).lookup i = some q ↔ (s.trees t).lookup i = some q := by
  have hpage : s'.pages q = s.pages q := by rw [← view_page e, hq, view_page]
  -- the two directions are one argument
  have hone : ∀ {s s' : State C}, s.Placed e → s'.view e q = s.view e q →
      s'.pages q = s.pages q → (s.trees t).lookup i = some q → (s'.trees t).lookup i = some q := by
    intro s s' h hq hpage hl
    obtain ⟨hcpu, hv, hi⟩ := h.tree_own hl
    have htree : (s'.view e q).tree t.kind = true := by
      rw [hq]
      exact h.tree_of_lookup hl
    obtain ⟨w, hw, hlook⟩ := view_tree.mp htree
    rw [hpage] at hw hlook
    obtain rfl : t.pvd = w := Option.some.inj (hv.symm.trans hw)
    rw [treeLookup, hi, ← hcpu] at hlook
    exact hlook
  exact ⟨hone h' hq.symm hpage.symm, hone h hq hpage⟩

/-- What the loop has collected when it reaches the end of the block. -/
lemma Collecting.collected (hinv : s₀.Inv e)
    (hid : ((s₀.pages head).index >>> 9) % evictorThreads = id)
    (h : Collecting e v s₀ head (blockEnd (s₀.pages head).index) pgs s) :
    Collected id s₀ head pgs s := by
  have hhead : head ∈ pgs := List.mem_of_head? h.head_eq
  have hpvd : ∀ q ∈ pgs, (s₀.pages q).pvd = some v := fun q hq => (h.batch.all hq).2.2.2
  have hview := fun {q} (hq : q ∈ pgs) => h.batch.view_of_mem hq
  constructor
  · exact List.length_pos_of_mem hhead
  · have hlen := h.length_le
    have hend := blockEnd_le (s₀.pages head).index
    omega
  · exact h.head_eq
  · exact ⟨v, hpvd⟩
  · exact h.sorted
  · refine ⟨_, hid, ?_⟩
    intro q hq
    exact shiftRight_of_lt_blockEnd (h.index_le hq) (h.index_lt hq)
  · intro q
    rw [h.mem_iff, hinv.evictable_iff, hpvd head hhead]
    constructor
    · rintro (hq | ⟨⟨hv, hd, hl⟩, hlt, hend⟩)
      · exact Or.inl hq
      · exact Or.inr ⟨hv, hd, hlt, shiftRight_of_lt_blockEnd hlt.le hend, hl⟩
    · rintro (hq | ⟨hv, hd, hlt, hend, hl⟩)
      · exact Or.inl hq
      · exact Or.inr ⟨⟨hv, hd, hl⟩, hlt, lt_blockEnd_of_shiftRight hend⟩
  · intro q hq
    rw [← view_page e, hview hq]
    rfl
  · intro q l hq
    apply h.batch.placed.not_mem_queue
    · rw [hview hq]
      rfl
    · rw [hview hq]
      rfl
  · intro q t i hq ht
    apply h.batch.placed.not_mem_tree _ ht
    rw [hview hq]
    simp [PageView.grabbed, PageView.untreed]
  · exact h.queue
  · intro q t i hq
    exact hinv.placed.lookup_iff h.batch.placed (h.batch.view_of_not_mem hq)
  · intro q hq
    exact h.batch.pages_of_not_mem hq

lemma Inv.evictorCollect (h : s.Inv e) (hp : (s.queues (.dirty id)).buffer.head? = some p)
    (hl : (s.pages p).locked = false) :
    Collected id s p (s.evictorCollect e id).1 (s.evictorCollect e id).2 := by
  obtain ⟨rest, hb⟩ := List.head?_eq_some_iff.mp hp
  have hmem : p ∈ (s.queues (.dirty id)).buffer := by simp [hb]
  have hsize : (s.queues (.dirty id)).size ≠ 0 := by
    rw [h.placed.queue_size, hb]
    exact Nat.succ_ne_zero _
  have hdeq : (s.evDeq p).1 = true := by
    have hu : (s.pages p).inUse = true := (h.resident_of_queue hmem).inUse
    rw [evDeq_fst, hu, hl]
    rfl
  have hid : ((s.pages p).index >>> 9) % evictorThreads = id := by
    rcases h.placed.queue_own hmem with hq | hq
    · exact absurd hq (by simp [cleanQueue])
    · simpa [dirtyQueue, eq_comm] using hq
  obtain ⟨s₁, hd, hi, hq⟩ := dequeueIf_head hsize hb hdeq
  obtain ⟨v, hv, hbatch⟩ := h.dequeueIf_dirty hd
  have hstart : Collecting e v s p ((s.pages p).index + 1) [p] (s₁.removeFromDirtyTree e p) := by
    refine ⟨hbatch, ?_, rfl, List.pairwise_singleton _ _, ?_, Nat.lt_succ_self _⟩
    · intro q
      rw [List.mem_singleton]
      constructor
      · exact Or.inl
      · rintro (hq | ⟨-, hlt, hlt'⟩)
        · exact hq
        · exact absurd (Nat.lt_succ_iff.mp hlt') (not_le.mpr hlt)
    · intro l
      have hqueues : (s₁.removeFromDirtyTree e p).queues = s₁.queues := by
        simp only [removeFromDirtyTree, hv]
        rfl
      rw [hqueues, hq, (h.placed.queue_nodup l).erase_eq_filter]
      apply List.filter_congr
      intro r _
      by_cases hr : r = p <;> simp [hr]
  have hend := blockEnd_le (s.pages p).index
  have hloop := hstart.collect_blockEnd h hid collectIters
    (lt_blockEnd_of_shiftRight rfl) (by simp only [collectIters]; omega)
  simp only [State.evictorCollect, hd, hv, hi]
  exact hloop.collected h hid

/-- Three dirty pages of one file. -/
def threeDirty : List (Op ℕ) :=
  [.fault 0 0 smallFault, .mkwrite 0 0, .fault 0 1 smallFault, .mkwrite 0 1,
    .fault 0 2 smallFault, .mkwrite 0 2]

end State

end FastMap
