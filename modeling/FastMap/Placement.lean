import FastMap.Mappings

/-!
# Where a page is

Every list and every tree of the buffer refers to pages, and a page carries in its own fields the
name of the list or tree it belongs to. `Placed` says that the two agree everywhere. Under it the
whole buffer is determined page by page: `view` collects for one page its record and the places
it is linked in, and each primitive changes the view of a single page (`Moves`).
-/

namespace FastMap

variable {C : Type*}

/-- One page as the buffer sees it: its record, where it is linked, and what maps it. -/
structure PageView (C : Type*) where
  page : TaggedPage C
  free : Bool
  clean : Bool
  dirty : Bool
  tree : TreeKind → Bool
  /-- The page table entries that map the page, with their write permission. -/
  pte : VmaId × ℕ → Option Bool

namespace State

/-- Whether the tree of a page holds it under the page's own key. -/
def linked (e : Env C) (s : State C) (p : PageId) (k : TreeKind) : Bool :=
  match (s.pages p).pvd with
  | none => false
  | some v => s.treeLookup e k v (s.pages p).index == some p

/-- The write permission of an entry, if it maps the page. -/
def mapping (s : State C) (p : PageId) (a : VmaId × ℕ) : Option Bool :=
  match s.pte a with
  | .none => none
  | .map q w => if q = p then some w else none

def view (e : Env C) (s : State C) (p : PageId) : PageView C where
  page := s.pages p
  free := decide (p ∈ s.fl (e.home p))
  clean := decide (p ∈ (s.queues (cleanQueue (s.pages p).index)).buffer)
  dirty := decide (p ∈ (s.queues (dirtyQueue (s.pages p).index)).buffer)
  tree := s.linked e p
  pte := s.mapping p

/-- The lists and trees hold a page only where the fields of the page say, and the counters of the
queues are right. -/
structure Placed (e : Env C) (s : State C) : Prop where
  fl_nodup (cpu : ℕ) : (s.fl cpu).Nodup
  fl_lt {p : PageId} {cpu : ℕ} : p ∈ s.fl cpu → p < e.numPages
  fl_home {p : PageId} {cpu : ℕ} : p ∈ s.fl cpu → e.home p = cpu
  queue_nodup (q : Queue) : (s.queues q).buffer.Nodup
  queue_lt {p : PageId} {q : Queue} : p ∈ (s.queues q).buffer → p < e.numPages
  queue_own {p : PageId} {q : Queue} : p ∈ (s.queues q).buffer →
    q = cleanQueue (s.pages p).index ∨ q = dirtyQueue (s.pages p).index
  queue_one {p : PageId} {q q' : Queue} :
    p ∈ (s.queues q).buffer → p ∈ (s.queues q').buffer → q = q'
  queue_size (q : Queue) : (s.queues q).size = (s.queues q).buffer.length
  queue_maxSize (q : Queue) : (s.queues q).maxSize = e.bufSize + e.ncpus
  tree_own {t : TreeId} {i : Pgoff} {p : PageId} : (s.trees t).lookup i = some p →
    t.cpu = i % e.ncpus ∧ (s.pages p).pvd = some t.pvd ∧ (s.pages p).index = i
  enqueue_ok : s.enqueueFailed = false

/-- A transition that touches one page only, and what the buffer sees of that page afterwards. -/
structure Moves (e : Env C) (s s' : State C) (p : PageId) (w : PageView C) : Prop where
  placed : s'.Placed e
  view_eq : s'.view e = Function.update (s.view e) p w

variable {e : Env C} {s s' s'' : State C} {p : PageId} {w w' : PageView C}

/-- A view is known from its record and its memberships. -/
lemma view_eq_of {x : PageView C} (hp : s.pages p = x.page)
    (hf : p ∈ s.fl (e.home p) ↔ x.free = true)
    (hc : p ∈ (s.queues (cleanQueue (s.pages p).index)).buffer ↔ x.clean = true)
    (hd : p ∈ (s.queues (dirtyQueue (s.pages p).index)).buffer ↔ x.dirty = true)
    (ht : s.linked e p = x.tree) (hm : s.mapping p = x.pte) : s.view e p = x := by
  obtain ⟨page, free, clean, dirty, tree, pte⟩ := x
  simp only [view, PageView.mk.injEq]
  refine ⟨hp, ?_, ?_, ?_, ht, hm⟩
  · exact Bool.eq_iff_iff.mpr (by simpa using hf)
  · exact Bool.eq_iff_iff.mpr (by simpa using hc)
  · exact Bool.eq_iff_iff.mpr (by simpa using hd)

lemma Moves.of_views (h : s'.Placed e) (hp : s'.view e p = w)
    (hq : ∀ q, q ≠ p → s'.view e q = s.view e q) : Moves e s s' p w := by
  refine ⟨h, funext fun q => ?_⟩
  by_cases hqp : q = p
  · subst hqp
    rw [Function.update_self, hp]
  · rw [Function.update_of_ne hqp, hq q hqp]

lemma Moves.trans (h : Moves e s s' p w) (h' : Moves e s' s'' p w') : Moves e s s'' p w' :=
  ⟨h'.placed, by rw [h'.view_eq, h.view_eq, Function.update_idem]⟩

lemma Moves.view_self (h : Moves e s s' p w) : s'.view e p = w := by
  rw [h.view_eq, Function.update_self]

lemma Moves.view_of_ne (h : Moves e s s' p w) {q : PageId} (hq : q ≠ p) :
    s'.view e q = s.view e q := by
  rw [h.view_eq, Function.update_of_ne hq]

lemma Placed.moves_refl (h : s.Placed e) (p : PageId) : Moves e s s p (s.view e p) :=
  ⟨h, (Function.update_eq_self p _).symm⟩

/-! ### Reading the view -/

@[simp] lemma view_page (e : Env C) (s : State C) (p : PageId) :
    (s.view e p).page = s.pages p := rfl

lemma view_free (e : Env C) (s : State C) (p : PageId) :
    (s.view e p).free = true ↔ p ∈ s.fl (e.home p) := by simp [view]

lemma view_clean (e : Env C) (s : State C) (p : PageId) :
    (s.view e p).clean = true ↔ p ∈ (s.queues (cleanQueue (s.pages p).index)).buffer := by
  simp [view]

lemma view_dirty (e : Env C) (s : State C) (p : PageId) :
    (s.view e p).dirty = true ↔ p ∈ (s.queues (dirtyQueue (s.pages p).index)).buffer := by
  simp [view]

lemma view_tree {k : TreeKind} : (s.view e p).tree k = true ↔
    ∃ v, (s.pages p).pvd = some v ∧ s.treeLookup e k v (s.pages p).index = some p := by
  simp only [view, linked]
  cases (s.pages p).pvd <;> simp

lemma Placed.tree_of_lookup (h : s.Placed e) {t : TreeId} {i : Pgoff}
    (ht : (s.trees t).lookup i = some p) : (s.view e p).tree t.kind = true := by
  obtain ⟨hc, hv, hi⟩ := h.tree_own ht
  refine view_tree.mpr ⟨t.pvd, hv, ?_⟩
  rw [treeLookup, hi, ← hc]
  exact ht

lemma linked_congr (hv : (s'.pages p).pvd = (s.pages p).pvd)
    (hi : (s'.pages p).index = (s.pages p).index) (ht : s'.trees = s.trees) :
    s'.linked e p = s.linked e p := by
  funext k
  simp only [linked, treeLookup, hv, hi, ht]

/-- A page that is in neither of its own queues is in no queue. -/
lemma Placed.not_mem_queue (h : s.Placed e) (hc : (s.view e p).clean = false)
    (hd : (s.view e p).dirty = false) (q : Queue) : p ∉ (s.queues q).buffer := by
  intro hp
  rcases h.queue_own hp with rfl | rfl
  · exact Bool.false_ne_true (hc.symm.trans ((view_clean e s p).mpr hp))
  · exact Bool.false_ne_true (hd.symm.trans ((view_dirty e s p).mpr hp))

/-- A clean queue holds pages whose clean queue it is. -/
lemma Placed.clean_of_mem (h : s.Placed e) {i : ℕ} (hp : p ∈ (s.queues (.clean i)).buffer) :
    (s.view e p).clean = true := by
  rw [view_clean]
  rcases h.queue_own hp with hq | hq
  · rwa [← hq]
  · exact absurd hq (by simp [dirtyQueue])

lemma Placed.dirty_of_mem (h : s.Placed e) {i : ℕ} (hp : p ∈ (s.queues (.dirty i)).buffer) :
    (s.view e p).dirty = true := by
  rw [view_dirty]
  rcases h.queue_own hp with hq | hq
  · exact absurd hq (by simp [cleanQueue])
  · rwa [← hq]

lemma Placed.not_mem_tree (h : s.Placed e) {k : TreeKind} (ht : (s.view e p).tree k = false)
    {t : TreeId} (hk : t.kind = k) (i : Pgoff) : (s.trees t).lookup i ≠ some p := by
  intro hp
  subst hk
  exact Bool.false_ne_true (ht.symm.trans (h.tree_of_lookup hp))

/-! ### Fields of a page -/

/-- The queues and trees of a page depend on two of its fields only. -/
lemma Placed.moves_modifyPage (h : s.Placed e) (p : PageId) {f : TaggedPage C → TaggedPage C}
    (hi : (f (s.pages p)).index = (s.pages p).index) (hv : (f (s.pages p)).pvd = (s.pages p).pvd) :
    Moves e s (s.modifyPage p f) p { s.view e p with page := f (s.pages p) } := by
  have hi' : ∀ q, ((s.modifyPage p f).pages q).index = (s.pages q).index := by
    intro q
    by_cases hq : q = p <;> simp [modifyPage, hq, hi]
  have hv' : ∀ q, ((s.modifyPage p f).pages q).pvd = (s.pages q).pvd := by
    intro q
    by_cases hq : q = p <;> simp [modifyPage, hq, hv]
  apply Moves.of_views
  · exact
      { h with
        queue_own := fun hq => by rw [hi']; exact h.queue_own hq
        tree_own := fun ht => by rw [hi', hv']; exact h.tree_own ht }
  · exact view_eq_of (by simp [modifyPage]) (view_free e s p).symm
      (by rw [hi']; exact (view_clean e s p).symm)
      (by rw [hi']; exact (view_dirty e s p).symm) (linked_congr (hv' p) (hi' p) rfl) rfl
  · intro q hq
    exact view_eq_of (by simp [modifyPage, hq]) (view_free e s q).symm
      (by rw [hi']; exact (view_clean e s q).symm)
      (by rw [hi']; exact (view_dirty e s q).symm) (linked_congr (hv' q) (hi' q) rfl) rfl

lemma Moves.pages_self (h : Moves e s s' p w) : s'.pages p = w.page := by
  rw [← view_page e, h.view_self]

/-- A further assignment to fields of the page. -/
lemma Moves.modifyPage (h : Moves e s s' p w) {f : TaggedPage C → TaggedPage C}
    (hi : (f w.page).index = w.page.index) (hv : (f w.page).pvd = w.page.pvd) :
    Moves e s (s'.modifyPage p f) p { w with page := f w.page } := by
  have hp := h.pages_self
  have hm := h.placed.moves_modifyPage p (f := f) (by rw [hp]; exact hi) (by rw [hp]; exact hv)
  rw [h.view_self, hp] at hm
  exact h.trans hm

/-- A page that is linked nowhere can change in any way. -/
lemma Placed.moves_modifyPage_out (h : s.Placed e) {p : PageId}
    (f : TaggedPage C → TaggedPage C) (hc : (s.view e p).clean = false)
    (hd : (s.view e p).dirty = false) (ht : ∀ k, (s.view e p).tree k = false) :
    Moves e s (s.modifyPage p f) p { s.view e p with page := f (s.pages p) } := by
  have hq : ∀ q, p ∉ (s.queues q).buffer := h.not_mem_queue hc hd
  have htr : ∀ t i, (s.trees t).lookup i ≠ some p := fun t i => h.not_mem_tree (ht t.kind) rfl i
  apply Moves.of_views
  · refine
      { h with
        queue_own := ?_
        tree_own := ?_ }
    · intro q l hm
      have hne : q ≠ p := by rintro rfl; exact hq l hm
      simpa [modifyPage, hne] using h.queue_own hm
    · intro t i q hm
      have hne : q ≠ p := by rintro rfl; exact htr t i hm
      simpa [modifyPage, hne] using h.tree_own hm
  · refine view_eq_of (by simp [modifyPage]) (view_free e s p).symm ?_ ?_ ?_ rfl
    · exact iff_of_false (hq _) (by simp [hc])
    · exact iff_of_false (hq _) (by simp [hd])
    · funext k
      simp only [linked, treeLookup, ht k]
      cases ((s.modifyPage p f).pages p).pvd with
      | none => rfl
      | some v => exact beq_eq_false_iff_ne.mpr (htr _ _)
  · intro q hqp
    have hpq : (s.modifyPage p f).pages q = s.pages q := by simp [modifyPage, hqp]
    exact view_eq_of hpq (view_free e s q).symm (by rw [hpq]; exact (view_clean e s q).symm)
      (by rw [hpq]; exact (view_dirty e s q).symm) (linked_congr (by rw [hpq]) (by rw [hpq]) rfl)
        rfl

/-! ### Queues -/

lemma numPages_le (e : Env C) : e.numPages ≤ e.bufSize := Nat.mul_div_le _ _

/-- A queue never holds more than the pages there are. -/
lemma Placed.queue_length_le (h : s.Placed e) (q : Queue) :
    (s.queues q).buffer.length ≤ e.numPages := by
  have hsub : (s.queues q).buffer ⊆ List.range e.numPages :=
    fun _ hp => List.mem_range.mpr (h.queue_lt hp)
  simpa using ((h.queue_nodup q).subperm hsub).length_le

lemma Placed.queue_size_lt (h : s.Placed e) (q : Queue) :
    (s.queues q).buffer.length < 2 ^ 63 :=
  lt_of_le_of_lt ((h.queue_length_le q).trans (numPages_le e)) e.bufSize_lt

lemma remove_pages (s : State C) (q : Queue) (p : PageId) : (s.remove q p).pages =
    Function.update s.pages p { s.pages p with bufferId := .biNone } := rfl

lemma remove_buffer (s : State C) (q : Queue) (p : PageId) (l : Queue) :
    ((s.remove q p).queues l).buffer = (s.queues l).buffer.erase p := by
  by_cases hl : l = q <;> simp [remove, setBufferId, decSize, modifyQueue, modifyPage,
    listDelInit, hl]

lemma remove_size (s : State C) (q : Queue) (p : PageId) (l : Queue) :
    ((s.remove q p).queues l).size =
      if l = q then ulongDec (s.queues l).size else (s.queues l).size := by
  by_cases hl : l = q <;> simp [remove, setBufferId, decSize, modifyQueue, modifyPage,
    listDelInit, hl]

lemma remove_maxSize (s : State C) (q : Queue) (p : PageId) (l : Queue) :
    ((s.remove q p).queues l).maxSize = (s.queues l).maxSize := by
  by_cases hl : l = q <;> simp [remove, setBufferId, decSize, modifyQueue, modifyPage,
    listDelInit, hl]

/-- `remove` takes a page out of the queue that holds it. -/
lemma Placed.moves_remove (h : s.Placed e) {p : PageId} {q : Queue}
    (hp : p ∈ (s.queues q).buffer) :
    Moves e s (s.remove q p) p
      { s.view e p with
        page := { s.pages p with bufferId := .biNone }, clean := false, dirty := false } := by
  have hm : ∀ {r l}, r ∈ ((s.remove q p).queues l).buffer ↔ r ≠ p ∧ r ∈ (s.queues l).buffer := by
    intro r l
    rw [remove_buffer]
    exact (h.queue_nodup l).mem_erase_iff
  have hi : ∀ r, ((s.remove q p).pages r).index = (s.pages r).index := by
    intro r
    by_cases hr : r = p <;> simp [remove_pages, hr]
  have hv : ∀ r, ((s.remove q p).pages r).pvd = (s.pages r).pvd := by
    intro r
    by_cases hr : r = p <;> simp [remove_pages, hr]
  apply Moves.of_views
  · refine
      { h with
        queue_nodup := ?_
        queue_lt := fun hr => h.queue_lt (hm.mp hr).2
        queue_own := fun hr => by rw [hi]; exact h.queue_own (hm.mp hr).2
        queue_one := fun hr hr' => h.queue_one (hm.mp hr).2 (hm.mp hr').2
        queue_size := ?_
        queue_maxSize := fun l => by rw [remove_maxSize]; exact h.queue_maxSize l
        tree_own := fun hr => by rw [hi, hv]; exact h.tree_own hr }
    · intro l
      rw [remove_buffer]
      exact (h.queue_nodup l).erase p
    · intro l
      rw [remove_buffer, remove_size, h.queue_size l]
      split_ifs with hl
      · subst hl
        have hpos := List.length_pos_of_mem hp
        have hlt := h.queue_size_lt l
        rw [List.length_erase_of_mem hp]
        simp only [ulongDec, ulongSize]
        omega
      · have hne : p ∉ (s.queues l).buffer := fun hpl => hl (h.queue_one hpl hp)
        rw [List.erase_of_not_mem hne]
  · refine view_eq_of (by simp [remove_pages]) (view_free e s p).symm ?_ ?_
      (linked_congr (hv p) (hi p) rfl) rfl
    · exact iff_of_false (fun hc => (hm.mp hc).1 rfl) Bool.false_ne_true
    · exact iff_of_false (fun hc => (hm.mp hc).1 rfl) Bool.false_ne_true
  · intro r hr
    refine view_eq_of (by simp [remove_pages, hr]) (view_free e s r).symm ?_ ?_
      (linked_congr (hv r) (hi r) rfl) rfl
    · rw [hi, hm, view_clean e s r]
      exact and_iff_right hr
    · rw [hi, hm, view_dirty e s r]
      exact and_iff_right hr

/-- The two queues a page can be in. -/
def OwnQueue (t : TaggedPage C) (q : Queue) : Prop :=
  q = cleanQueue t.index ∨ q = dirtyQueue t.index

/-- The room that `init` leaves in every queue is enough for all pages. -/
lemma Placed.enqueue_eq (h : s.Placed e) (q : Queue) (p : PageId) : s.enqueue q p =
    (0, (s.modifyQueue q fun l =>
      { l with buffer := l.buffer ++ [p], size := ulongInc l.size }).setBufferId p q.bufferId) := by
  have hlen := (h.queue_length_le q).trans (numPages_le e)
  rw [enqueue, if_neg]
  rw [h.queue_size, h.queue_maxSize]
  omega

/-- `enqueue` of a page that is in no queue. -/
lemma Placed.moves_enqueue (h : s.Placed e) {p : PageId} {q : Queue} (hq : OwnQueue (s.pages p) q)
    (hp : p < e.numPages) (hc : (s.view e p).clean = false) (hd : (s.view e p).dirty = false) :
    Moves e s (s.enqueue q p).2 p
      { s.view e p with
        page := { s.pages p with bufferId := q.bufferId }
        clean := q == cleanQueue (s.pages p).index
        dirty := q == dirtyQueue (s.pages p).index } := by
  have hno : ∀ l, p ∉ (s.queues l).buffer := h.not_mem_queue hc hd
  rw [h.enqueue_eq q p]
  set s' := (s.modifyQueue q fun l =>
    { l with buffer := l.buffer ++ [p], size := ulongInc l.size }).setBufferId p q.bufferId with hs'
  have hpages : s'.pages = Function.update s.pages p { s.pages p with bufferId := q.bufferId } :=
    rfl
  have hqueue : ∀ l, s'.queues l = if l = q then
      { s.queues l with
        buffer := (s.queues l).buffer ++ [p], size := ulongInc (s.queues l).size }
      else s.queues l := by
    intro l
    by_cases hl : l = q <;> simp [hs', setBufferId, modifyPage, modifyQueue, hl]
  have hm : ∀ {r l}, r ∈ (s'.queues l).buffer ↔ r ∈ (s.queues l).buffer ∨ (r = p ∧ l = q) := by
    intro r l
    rw [hqueue]
    split_ifs with hl <;> simp [hl]
  have hi : ∀ r, (s'.pages r).index = (s.pages r).index := by
    intro r
    by_cases hr : r = p <;> simp [hpages, hr]
  have hv : ∀ r, (s'.pages r).pvd = (s.pages r).pvd := by
    intro r
    by_cases hr : r = p <;> simp [hpages, hr]
  apply Moves.of_views
  · refine
      { h with
        queue_nodup := ?_
        queue_lt := ?_
        queue_own := ?_
        queue_one := ?_
        queue_size := ?_
        queue_maxSize := ?_
        tree_own := fun hr => by rw [hi, hv]; exact h.tree_own hr }
    · intro l
      rw [hqueue]
      split_ifs with hl
      · simpa using (h.queue_nodup l).concat (hno l)
      · exact h.queue_nodup l
    · intro r l hr
      rcases hm.mp hr with hr | ⟨rfl, -⟩
      · exact h.queue_lt hr
      · exact hp
    · intro r l hr
      rw [hi]
      rcases hm.mp hr with hr | ⟨rfl, rfl⟩
      · exact h.queue_own hr
      · exact hq
    · intro r l l' hr hr'
      rcases hm.mp hr with h₁ | ⟨rfl, rfl⟩ <;> rcases hm.mp hr' with h₂ | ⟨hrp, rfl⟩
      · exact h.queue_one h₁ h₂
      · subst hrp
        exact absurd h₁ (hno l)
      · exact absurd h₂ (hno l')
      · rfl
    · intro l
      rw [hqueue]
      split_ifs with hl
      · have hlt := h.queue_size_lt l
        simp only [List.length_append, List.length_singleton, h.queue_size, ulongInc, ulongSize]
        omega
      · exact h.queue_size l
    · intro l
      rw [hqueue]
      split_ifs with hl <;> exact h.queue_maxSize l
  · refine view_eq_of (by simp [hpages]) (view_free e s p).symm ?_ ?_
      (linked_congr (hv p) (hi p) rfl) rfl
    · rw [hi, hm]
      simp only [hno, false_or, true_and, beq_iff_eq]
      exact eq_comm
    · rw [hi, hm]
      simp only [hno, false_or, true_and, beq_iff_eq]
      exact eq_comm
  · intro r hr
    refine view_eq_of (by simp [hpages, hr]) (view_free e s r).symm ?_ ?_
      (linked_congr (hv r) (hi r) rfl) rfl
    · rw [hi, hm, view_clean e s r]
      simp [hr]
    · rw [hi, hm, view_dirty e s r]
      simp [hr]

/-- Moving a page to the tail of its queue is not visible. -/
lemma Placed.moves_rotate (h : s.Placed e) {p : PageId} {q : Queue}
    (hp : p ∈ (s.queues q).buffer) : Moves e s (s.rotate q p) p (s.view e p) := by
  have hqueue : ∀ l, (s.rotate q p).queues l = if l = q then
      { s.queues l with buffer := (s.queues l).buffer.erase p ++ [p] } else s.queues l := by
    intro l
    by_cases hl : l = q
    · simp [rotate, listDelInit, modifyQueue, hl]
    · have hne : p ∉ (s.queues l).buffer := fun hpl => hl (h.queue_one hpl hp)
      simp [rotate, listDelInit, modifyQueue, hl, List.erase_of_not_mem hne]
  have hm : ∀ {r l}, r ∈ ((s.rotate q p).queues l).buffer ↔ r ∈ (s.queues l).buffer := by
    intro r l
    rw [hqueue]
    split_ifs with hl
    · subst hl
      have he := (h.queue_nodup l).mem_erase_iff (a := r) (b := p)
      by_cases hr : r = p <;> simp [he, hr, hp]
    · rfl
  apply Moves.of_views
  · refine
      { h with
        queue_nodup := ?_
        queue_lt := fun hr => h.queue_lt (hm.mp hr)
        queue_own := fun hr => h.queue_own (hm.mp hr)
        queue_one := fun hr hr' => h.queue_one (hm.mp hr) (hm.mp hr')
        queue_size := ?_
        queue_maxSize := ?_ }
    · intro l
      rw [hqueue]
      split_ifs with hl
      · simpa using ((h.queue_nodup l).erase p).concat (h.queue_nodup l).not_mem_erase
      · exact h.queue_nodup l
    · intro l
      rw [hqueue]
      split_ifs with hl
      · subst hl
        have hpos := List.length_pos_of_mem hp
        simp only [List.length_append, List.length_singleton, List.length_erase_of_mem hp,
          h.queue_size]
        omega
      · exact h.queue_size l
    · intro l
      rw [hqueue]
      split_ifs with hl <;> exact h.queue_maxSize l
  · exact view_eq_of rfl (view_free e s p).symm (hm.trans (view_clean e s p).symm)
      (hm.trans (view_dirty e s p).symm) rfl rfl
  · intro r _
    exact view_eq_of rfl (view_free e s r).symm (hm.trans (view_clean e s r).symm)
      (hm.trans (view_dirty e s r).symm) rfl rfl

/-! ### Trees -/

lemma Placed.moves_treeErase (h : s.Placed e) {k : TreeKind} {v : PvdId}
    (hv : (s.pages p).pvd = some v) (hk : (s.view e p).tree k = true) :
    Moves e s (s.treeErase ⟨k, v, (s.pages p).index % e.ncpus⟩ (s.pages p).index) p
      { s.view e p with tree := Function.update (s.view e p).tree k false } := by
  set t : TreeId := ⟨k, v, (s.pages p).index % e.ncpus⟩ with ht
  have hlook : ∀ t' i, ((s.treeErase t (s.pages p).index).trees t').lookup i =
      if t' = t ∧ i = (s.pages p).index then none else (s.trees t').lookup i := by
    intro t' i
    by_cases htt : t' = t <;> simp [treeErase, htt]
  have hown : (s.trees t).lookup (s.pages p).index = some p := by
    obtain ⟨v', hv', hl⟩ := view_tree.mp hk
    obtain rfl : v = v' := by simpa [hv] using hv'
    exact hl
  apply Moves.of_views
  · refine { h with tree_own := ?_ }
    intro t' i r hr
    rw [hlook] at hr
    split_ifs at hr with hc
    exact h.tree_own hr
  · refine view_eq_of rfl (view_free e s p).symm (view_clean e s p).symm
      (view_dirty e s p).symm (funext fun k' => ?_) rfl
    by_cases hkk : k' = k
    · subst hkk
      simp [linked, treeLookup, treeErase, hv, ht]
    · have hne : (⟨k', v, (s.pages p).index % e.ncpus⟩ : TreeId) ≠ t := by simp [ht, hkk]
      simp [linked, treeLookup, treeErase, hv, hkk, hne, view]
  · intro r hr
    refine view_eq_of rfl (view_free e s r).symm (view_clean e s r).symm
      (view_dirty e s r).symm (funext fun k' => ?_) rfl
    have hpages : (s.treeErase t (s.pages p).index).pages = s.pages := rfl
    simp only [view, linked, treeLookup, hpages]
    cases hvr : (s.pages r).pvd with
    | none => rfl
    | some vr =>
      simp only [hlook]
      split_ifs with hc
      · rw [hc.1, hc.2, hown]
        simp [Ne.symm hr]
      · rfl

/-- Only the lookups in the trees count. -/
lemma Placed.moves_trees (h : s.Placed e) (p : PageId) {T : TreeId → KeyMap Pgoff PageId}
    (hT : ∀ t i, (T t).lookup i = (s.trees t).lookup i) :
    Moves e s { s with trees := T } p (s.view e p) := by
  have hview : ∀ r, State.view e { s with trees := T } r = s.view e r := by
    intro r
    refine view_eq_of rfl (view_free e s r).symm (view_clean e s r).symm
      (view_dirty e s r).symm (funext fun k' => ?_) rfl
    simp only [view, linked, treeLookup, hT]
  exact .of_views { h with tree_own := fun hr => h.tree_own (by rwa [hT] at hr) } (hview p)
    fun r _ => hview r

/-- An insertion under a key that is taken does nothing. -/
lemma Placed.moves_treeInsert_taken (h : s.Placed e) {k : TreeKind} {v : PvdId} {i : Pgoff}
    {q : PageId} (hq : s.treeLookup e k v i = some q) (p : PageId) :
    Moves e s (s.treeInsert e k v i p) p (s.view e p) := by
  refine h.moves_trees p fun t j => ?_
  have hq' : (s.trees ⟨k, v, i % e.ncpus⟩).lookup i = some q := hq
  by_cases ht : t = ⟨k, v, i % e.ncpus⟩
  · subst ht
    by_cases hj : j = i <;> simp [KeyMap.lookup_insertNew, hj, hq']
  · simp [ht]

lemma Placed.moves_treeInsert (h : s.Placed e) {k : TreeKind} {v : PvdId}
    (hv : (s.pages p).pvd = some v) (hk : s.treeLookup e k v (s.pages p).index = none) :
    Moves e s (s.treeInsert e k v (s.pages p).index p) p
      { s.view e p with tree := Function.update (s.view e p).tree k true } := by
  set t : TreeId := ⟨k, v, (s.pages p).index % e.ncpus⟩ with ht
  have hlook : ∀ t' i, ((s.treeInsert e k v (s.pages p).index p).trees t').lookup i =
      if t' = t ∧ i = (s.pages p).index then some p else (s.trees t').lookup i := by
    intro t' i
    have hnone : (s.trees t).lookup (s.pages p).index = none := hk
    by_cases htt : t' = t
    · subst htt
      simp [treeInsert, ← ht, KeyMap.lookup_insertNew, hnone]
    · simp [treeInsert, ← ht, htt]
  have hpages : (s.treeInsert e k v (s.pages p).index p).pages = s.pages := rfl
  apply Moves.of_views
  · refine { h with tree_own := ?_ }
    intro t' i r hr
    rw [hlook] at hr
    split_ifs at hr with hc
    · obtain ⟨rfl, rfl⟩ := hc
      obtain rfl : p = r := by simpa using hr
      exact ⟨rfl, hv, rfl⟩
    · exact h.tree_own hr
  · refine view_eq_of rfl (view_free e s p).symm (view_clean e s p).symm
      (view_dirty e s p).symm (funext fun k' => ?_) rfl
    simp only [linked, treeLookup, hpages, hv, hlook]
    by_cases hkk : k' = k
    · simp [hkk, ht]
    · simp [hkk, ht, view, linked, treeLookup, hv]
  · intro r hr
    refine view_eq_of rfl (view_free e s r).symm (view_clean e s r).symm
      (view_dirty e s r).symm (funext fun k' => ?_) rfl
    simp only [view, linked, treeLookup, hpages]
    cases hvr : (s.pages r).pvd with
    | none => rfl
    | some vr =>
      simp only [hlook]
      split_ifs with hc
      · have hnone : (s.trees t).lookup (s.pages p).index = none := hk
        rw [hc.1, hc.2, hnone]
        simp [Ne.symm hr]
      · rfl

/-! ### Free lists -/

lemma Placed.moves_takeFree (h : s.Placed e) {cpu : ℕ} {rest : List PageId}
    (hl : s.fl cpu = p :: rest) :
    Moves e s ({ s with fl := Function.update s.fl cpu rest }.modifyPage p
        fun t => { t with cpuid := cpu }) p
      { s.view e p with page := { s.pages p with cpuid := e.home p }, free := false } := by
  have hp : p ∈ s.fl cpu := by simp [hl]
  have hnd := h.fl_nodup cpu
  rw [hl, List.nodup_cons] at hnd
  have hm : ∀ {r c}, r ∈ Function.update s.fl cpu rest c ↔ r ∈ s.fl c ∧ r ≠ p := by
    intro r c
    by_cases hc : c = cpu
    · subst hc
      rw [Function.update_self, hl, List.mem_cons]
      constructor
      · exact fun hr => ⟨Or.inr hr, fun hrp => hnd.1 (hrp ▸ hr)⟩
      · rintro ⟨hr | hr, hne⟩
        · exact absurd hr hne
        · exact hr
    · rw [Function.update_of_ne hc]
      refine ⟨fun hr => ⟨hr, ?_⟩, And.left⟩
      rintro rfl
      exact hc ((h.fl_home hr).symm.trans (h.fl_home hp))
  have htake : Moves e s { s with fl := Function.update s.fl cpu rest } p
      { s.view e p with free := false } := by
    apply Moves.of_views
    · refine
        { h with
          fl_nodup := ?_
          fl_lt := fun hr => h.fl_lt (hm.mp hr).1
          fl_home := fun hr => h.fl_home (hm.mp hr).1 }
      intro c
      by_cases hc : c = cpu
      · subst hc
        simpa using hnd.2
      · simpa [hc] using h.fl_nodup c
    · refine view_eq_of rfl ?_ (view_clean e s p).symm (view_dirty e s p).symm rfl rfl
      exact iff_of_false (fun hr => (hm.mp hr).2 rfl) Bool.false_ne_true
    · intro r hr
      refine view_eq_of rfl ?_ (view_clean e s r).symm (view_dirty e s r).symm rfl rfl
      exact hm.trans ((and_iff_left hr).trans (view_free e s r).symm)
  refine htake.trans ?_
  rw [h.fl_home hp]
  have := htake.placed.moves_modifyPage p (f := fun t => { t with cpuid := cpu }) rfl rfl
  rwa [htake.view_self] at this

lemma Placed.moves_freeLink (h : s.Placed e) (hp : p < e.numPages)
    (hf : (s.view e p).free = false) :
    Moves e s (s.freeLink p (e.home p)) p { s.view e p with free := true } := by
  have hno : p ∉ s.fl (e.home p) := fun hm =>
    Bool.false_ne_true (hf.symm.trans ((view_free e s p).mpr hm))
  have hm : ∀ {r c}, r ∈ (s.freeLink p (e.home p)).fl c ↔ r ∈ s.fl c ∨ (r = p ∧ c = e.home p) := by
    intro r c
    by_cases hc : c = e.home p <;> simp [freeLink, hc]
  apply Moves.of_views
  · refine
      { h with
        fl_nodup := ?_
        fl_lt := ?_
        fl_home := ?_ }
    · intro c
      by_cases hc : c = e.home p
      · subst hc
        simpa [freeLink] using (h.fl_nodup (e.home p)).concat hno
      · simpa [freeLink, hc] using h.fl_nodup c
    · intro r c hr
      rcases hm.mp hr with hr | ⟨rfl, -⟩
      · exact h.fl_lt hr
      · exact hp
    · intro r c hr
      rcases hm.mp hr with hr | ⟨rfl, rfl⟩
      · exact h.fl_home hr
      · rfl
  · refine view_eq_of rfl ?_ (view_clean e s p).symm (view_dirty e s p).symm rfl rfl
    exact iff_of_true (hm.mpr (Or.inr ⟨rfl, rfl⟩)) rfl
  · intro r hr
    refine view_eq_of rfl ?_ (view_clean e s r).symm (view_dirty e s r).symm rfl rfl
    rw [hm, view_free e s r]
    simp [hr]

end State

end FastMap
