import FastMap.Batches

/-!
# What faults do

A read fault may first reclaim pages (`Recycles`), and then either finds its page in the radix
tree or fills a free one. A write fault makes one resident page dirty.
-/

namespace FastMap

variable {C : Type*}

/-- With one NUMA node `alloc_page_lock` visits a single node. -/
def Env.OneNode (e : Env C) : Prop := ∀ n, (e.numaDv n).length ≤ 1

/-- A page that was free or clean and caches nothing now. Entries that mapped it and that it
recorded are gone. -/
structure Recycled (e : Env C) (p : PageId) (x y : PageView C) : Prop where
  idle : Idle y
  before : Idle x ∨ State.Purgeable e p x
  locked : x.page.locked = false → y.page.locked = false
  free : e.OneNode → (x.page.inUse = false → x.free = true) → y.free = true
  pte {a : VmaId × ℕ} {w : Bool} : y.pte a = some w →
    x.pte a = some w ∧ (x.page.inUse = true → ¬ x.page.covers a)

lemma Recycled.trans {e : Env C} {p : PageId} {x y z : PageView C} (h : Recycled e p x y)
    (h' : Recycled e p y z) : Recycled e p x z where
  idle := h'.idle
  before := h.before
  locked hl := h'.locked (h.locked hl)
  free ho hf := h'.free ho fun _ => h.free ho hf
  pte hz := h.pte (h'.pte hz).1

/-- The view of a free page that a fault has made a page of its file. -/
def PageView.inserted (x : PageView C) (cpu : ℕ) (offset : Pgoff) (v : PvdId) : PageView C :=
  { x.allocated cpu offset v with
    page := { (x.allocated cpu offset v).page with locked := true }
    tree := Function.update x.tree .rdx true }

/-- The view of a free page that a fault has filled with a block of its file. -/
def PageView.filled (x : PageView C) (cpu : ℕ) (offset : Pgoff) (v : PvdId) (c : C) :
    PageView C :=
  { x.inserted cpu offset v with
    page :=
      { (x.inserted cpu offset v).page with
        bufferId := .biClean, content := c, pageValid := true, locked := false }
    clean := true }

/-- The page has a slot for the area of the fault, a new one if there was none, and perhaps a new
read-only entry. -/
structure Mapped (vmf : VmFault) (x y : PageView C) : Prop where
  same : y = { x with page := { x.page with rmap := y.page.rmap, locked := false }, pte := y.pte }
  rmap : (∃ i, (x.page.rmap i).valid = true ∧ (x.page.rmap i).vma = vmf.vma ∧
      y.page.rmap = x.page.rmap) ∨
    ∃ i cpu, (x.page.rmap i).valid = false ∧
      (∀ j, (x.page.rmap j).valid = true → (x.page.rmap j).vma ≠ vmf.vma) ∧
      y.page.rmap = Function.update x.page.rmap i ⟨true, vmf.vma, vmf.address, cpu⟩
  pte : y.pte = x.pte ∨ y.pte = Function.update x.pte (vmf.vma, vmf.address) (some false)

/-- A page that has been made dirty. -/
def PageView.dirtied (x : PageView C) : PageView C :=
  { x with
    page := { x.page with isDirty := true, bufferId := .biDirty }
    clean := false
    dirty := true
    tree := Function.update x.tree .dirty true }

lemma Resident.dirtied_eq {e : Env C} {p : PageId} {x : PageView C} (h : Resident e p x)
    (hd : x.page.isDirty = true) : x.dirtied = x := by
  have hc := h.clean
  have hq := h.dirty
  have hb := h.bufferId
  have ht : Function.update x.tree .dirty true = x.tree := by
    rw [← hd, ← h.tree, Function.update_eq_self]
  simp only [hd, Bool.not_true, if_true] at hc hq hb
  obtain ⟨⟨_, _, _, _, _, _, _, _, _, _⟩, _, _, _, _, _⟩ := x
  simp only at hd hc hq hb ht
  subst hd hc hq hb
  simp only [PageView.dirtied, ht]

lemma Resident.dirtied {e : Env C} {p : PageId} {x : PageView C} (h : Resident e p x) :
    Resident e p x.dirtied where
  lt := h.lt
  inUse := h.inUse
  free := h.free
  cpuid := h.cpuid
  cached := by simpa [PageView.dirtied] using h.cached
  tree := by simp [PageView.dirtied]
  clean := rfl
  dirty := rfl
  bufferId := rfl

namespace State

variable {e : Env C} {s s' s'' : State C} {p : PageId} {v : PvdId}

/-- Pages have been reclaimed, and no other page has changed. -/
structure Recycles (e : Env C) (s s' : State C) : Prop where
  placed : s'.Placed e
  outside_eq : s'.outside = s.outside
  view_cases (q : PageId) : s'.view e q = s.view e q ∨
    Recycled e q (s.view e q) (s'.view e q)

lemma Recycles.trans (h : Recycles e s s') (h' : Recycles e s' s'') : Recycles e s s'' := by
  refine ⟨h'.placed, h'.outside_eq.trans h.outside_eq, fun q => ?_⟩
  rcases h.view_cases q with hq | hq <;> rcases h'.view_cases q with hq' | hq'
  · exact Or.inl (hq'.trans hq)
  · exact Or.inr (hq ▸ hq')
  · exact Or.inr (hq' ▸ hq)
  · exact Or.inr (hq.trans hq')

lemma Recycles.inv (hi : s.Inv e) (h : Recycles e s s') : s'.Inv e := by
  refine ⟨h.placed, fun q => ?_⟩
  rcases h.view_cases q with hq | hq
  · rw [hq]
    exact hi.page q
  · exact Or.inl hq.idle

/-- A reclaimed page. -/
lemma recycled_purged {x : PageView C} (h : Purgeable e p x) : Recycled e p x x.purged := by
  have hx : x.purged = (x.dequeued.uncached.unmapped).freed := rfl
  rw [PageView.unmapped_eq] at hx
  rw [hx]
  refine ⟨⟨rfl, ⟨rfl, rfl, fun k => ?_⟩, rfl, rfl⟩, Or.inr h, fun _ => rfl, fun _ _ => rfl, ?_⟩
  · cases k with
    | rdx => simp [PageView.freed, PageView.uncached]
    | dirty => exact h.1.tree.trans h.2.1
  · intro a w ha
    have ha' : x.dequeued.uncached.unmapped.pte a = some w := ha
    rw [PageView.unmapped_pte] at ha'
    split_ifs at ha' with hc
    exact ⟨ha', fun _ hcov => hc hcov⟩

lemma Inv.recycles_tryPurgePagesFast (h : s.Inv e) (qid : ℕ) :
    Recycles e s (s.tryPurgePagesFast e qid) := by
  obtain ⟨hout, pgs, hb⟩ := h.tryPurgePagesFast qid
  refine ⟨hb.placed, hout, fun q => ?_⟩
  by_cases hq : q ∈ pgs
  · rw [hb.view_of_mem hq]
    exact Or.inr (recycled_purged (hb.all hq))
  · exact Or.inl (hb.view_of_not_mem hq)

/-- One page ends up as `w`; otherwise only idle pages may have changed. -/
structure Resolves (e : Env C) (s s' : State C) (p : PageId) (w : PageView C) : Prop where
  placed : s'.Placed e
  view_self : s'.view e p = w
  other {q : PageId} : q ≠ p → s'.view e q = s.view e q ∨
    Idle (s.view e q) ∧ Recycled e q (s.view e q) (s'.view e q)

lemma Moves.resolves {w : PageView C} (h : Moves e s s' p w) : Resolves e s s' p w :=
  ⟨h.placed, h.view_self, fun hq => Or.inl (h.view_of_ne hq)⟩

lemma Resolves.moves {w w' : PageView C} (h : Resolves e s s' p w) (h' : Moves e s' s'' p w') :
    Resolves e s s'' p w' :=
  ⟨h'.placed, h'.view_self, fun hq => by rw [h'.view_of_ne hq]; exact h.other hq⟩

/-- A page that `w` makes idle again is reclaimed too. -/
lemma Resolves.recycles {w : PageView C} (h : Resolves e s s' p w)
    (ho : s'.outside = s.outside) (hw : Recycled e p (s.view e p) w) : Recycles e s s' := by
  refine ⟨h.placed, ho, fun q => ?_⟩
  by_cases hq : q = p
  · subst hq
    rw [h.view_self]
    exact Or.inr hw
  · exact (h.other hq).imp_right And.right

/-! ### Allocation -/

/-- With one node at most one page is taken, and it is returned. -/
lemma Placed.scanNodes_single (h : s.Placed e) {nodes : List ℕ} (hn : nodes.length ≤ 1)
    {q : PageId} (hq : (s.scanNodes e nodes none).2.view e q ≠ s.view e q) :
    (s.scanNodes e nodes none).1 = some q := by
  match nodes, hn with
  | [], _ => exact absurd rfl hq
  | [n], _ =>
    cases hc : e.cpumaskOfNode n with
    | nil => simp [scanNodes, hc] at hq
    | cons cpu cpus =>
      simp only [scanNodes, hc] at hq ⊢
      rcases h.takeFree_cases (cpu :: cpus) with ht | ⟨p, s', ht, -, hm⟩
      · simp [ht] at hq
      · simp only [ht] at hq ⊢
        by_contra hqp
        exact hq (hm.view_of_ne fun heq => hqp (by rw [heq]))

/-- A free page that was taken off its list and forgotten. -/
lemma recycled_taken {x : PageView C} (hi : Idle x) (ho : ¬ e.OneNode) (cpu : ℕ) :
    Recycled e p x (x.taken cpu) :=
  ⟨⟨hi.inUse, ⟨hi.unlinked.clean, hi.unlinked.dirty, hi.unlinked.tree⟩, hi.bufferId, hi.isDirty⟩,
    Or.inl hi, id, fun h => absurd h ho, fun ha => ⟨ha, fun hu => by simp [hi.inUse] at hu⟩⟩

lemma Placed.recycled_of_takes (h : s.Placed e)
    (hidle : ∀ q, (s.view e q).free = true → Idle (s.view e q)) {nodes : List ℕ}
    {found : Option PageId} {s₁ : State C} (hs : s.scanNodes e nodes none = (found, s₁))
    (ht : Takes e s s₁) {q : PageId} (hq : found ≠ some q) (hn : e.OneNode → nodes.length ≤ 1) :
    s₁.view e q = s.view e q ∨
      Idle (s.view e q) ∧ Recycled e q (s.view e q) (s₁.view e q) := by
  by_cases ho : e.OneNode
  · left
    by_contra hne
    have := h.scanNodes_single (hn ho) (q := q) (by rw [hs]; exact hne)
    rw [hs] at this
    exact hq this
  · rcases ht.view_cases q with hv | ⟨hf, hv⟩
    · exact Or.inl hv
    · rw [hv]
      exact Or.inr ⟨hidle q hf, recycled_taken (hidle q hf) ho _⟩

lemma outside_scanNodes (e : Env C) (s : State C) (nodes : List ℕ) (found : Option PageId) :
    (s.scanNodes e nodes found).2.outside = s.outside :=
  scanNodes_rule (R := fun s s' => s'.outside = s.outside) (fun _ => rfl)
    (fun h h' => h'.trans h) (fun _ _ _ _ => rfl) e s nodes found

lemma outside_allocPageLock (e : Env C) (s : State C) (node : ℕ) (offset : Pgoff) (v : PvdId) :
    (s.allocPageLock e node offset v).2.outside = s.outside := by
  have h := outside_scanNodes e s (e.numaDv node) none
  simp only [State.allocPageLock]
  split <;> simp_all

/-- `alloc_page_lock` finds nothing, or a free page that it makes a page of the file. -/
lemma Placed.allocPageLock_idle (h : s.Placed e)
    (hidle : ∀ q, (s.view e q).free = true → Idle (s.view e q)) (node : ℕ) (offset : Pgoff)
    (v : PvdId) :
    (∃ s', s.allocPageLock e node offset v = (none, s') ∧ s'.Placed e ∧
      ∀ q, s'.view e q = s.view e q ∨
        Idle (s.view e q) ∧ Recycled e q (s.view e q) (s'.view e q)) ∨
    ∃ p s', s.allocPageLock e node offset v = (some p, s') ∧ (s.view e p).free = true ∧
      Resolves e s s' p ((s.view e p).allocated (e.home p) offset v) := by
  rcases h.allocPageLock_cases (fun p hf => (hidle p hf).unlinked) node offset v with
    ⟨s', hs, hsc, ht⟩ | ⟨p, s₁, s', hs, hsc, ht, hf, hm⟩
  · exact Or.inl ⟨s', hs, ht.placed, fun q =>
      h.recycled_of_takes hidle hsc ht (by simp) fun ho => ho node⟩
  · refine Or.inr ⟨p, s', hs, hf, hm.placed, hm.view_self, fun hq => ?_⟩
    rw [hm.view_of_ne hq]
    exact h.recycled_of_takes hidle hsc ht (by simpa using Ne.symm hq) fun ho => ho node

lemma Inv.allocPageLock (h : s.Inv e) (node : ℕ) (offset : Pgoff) (v : PvdId) :
    (∃ s', s.allocPageLock e node offset v = (none, s') ∧ Recycles e s s') ∨
    ∃ p s', s.allocPageLock e node offset v = (some p, s') ∧ (s.view e p).free = true ∧
      Resolves e s s' p ((s.view e p).allocated (e.home p) offset v) := by
  refine (h.placed.allocPageLock_idle (fun q => Idle.of_free (h.page q)) node offset v).imp_left ?_
  rintro ⟨s', hs, hp, hv⟩
  have ho := outside_allocPageLock e s node offset v
  rw [hs] at ho
  exact ⟨s', hs, hp, ho, fun q => (hv q).imp_right And.right⟩

/-! ### Finding the page -/

/-- The lookups that the views allow. -/
lemma Placed.treeLookup_iff (h : s.Placed e) {k : TreeKind} {offset : Pgoff} :
    s.treeLookup e k v offset = some p ↔
      (s.view e p).tree k = true ∧ (s.pages p).pvd = some v ∧ (s.pages p).index = offset := by
  constructor
  · intro hl
    obtain ⟨-, hv, hi⟩ := h.tree_own hl
    exact ⟨h.tree_of_lookup hl, hv, hi⟩
  · rintro ⟨ht, hv, rfl⟩
    obtain ⟨w, hw, hl⟩ := view_tree.mp ht
    obtain rfl : w = v := by simpa using hw.symm.trans hv
    exact hl

/-- A fresh page is locked, whatever its lock was. -/
lemma Placed.moves_trylock_fresh (h : s.Placed e) (hu : (s.pages p).inUse = true) :
    Moves e s (s.trylockTp p ulongMax).2 p
      { s.view e p with page := { s.pages p with locked := true } } := by
  by_cases hl : (s.pages p).locked = true
  · have hs : (s.trylockTp p ulongMax).2 = s := by simp [trylockTp, hu, hl]
    have hv : { s.view e p with page := { s.pages p with locked := true } } = s.view e p := by
      rw [← hl]
      rfl
    rw [hs, hv]
    exact h.moves_refl p
  · rw [trylockTp_eq hu (by simpa using hl)]
    exact h.moves_modifyPage p (f := fun t => { t with locked := true }) rfl rfl

/-- A page that was allocated in vain is freed again. -/
lemma recycled_rollback {x : PageView C} (hi : Idle x) (cpu : ℕ) (offset : Pgoff) (v : PvdId) :
    Recycled e p x (PageView.freed
      { x.allocated cpu offset v with
        page := { (x.allocated cpu offset v).page with locked := true } }) :=
  ⟨⟨rfl, ⟨hi.unlinked.clean, hi.unlinked.dirty, hi.unlinked.tree⟩, rfl, rfl⟩, Or.inl hi,
    fun _ => rfl, fun _ _ => rfl, fun ha => ⟨ha, fun hu => by simp [hi.inUse] at hu⟩⟩

/-- How the `retry_find_page` loop ends: with a page of the radix tree, or with a free page that
it has inserted there. -/
def Found (e : Env C) (v : PvdId) (offset : Pgoff) (s s' : State C) (p : PageId) (hit : Bool) :
    Prop :=
  s'.outside = s.outside ∧ ∃ s₀, Recycles e s s₀ ∧
    ((hit = true ∧ Resident e p (s₀.view e p) ∧ (s₀.pages p).locked = false ∧
      (s₀.pages p).pvd = some v ∧ (s₀.pages p).index = offset ∧
      Moves e s₀ s' p { s₀.view e p with page := { s₀.pages p with locked := true } }) ∨
    (hit = false ∧ (s₀.view e p).free = true ∧ s₀.fmapRadixLookup e v offset = none ∧
      Resolves e s₀ s' p ((s₀.view e p).inserted (e.home p) offset v)))

lemma Found.retry {t : State C} {offset : Pgoff} {hit : Bool} (hr : Recycles e s t)
    (hf : Found e v offset t s' p hit) : Found e v offset s s' p hit := by
  obtain ⟨hout, s₀, hr', hcase⟩ := hf
  exact ⟨hout.trans hr.outside_eq, s₀, hr.trans hr', hcase⟩

/-- A page that the radix trees hold is resident. -/
lemma Inv.resident_of_lookup (h : s.Inv e) {offset : Pgoff}
    (hl : s.fmapRadixLookup e v offset = some p) : Resident e p (s.view e p) := by
  obtain ⟨ht, -, -⟩ := h.placed.treeLookup_iff.mp hl
  refine (h.page p).resolve_left fun hidle => ?_
  exact Bool.false_ne_true ((hidle.unlinked.tree .rdx).symm.trans ht)

/-- A page of the radix tree that has been locked. -/
lemma Inv.found_hit (h : s.Inv e) {offset : Pgoff} (hl : s.fmapRadixLookup e v offset = some p)
    (hu : (s.pages p).locked = false) :
    Found e v offset s (s.modifyPage p fun t => { t with locked := true }) p true := by
  obtain ⟨-, hv, hi⟩ := h.placed.treeLookup_iff.mp hl
  have hres := h.resident_of_lookup hl
  exact ⟨rfl, s, ⟨h.placed, rfl, fun _ => Or.inl rfl⟩,
    Or.inl ⟨rfl, hres, hu, hv, hi, h.placed.moves_modifyPage p rfl rfl⟩⟩

/-- A freshly allocated page, locked: it goes into the radix tree, or back to its free list. -/
lemma Inv.found_alloc (h : s.Inv e) {offset : Pgoff} {t : State C} (hf : (s.view e p).free = true)
    (hr : Resolves e s t p ((s.view e p).allocated (e.home p) offset v))
    (ho : t.outside = s.outside) {b : Bool} {t' : State C}
    (hs : (t.trylockTp p ulongMax).2.fmapRadixInsert e v offset p = (b, t')) :
    (b = true ∧ Found e v offset s t' p false) ∨
    (b = false ∧ Recycles e s (t'.freePageLock p)) := by
  have hidle := Idle.of_free (h.page p) hf
  have hpage : t.pages p = ((s.view e p).allocated (e.home p) offset v).page := by
    rw [← view_page e, hr.view_self]
  have hm := hr.placed.moves_trylock_fresh (p := p) (by rw [hpage]; rfl)
  rw [hr.view_self, hpage] at hm
  set t₁ := (t.trylockTp p ulongMax).2 with ht₁
  have hr₁ := hr.moves hm
  have ho₁ : t₁.outside = s.outside := (outside_trylockTp t p ulongMax).trans ho
  have hpage₁ : t₁.pages p =
      { ((s.view e p).allocated (e.home p) offset v).page with locked := true } := by
    rw [← view_page e, hr₁.view_self]
  simp only [fmapRadixInsert, Prod.mk.injEq] at hs
  obtain ⟨hb, rfl⟩ := hs
  have hv₁ : (t₁.pages p).pvd = some v := by rw [hpage₁]; rfl
  have hi₁ : (t₁.pages p).index = offset := by rw [hpage₁]; rfl
  cases hl : t₁.fmapRadixLookup e v offset with
  | none =>
    refine Or.inl ⟨by simpa [hl] using hb.symm, ho₁, s, ⟨h.placed, rfl, fun _ => Or.inl rfl⟩,
      Or.inr ⟨rfl, hf, ?_, ?_⟩⟩
    · -- a page under this key would still be there
      by_contra hne
      obtain ⟨q, hq⟩ := Option.ne_none_iff_exists'.mp hne
      obtain ⟨htq, hvq, hiq⟩ := h.placed.treeLookup_iff.mp hq
      have hqp : q ≠ p := by
        rintro rfl
        exact Bool.false_ne_true ((hidle.unlinked.tree .rdx).symm.trans htq)
      have hsame : t₁.view e q = s.view e q := by
        refine (hr₁.other hqp).resolve_right fun hrec => ?_
        exact Bool.false_ne_true ((hrec.1.unlinked.tree .rdx).symm.trans htq)
      have : t₁.fmapRadixLookup e v offset = some q := by
        refine hr₁.placed.treeLookup_iff.mpr ⟨by rw [hsame]; exact htq, ?_, ?_⟩
        · rw [← view_page e, hsame]
          exact hvq
        · rw [← view_page e, hsame]
          exact hiq
      rw [hl] at this
      exact absurd this (by simp)
    · have hins := hr₁.placed.moves_treeInsert (p := p) (k := .rdx) hv₁ (by rw [hi₁]; exact hl)
      rw [hi₁, hr₁.view_self] at hins
      exact hr₁.moves hins
  | some q =>
    -- the key is taken, so the insertion does nothing
    have hm₂ := hr₁.placed.moves_treeInsert_taken (k := .rdx) hl p
    have hr₂ := hr₁.moves hm₂
    rw [hr₁.view_self] at hr₂
    refine Or.inr ⟨by simpa [hl] using hb.symm, ?_⟩
    have hm₃ := hr₂.placed.moves_freePageLock (p := p) (h.placed.fl_lt ((view_free e s p).mp hf))
      (by rw [hr₂.view_self]
          exact ⟨hidle.unlinked.clean, hidle.unlinked.dirty, hidle.unlinked.tree⟩)
      (by rw [hr₂.view_self]; rfl) (by rw [← view_page e, hr₂.view_self]; rfl)
    rw [hr₂.view_self] at hm₃
    exact (hr₂.moves hm₃).recycles ho₁ (recycled_rollback hidle _ _ _)

lemma Inv.findPage (h : s.Inv e) {offset : Pgoff} {as : List Attempt} {hit : Bool}
    (hs : findPage e v offset as s = .ok (p, hit, s')) : Found e v offset s s' p hit := by
  induction as generalizing s with
  | nil => exact absurd hs (by simp [State.findPage])
  | cons a as ih =>
    have hout := outside_allocPageLock e s a.node offset v
    simp only [State.findPage] at hs
    split at hs
    · -- a miss, or a lookup that another thread has overtaken
      rcases h.allocPageLock a.node offset v with ⟨t, ht, hr⟩ | ⟨q, t, ht, hf, hr⟩
      · rw [ht] at hs
        have hrp := hr.trans ((hr.inv h).recycles_tryPurgePagesFast (a.rnd % numQueues))
        exact (ih (hrp.inv h) hs).retry hrp
      · rw [ht] at hs hout
        dsimp only at hs
        rcases hins : (t.trylockTp q ulongMax).2.fmapRadixInsert e v offset q with ⟨b, t'⟩
        rcases h.found_alloc hf hr hout hins with ⟨rfl, hfound⟩ | ⟨rfl, hrec⟩
        · obtain ⟨rfl, rfl, rfl⟩ : q = p ∧ hit = false ∧ t' = s' := by
            simpa [hins, eq_comm] using hs
          exact hfound
        · simp only [hins] at hs
          exact (ih (hrec.inv h) hs).retry hrec
    · rename_i q hq
      have hl : s.fmapRadixLookup e v offset = some q := by
        split_ifs at hq
        exact hq
      rcases s.trylockTp_cases q ulongMax with ⟨r, hr, ht⟩ | ⟨-, hu, -, ht⟩
      · rw [ht] at hs
        split at hs
        · rename_i heq
          exact absurd (Prod.mk.inj heq).1 hr
        · rename_i heq
          obtain ⟨-, rfl⟩ := Prod.mk.inj heq
          exact ih h hs
      · rw [ht] at hs
        obtain ⟨rfl, rfl, rfl⟩ : q = p ∧ hit = true ∧ s.modifyPage q _ = s' := by
          simpa [eq_comm] using hs
        exact h.found_hit hl hu

/-! ### Filling and mapping the page -/

/-- What a frame holds once a block with content `back` has been read into it; a block whose bitmap
bit is clear is not read. -/
def readAs (s : State C) (v : PvdId) (offset : Pgoff) (r : ReadResult C) (back frame : C) : C :=
  if (s.pvds v).type = .blkd ∧ s.bitmap ((s.pvds v).bk, offset) = false then frame
  else r.content back frame

/-- What a frame holds once block `offset` of a pvd has been read into it. -/
def loaded (s : State C) (v : PvdId) (offset : Pgoff) (r : ReadResult C) (frame : C) : C :=
  s.readAs v offset r (s.disk ((s.pvds v).bk, offset)) frame

lemma readAs_full {offset : Pgoff} {r : ReadResult C} (hr : r = .full)
    (hb : (s.pvds v).type = .blkd → s.bitmap ((s.pvds v).bk, offset) = true) (back frame : C) :
    s.readAs v offset r back frame = back := by
  rw [readAs, if_neg fun h => by simp [hb h.1] at h, hr]
  rfl

lemma loaded_full {offset : Pgoff} {r : ReadResult C} (hr : r = .full)
    (hb : (s.pvds v).type = .blkd → s.bitmap ((s.pvds v).bk, offset) = true) (frame : C) :
    s.loaded v offset r frame = s.disk ((s.pvds v).bk, offset) :=
  readAs_full hr hb _ frame

/-- The block read depends on the files and their contents only. -/
lemma loaded_congr {offset : Pgoff} {r : ReadResult C} {frame : C} (ho : s'.outside = s.outside) :
    s'.loaded v offset r frame = s.loaded v offset r frame := by
  have hpvds : s'.pvds = s.pvds := congrArg Outside.pvds ho
  have hdisk : s'.disk = s.disk := congrArg Outside.disk ho
  have hbit : s'.bitmap = s.bitmap := congrArg Outside.bitmap ho
  simp only [loaded, readAs, hpvds, hdisk, hbit]

/-- `dmap_do_page_io` on a page that is not valid yet. -/
lemma Placed.moves_dmapDoPageIo (h : s.Placed e) (offset : Pgoff) (r : ReadResult C)
    (hv : (s.pages p).pageValid = false) :
    Moves e s (s.dmapDoPageIo v offset p r) p
        { s.view e p with
          page := { s.pages p with
            content := s.loaded v offset r (s.pages p).content
            pageValid := true } } ∧
      (s.dmapDoPageIo v offset p r).outside =
        { s.outside with bitmap := (s.dmapDoPageIo v offset p r).bitmap } ∧
      (∀ a, s.bitmap a = true → (s.dmapDoPageIo v offset p r).bitmap a = true) ∧
      ((s.pvds v).type = .blkd →
        (s.dmapDoPageIo v offset p r).bitmap ((s.pvds v).bk, offset) = true) := by
  have hval : ∀ c, Moves e s
      ((s.setContent p c).modifyPage p fun t => { t with pageValid := true }) p
      { s.view e p with page := { s.pages p with content := c, pageValid := true } } := fun c =>
    (h.moves_modifyPage p (f := fun t => { t with content := c }) rfl rfl).modifyPage rfl rfl
  simp only [dmapDoPageIo, hv, readOrFake, loaded, readAs, readPage]
  cases ht : (s.pvds v).type with
  | file =>
    simp only [Bool.false_eq_true, if_false, reduceCtorEq, false_and]
    exact ⟨hval _, rfl, fun a ha => ha, by simp⟩
  | blkd =>
    simp only [Bool.false_eq_true, if_false, true_and]
    cases hb : s.bitmap ((s.pvds v).bk, offset) with
    | true =>
      simp only [if_true, Bool.true_eq_false, if_false]
      exact ⟨hval _, rfl, fun a ha => ha, fun _ => hb⟩
    | false =>
      simp only [Bool.false_eq_true, if_false, if_true]
      refine ⟨?_, rfl, fun a ha => ?_, fun _ => by simp [modifyPage]⟩
      · set b := Function.update s.bitmap ((s.pvds v).bk, offset) true
        have hk : Keeps e s { s with bitmap := b } := ⟨{ h with }, rfl⟩
        have hm := hk.placed.moves_modifyPage p
          (f := fun t => { t with pageValid := true }) rfl rfl
        exact ⟨hm.placed, by rw [hm.view_eq, hk.view_eq]⟩
      · by_cases hab : a = ((s.pvds v).bk, offset)
        · simp [modifyPage, hab]
        · simpa [modifyPage, hab] using ha

/-- What the kernel does to the page of a fault. -/
lemma Placed.unlocks_finishFault (h : s.Placed e) (vmf : VmFault) (p : PageId) :
    ∃ y, Moves e s (s.finishFault vmf p) p y ∧
      y = { s.view e p with page := { s.pages p with locked := false }, pte := y.pte } ∧
      (y.pte = (s.view e p).pte ∨
        y.pte = Function.update (s.view e p).pte (vmf.vma, vmf.address) (some false)) ∧
      (s.finishFault vmf p).outside = s.outside ∧
      (s.finishFault vmf p).pte (vmf.vma, vmf.address) ≠ .none := by
  have hunlock : ∀ (t : State C) w, Moves e s t p w →
      Moves e s (t.unlockTp p) p { w with page := { w.page with locked := false } } :=
    fun t w hm => hm.modifyPage (f := fun t => { t with locked := false }) rfl rfl
  by_cases hn : s.pte (vmf.vma, vmf.address) = .none
  · have hp := h.moves_setPte (p := p) vmf.vma vmf.address
      (fun q w hq => by simp [hn] at hq) (some false)
    have hfin : s.finishFault vmf p = (s.setPte vmf.vma vmf.address (.map p false)).unlockTp p := by
      simp [finishFault, hn]
    rw [hfin]
    refine ⟨_, hunlock _ _ hp, rfl, Or.inr rfl, rfl, ?_⟩
    simp [unlockTp, modifyPage, setPte]
  · have hfin : s.finishFault vmf p = s.unlockTp p := by simp [finishFault, hn]
    rw [hfin]
    exact ⟨_, hunlock _ _ (h.moves_refl p), rfl, Or.inl rfl, rfl, hn⟩

/-- What `dmap_add_or_update_rmap` and the kernel do to the page of a fault. -/
lemma Placed.finish (h : s.Placed e) {vmf : VmFault} {cpu : ℕ} {t : State C}
    (ht : s.dmapAddOrUpdateRmap vmf p cpu = .ok t) :
    ∃ y, Moves e s (t.finishFault vmf p) p y ∧ Mapped vmf (s.view e p) y ∧
      (t.finishFault vmf p).outside = s.outside ∧
      (t.finishFault vmf p).pte (vmf.vma, vmf.address) ≠ .none := by
  obtain ⟨hout, hcase⟩ := h.dmapAddOrUpdateRmap_cases ht
  -- the page after its slot is there
  have hslot : ∃ r, Moves e s t p { s.view e p with page := { s.pages p with rmap := r } } ∧
      ((∃ i, ((s.pages p).rmap i).valid = true ∧ ((s.pages p).rmap i).vma = vmf.vma ∧
        r = (s.pages p).rmap) ∨
      ∃ i cpu, ((s.pages p).rmap i).valid = false ∧
        (∀ j, ((s.pages p).rmap j).valid = true → ((s.pages p).rmap j).vma ≠ vmf.vma) ∧
        r = Function.update (s.pages p).rmap i ⟨true, vmf.vma, vmf.address, cpu⟩) := by
    rcases hcase with ⟨i, hv, hm, rfl⟩ | ⟨i, hv, hno, hm⟩
    · exact ⟨_, h.moves_refl p, Or.inl ⟨i, hv, hm, rfl⟩⟩
    · exact ⟨_, hm, Or.inr ⟨i, cpu, hv, hno, rfl⟩⟩
  obtain ⟨r, hr, hrmap⟩ := hslot
  obtain ⟨y, hy, hsame, hpte, ho, hne⟩ := hr.placed.unlocks_finishFault vmf p
  rw [hr.view_self] at hpte
  rw [← view_page e t, hr.view_self] at hsame
  have hrm : y.page.rmap = r := by rw [hsame]
  refine ⟨y, hr.trans hy, ⟨?_, ?_, hpte⟩, ho.trans hout, hne⟩
  · rw [hrm]
    exact hsame
  · rw [hrm]
    exact hrmap

/-- A completed read fault. The page is `x` before it is mapped: a resident page that was found,
or a free page that has been filled from the device. -/
structure Faulted (e : Env C) (s s₀ s' : State C) (vmf : VmFault) (f : FaultEnv C) (v : PvdId)
    (p : PageId) (x y : PageView C) : Prop where
  pvd : s.vmaPvd vmf.vma = some v
  recycles : Recycles e s s₀
  resolves : Resolves e s₀ s' p y
  mapped : Mapped vmf x y
  found : (Resident e p (s₀.view e p) ∧ (s₀.pages p).locked = false ∧ (s₀.pages p).pvd = some v ∧
      (s₀.pages p).index = vmf.pgoff ∧ x = s₀.view e p) ∨
    ((s₀.view e p).free = true ∧ s₀.fmapRadixLookup e v vmf.pgoff = none ∧
      x = (s₀.view e p).filled (e.home p) vmf.pgoff v
        (s.loaded v vmf.pgoff f.read (s₀.pages p).content))
  outside_eq : s'.outside = { s.outside with bitmap := s'.bitmap }
  bitmap {a : DevId × Pgoff} : s.bitmap a = true → s'.bitmap a = true
  bit : (s₀.view e p).free = true → (s.pvds v).type = .blkd →
    s'.bitmap ((s.pvds v).bk, vmf.pgoff) = true
  pte : s'.pte (vmf.vma, vmf.address) ≠ .none

lemma Inv.fault (h : s.Inv e) {vma : VmaId} {i : ℕ} {f : FaultEnv C}
    (hs : s.fault e vma i f = .ok s') :
    ∃ s₀ v p x y, Faulted e s s₀ s' (s.vmFault vma i) f v p x y := by
  simp only [State.fault] at hs
  set vmf := s.vmFault vma i with hvmf
  cases hg : s.permaGetpage e vmf f with
  | error err => simp [hg] at hs
  | ok r =>
    obtain ⟨p, t⟩ := r
    obtain rfl : t.finishFault vmf p = s' := by simpa [hg] using hs
    simp only [permaGetpage] at hg
    split at hg
    · exact absurd hg (by simp)
    · rename_i v hv
      split_ifs at hg
      cases hf : State.findPage e v vmf.pgoff f.attempts s with
      | error err => simp [hf] at hg
      | ok r =>
        obtain ⟨q, hit, s₁⟩ := r
        obtain ⟨hout, s₀, hrec, hcase⟩ := h.findPage hf
        cases hit with
        | true =>
          obtain ⟨-, hres, hl, hpv, hpi, hm⟩ := hcase.resolve_right (by simp)
          simp only [hf] at hg
          split_ifs at hg
          cases hrm : s₁.dmapAddOrUpdateRmap vmf q f.cpu with
          | error err => simp [hrm, Except.map] at hg
          | ok t₁ =>
            obtain ⟨rfl, rfl⟩ : q = p ∧ t₁ = t := by simpa [hrm, Except.map] using hg
            obtain ⟨y, hy, hmap, ho, hpte⟩ := hm.placed.finish hrm
            rw [hm.view_self] at hmap
            have hout' := ho.trans hout
            refine ⟨s₀, v, q, s₀.view e q, y, hv, hrec, (hm.trans hy).resolves, ?_,
              Or.inl ⟨hres, hl, hpv, hpi, rfl⟩, ?_, ?_,
              fun hfree => by simp [hres.free] at hfree, hpte⟩
            · exact ⟨hmap.same, hmap.rmap, hmap.pte⟩
            · rw [hout']
              rw [show (t₁.finishFault vmf q).bitmap = s.bitmap from congrArg Outside.bitmap hout']
              rfl
            · intro a ha
              rw [show (t₁.finishFault vmf q).bitmap = s.bitmap from congrArg Outside.bitmap hout']
              exact ha
        | false =>
          obtain ⟨-, hfree, hmiss, hres⟩ := hcase.resolve_left (by simp)
          simp only [hf] at hg
          have hidle := Idle.of_free ((hrec.inv h).page q) hfree
          have hlt := hrec.placed.fl_lt ((view_free e s₀ q).mp hfree)
          have hins := hres.placed.moves_insertPage (p := q) false hlt
            (by rw [hres.view_self]; exact hidle.unlinked.clean)
            (by rw [hres.view_self]; exact hidle.unlinked.dirty)
          obtain ⟨hio, hio_out, hbm, hset⟩ := hins.placed.moves_dmapDoPageIo (p := q) (v := v)
            vmf.pgoff f.read (by rw [hins.pages_self, ← view_page e, hres.view_self]; rfl)
          have hi_out : (s₁.insertPage q false).outside = s.outside :=
            (outside_insertPage s₁ q false).trans hout
          set s₂ := (s₁.insertPage q false).dmapDoPageIo v vmf.pgoff q f.read with hs₂
          cases hrm : s₂.dmapAddOrUpdateRmap vmf q f.cpu with
          | error err => simp [hrm, Except.map] at hg
          | ok t₁ =>
            obtain ⟨rfl, rfl⟩ : q = p ∧ t₁ = t := by simpa [hrm, Except.map] using hg
            obtain ⟨y, hy, hmap, ho, hpte⟩ := hio.placed.finish hrm
            have hv₁ : (s₁.insertPage q false).view e q = _ := hins.view_self
            rw [← view_page e, hres.view_self] at hv₁
            have hv₂ := hio.view_self
            rw [← view_page e, hv₁] at hv₂
            rw [hv₂, loaded_congr hi_out] at hmap
            have hpvds : (s₁.insertPage q false).pvds = s.pvds := congrArg Outside.pvds hi_out
            have hbit : (s₁.insertPage q false).bitmap = s.bitmap :=
              congrArg Outside.bitmap hi_out
            have hbit' : (t₁.finishFault vmf q).bitmap = s₂.bitmap := congrArg Outside.bitmap ho
            refine ⟨s₀, v, q, (s₀.view e q).filled (e.home q) vmf.pgoff v
              (s.loaded v vmf.pgoff f.read (s₀.pages q).content), y, hv, hrec,
              ((hres.moves hins).moves hio).moves hy, ⟨hmap.same, hmap.rmap, hmap.pte⟩,
              Or.inr ⟨hfree, hmiss, rfl⟩, ?_, ?_, fun _ hb => ?_, hpte⟩
            · rw [ho, hio_out, hi_out, hbit']
            · intro a ha
              rw [hbit']
              exact hbm a (by rw [hbit]; exact ha)
            · rw [hpvds] at hset
              rw [hbit']
              exact hset hb

/-! ### Write faults -/

/-- The page that an entry maps, if any, is cached for the file of the area. -/
def cachedMapping (e : Env C) (s : State C) (vma : VmaId) (i : ℕ) : Bool :=
  match s.pte (vma, (s.vmas vma).addr i), s.vmaPvd vma with
  | .none, _ => true
  | .map _ _, none => false
  | .map p _, some v => s.fmapRadixLookup e v ((s.vmas vma).vmPgoff + i) == some p

lemma lookup_of_cachedMapping {vma : VmaId} {i : ℕ} {w : Bool} (h : s.cachedMapping e vma i = true)
    (hp : s.pte (vma, (s.vmas vma).addr i) = .map p w) : ∃ v, s.vmaPvd vma = some v ∧
      s.fmapRadixLookup e v ((s.vmas vma).vmPgoff + i) = some p := by
  simp only [cachedMapping, hp] at h
  cases hv : s.vmaPvd vma with
  | none => simp [hv] at h
  | some v => exact ⟨v, rfl, by simpa [hv] using h⟩

/-- A clean resident page is in no dirty tree, and no other page has its key. -/
lemma Inv.dirtyTree_vacant (h : s.Inv e) (hr : Resident e p (s.view e p))
    (hv : (s.pages p).pvd = some v) (hd : (s.pages p).isDirty = false) :
    s.treeLookup e .dirty v (s.pages p).index = none := by
  by_contra hne
  obtain ⟨q, hq⟩ := Option.ne_none_iff_exists'.mp hne
  obtain ⟨htq, hvq, hiq⟩ := h.placed.treeLookup_iff.mp hq
  have hrq : Resident e q (s.view e q) := .of_dirtyTree (h.page q) htq
  obtain rfl := eq_of_cached hrq.cached hr.cached (hvq.trans hv.symm) hiq
  exact Bool.false_ne_true (hd.symm.trans (hr.tree.symm.trans htq))

lemma Inv.moves (h : s.Inv e) {w : PageView C} (hm : Moves e s s' p w)
    (hw : Idle w ∨ Resident e p w) : s'.Inv e := by
  refine ⟨hm.placed, fun q => ?_⟩
  by_cases hq : q = p
  · subst hq
    rw [hm.view_self]
    exact hw
  · rw [hm.view_of_ne hq]
    exact h.page q

/-- `dmap_do_tagged_page_writable` on a resident page; the `BUG()` is not reached. -/
lemma Inv.dmapDoTaggedPageWritable (h : s.Inv e) (hr : Resident e p (s.view e p))
    (hv : (s.pages p).pvd = some v) :
    ∃ t, dmapDoTaggedPageWritable e s v p = .ok t ∧ t.outside = s.outside ∧
      Moves e s t p (s.view e p).dirtied := by
  by_cases hd : (s.pages p).isDirty = true
  · refine ⟨s, by simp [State.dmapDoTaggedPageWritable, hd], rfl, ?_⟩
    rw [hr.dirtied_eq hd]
    exact h.placed.moves_refl p
  · have hd' : (s.pages p).isDirty = false := by simpa using hd
    have hb : (s.pages p).bufferId = .biClean := hr.bufferId.trans (by simp [hd'])
    have hm : Moves e s (s.setDirty p true) p _ :=
      h.placed.moves_modifyPage p (f := fun t => { t with isDirty := true }) rfl rfl
    have hp := hm.pages_self
    have hvac : (s.setDirty p true).treeLookup e .dirty v ((s.setDirty p true).pages p).index =
        none := by
      rw [hp]
      exact h.dirtyTree_vacant hr hv hd'
    have hins := hm.placed.moves_treeInsert (p := p) (v := v) (by rw [hp]; exact hv) hvac
    rw [hm.view_self] at hins
    have hmv := hins.placed.moves_movePageC2d (p := p) (by
      rw [hins.view_self]
      exact hr.clean.trans (by simp [hd']))
    rw [hins.view_self, hins.pages_self] at hmv
    refine ⟨_, ?_, ?_, (hm.trans hins).trans hmv⟩
    · simp only [State.dmapDoTaggedPageWritable, hd', Bool.false_eq_true, if_false]
      rw [if_neg (by rw [hp]; simpa using hb)]
    · rw [outside_movePageC2d, outside_treeInsert]
      rfl

/-- The same once the page has been locked. -/
lemma Inv.writable_locked (h : s.Inv e) (hr : Resident e p (s.view e p))
    (hv : (s.pages p).pvd = some v) :
    let s₁ := s.modifyPage p fun t => { t with locked := true }
    ∃ t, State.dmapDoTaggedPageWritable e s₁ v p = .ok t ∧ t.outside = s.outside ∧
      Moves e s₁ t p (s₁.view e p).dirtied := by
  have hm := h.placed.moves_modifyPage p (f := fun t => { t with locked := true }) rfl rfl
  have hr₁ : Resident e p
      ((s.modifyPage p fun t => { t with locked := true }).view e p) := by
    rw [hm.view_self]
    exact ⟨hr.lt, hr.inUse, hr.free, hr.cpuid, hr.cached, hr.tree, hr.clean, hr.dirty,
      hr.bufferId⟩
  exact (h.moves hm (Or.inr (hm.view_self ▸ hr₁))).dmapDoTaggedPageWritable hr₁
    (by rw [hm.pages_self]; exact hv)

lemma Inv.mkwrite_ne_bug (h : s.Inv e) {vma : VmaId} {i : ℕ}
    (hc : s.cachedMapping e vma i = true) : s.mkwrite e vma i ≠ .error .bug := by
  intro hs
  simp only [State.mkwrite] at hs
  cases hpte : s.pte (vma, (s.vmFault vma i).address) with
  | none => simp [hpte] at hs
  | map p w =>
    obtain ⟨v, hv, hl⟩ := lookup_of_cachedMapping hc hpte
    obtain ⟨-, hpv, -⟩ := h.placed.treeLookup_iff.mp hl
    have hne : s.permaPageMkwrite e (s.vmFault vma i) p ≠ .error .bug := by
      simp only [permaPageMkwrite, show s.vmaPvd (s.vmFault vma i).vma = some v from hv]
      split
      · rename_i s₁ heq
        rcases s.trylockTp_cases p (s.vmFault vma i).pgoff with ⟨r, hr, ht⟩ | ⟨-, -, -, ht⟩
        · rw [ht] at heq
          exact absurd (Prod.mk.inj heq).1 hr
        · rw [ht] at heq
          obtain ⟨-, rfl⟩ := Prod.mk.inj heq
          obtain ⟨t, hdo, -, -⟩ := h.writable_locked (h.resident_of_lookup hl) hpv
          simp [hdo, Except.map]
      · simp
      · simp
    simp only [hpte] at hs
    split at hs
    · rename_i y hy
      obtain rfl : y = .bug := by simpa using hs
      exact hne hy
    · exact absurd hs (by simp)
    · exact absurd hs (by simp)

/-- A completed write fault: the mapped page is dirty and its entry writable, or the fault was too
late and nothing has happened. -/
lemma Inv.mkwrite (h : s.Inv e) {vma : VmaId} {i : ℕ} (hc : s.cachedMapping e vma i = true)
    (hs : s.mkwrite e vma i = .ok s') :
    s' = s ∨ ∃ p v w₀ , s.pte (vma, (s.vmas vma).addr i) = .map p w₀ ∧
      Resident e p (s.view e p) ∧ (s.pages p).locked = false ∧ (s.pages p).pvd = some v ∧
      s.vmaPvd vma = some v ∧ (s.pages p).index = (s.vmas vma).vmPgoff + i ∧
      s'.outside = s.outside ∧
      Moves e s s' p
        { (s.view e p).dirtied with
          pte := Function.update (s.view e p).pte (vma, (s.vmas vma).addr i) (some true) } := by
  simp only [State.mkwrite] at hs
  set vmf := s.vmFault vma i with hvmf
  cases hpte : s.pte (vma, vmf.address) with
  | none => simp [hpte] at hs
  | map p w₀ =>
    simp only [hpte] at hs
    obtain ⟨v, hv, hl⟩ := lookup_of_cachedMapping hc hpte
    obtain ⟨-, hpv, hpi⟩ := h.placed.treeLookup_iff.mp hl
    have hr := h.resident_of_lookup hl
    simp only [permaPageMkwrite, show s.vmaPvd vmf.vma = some v from hv] at hs
    rcases s.trylockTp_cases p vmf.pgoff with ⟨r, hr0, htry⟩ | ⟨-, hul, -, htry⟩
    · rw [htry] at hs
      left
      split at hs
      · exact absurd hs (by simp)
      · rename_i heq
        split at heq
        · rename_i h0
          exact absurd (Prod.mk.inj h0).1 hr0
        · exact absurd heq (by simp)
        · obtain rfl : s = _ := by simpa using heq
          simpa using hs.symm
      · rename_i heq
        split at heq
        · rename_i h0
          exact absurd (Prod.mk.inj h0).1 hr0
        · exact absurd heq (by simp)
        · exact absurd heq (by simp)
    · right
      rw [htry] at hs
      have hm := h.placed.moves_modifyPage p (f := fun t => { t with locked := true }) rfl rfl
      obtain ⟨t, hdo, hout, hmt⟩ := h.writable_locked hr hpv
      rw [hm.view_self] at hmt
      have hmst := hm.trans hmt
      have hset := hmst.placed.moves_setPte (p := p) vma vmf.address (by
        intro q w hq
        by_contra hne
        have hview := hmst.view_of_ne hne
        have hq' : (s.view e q).pte (vma, vmf.address) = some w := by
          rw [← hview]
          exact mapping_eq_some.mpr hq
        exact hne (Pte.map.inj ((mapping_eq_some.mp hq').symm.trans hpte)).1) (some true)
      rw [hmst.view_self] at hset
      have hfin := (hmst.trans hset).modifyPage (f := fun t => { t with locked := false }) rfl rfl
      obtain rfl : (t.setPte vma vmf.address (.map p true)).unlockTp p = s' := by
        simpa [hdo, Except.map] using hs
      refine ⟨p, v, w₀, hpte, hr, hul, hpv, hv, hpi, hout, ?_⟩
      have hl' : (s.view e p).page.locked = false := hul
      have hw : ({ (s.view e p).dirtied with
          pte := Function.update (s.view e p).pte (vma, vmf.address) (some true) } : PageView C) =
          { (s.view e p).dirtied with
            page := { (s.view e p).dirtied.page with locked := false }
            pte := Function.update (s.view e p).pte (vma, vmf.address) (some true) } := by
        rw [← hl']
        rfl
      rw [show (vma, (s.vmas vma).addr i) = (vma, vmf.address) from rfl, hw]
      exact hfin

end State

end FastMap
