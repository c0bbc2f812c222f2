import FastMap.System

/-!
# Stages of a page

While a thread works on a page, the queues and trees of the page are ahead of its flags or behind
them. `Stage` lists the combinations that occur between two steps, and `At` says that a page is in
one of them. One thing can happen to a page that is not locked: an evictor that looks for
neighbours takes a page out of its dirty tree before it tries to lock it. Such a page has been
`moved`: it counts as a member of the tree that it will be put back into.
-/

namespace FastMap

variable {C : Type*}

inductive Stage where
  /-- In no queue and no tree. -/
  | alone
  /-- In the radix tree only. -/
  | inserted
  /-- Resident, clean or dirty. -/
  | cached
  /-- Resident and clean. -/
  | clean
  /-- Just made dirty, not yet in the dirty tree. -/
  | marked
  /-- Made dirty and in the dirty tree, still in the clean queue. -/
  | treed
  /-- Dirty and in no queue. -/
  | floating
  /-- Dirty, and in no queue and no dirty tree. -/
  | grabbed
  /-- Dirty and in its dirty queue, taken out of the dirty tree. -/
  | heaped
  deriving DecidableEq, Repr

/-- Where a page is linked; `tree` is the dirty tree. -/
structure Links where
  clean : Bool
  dirty : Bool
  rdx : Bool
  tree : Bool

/-- The links of a page with the given `is_dirty`. -/
@[simp] def Stage.links (d : Bool) : Stage → Links
  | .alone => ⟨false, false, false, false⟩
  | .inserted => ⟨false, false, true, false⟩
  | .cached => ⟨!d, d, true, d⟩
  | .clean => ⟨true, false, true, false⟩
  | .marked => ⟨true, false, true, false⟩
  | .treed => ⟨true, false, true, true⟩
  | .floating => ⟨false, false, true, true⟩
  | .grabbed => ⟨false, false, true, false⟩
  | .heaped => ⟨false, true, true, false⟩

/-- The value of `is_dirty`, where the stage determines it. -/
@[simp] def Stage.isDirty : Stage → Option Bool
  | .alone => some false
  | .inserted => some false
  | .cached => none
  | .clean => some false
  | .marked => some true
  | .treed => some true
  | .floating => some true
  | .grabbed => some true
  | .heaped => some true

def Links.bufferId (l : Links) : BufferId :=
  if l.clean then .biClean else if l.dirty then .biDirty else .biNone

/-- A page in use at some stage. -/
structure At (e : Env C) (p : PageId) (moved : Prop) (g : Stage) (x : PageView C) : Prop where
  lt : p < e.numPages
  inUse : x.page.inUse = true
  free : x.free = false
  cpuid : x.page.cpuid = e.home p
  isDirty {b : Bool} : g.isDirty = some b → x.page.isDirty = b
  clean : x.clean = (g.links x.page.isDirty).clean
  dirty : x.dirty = (g.links x.page.isDirty).dirty
  rdx : x.tree .rdx = (g.links x.page.isDirty).rdx
  tree : x.tree .dirty = true ↔ (g.links x.page.isDirty).tree = true ∧ ¬ moved
  moved : moved → (g.links x.page.isDirty).tree = true
  bufferId : x.page.bufferId = (g.links x.page.isDirty).bufferId

/-- A page that no thread works on. -/
structure AtRest (e : Env C) (p : PageId) (moved : Prop) (x : PageView C) : Prop where
  unlocked : x.page.locked = false
  free : e.OneNode → p < e.numPages → x.page.inUse = false → x.free = true
  phase : Idle x ∧ ¬ moved ∨ At e p moved .cached x

variable {e : Env C} {p : PageId} {moved moved' : Prop} {g g' : Stage} {x y : PageView C}

/-! ### Stages and phases -/

/-- A page that an entry of a dirty tree refers to, or will refer to again, is also in the radix
tree. -/
lemma Stage.rdx_of_tree {d : Bool} (h : (g.links d).tree = true) : (g.links d).rdx = true := by
  cases g <;> simp_all

lemma at_cached_iff : At e p False .cached x ↔ Resident e p x := by
  constructor
  · intro h
    refine ⟨h.lt, h.inUse, h.free, h.cpuid, h.rdx, ?_, h.clean, h.dirty, ?_⟩
    · exact Bool.eq_iff_iff.mpr (by simpa using h.tree)
    · rw [h.bufferId]
      cases x.page.isDirty <;> rfl
  · intro h
    refine ⟨h.lt, h.inUse, h.free, h.cpuid, fun hb => by simp at hb, h.clean,
      h.dirty, h.cached, ?_, False.elim, ?_⟩
    · simp [h.tree]
    · rw [h.bufferId]
      cases x.page.isDirty <;> rfl

/-- Between calls every page is at rest, and conversely. -/
lemma atRest_iff : AtRest e p False x ↔ State.Settled e p x := by
  constructor
  · intro h
    exact ⟨h.phase.imp And.left at_cached_iff.mp, h.unlocked, h.free⟩
  · intro h
    exact ⟨h.unlocked, h.free, h.phase.imp (fun hi => ⟨hi, id⟩) at_cached_iff.mpr⟩

lemma AtRest.at_of_inUse (h : AtRest e p moved x) (hu : x.page.inUse = true) :
    At e p moved .cached x :=
  h.phase.resolve_left fun hi => Bool.false_ne_true (hi.1.inUse.symm.trans hu)

lemma AtRest.idle_of_free (h : AtRest e p moved x) (hf : x.free = true) : Idle x ∧ ¬ moved :=
  h.phase.resolve_right fun ha => Bool.false_ne_true (ha.free.symm.trans hf)

lemma At.atRest (h : At e p moved .cached x) (hl : x.page.locked = false) :
    AtRest e p moved x :=
  ⟨hl, fun _ _ hu => by simp [h.inUse] at hu, Or.inr h⟩

lemma Idle.atRest (h : Idle x) (hl : x.page.locked = false) (hf : x.free = true)
    (hm : ¬ moved) : AtRest e p moved x :=
  ⟨hl, fun _ _ _ => hf, Or.inl ⟨h, hm⟩⟩

/-- A page that was moved is dirty and in the radix tree. -/
lemma At.not_alone (h : At e p moved g x) (hm : moved) : g ≠ .alone := by
  rintro rfl
  exact Bool.false_ne_true (h.moved hm)

/-! ### What a stage depends on -/

/-- Only some of the fields of a page matter. -/
lemma At.congr (h : At e p moved g x) (hm : moved' ↔ moved)
    (hu : y.page.inUse = x.page.inUse) (hf : y.free = x.free) (hcpu : y.page.cpuid = x.page.cpuid)
    (hd : y.page.isDirty = x.page.isDirty) (hb : y.page.bufferId = x.page.bufferId)
    (hc : y.clean = x.clean) (hq : y.dirty = x.dirty) (ht : y.tree = x.tree) :
    At e p moved' g y where
  lt := h.lt
  inUse := hu.trans h.inUse
  free := hf.trans h.free
  cpuid := hcpu.trans h.cpuid
  isDirty hi := hd.trans (h.isDirty hi)
  clean := by rw [hc, hd, h.clean]
  dirty := by rw [hq, hd, h.dirty]
  rdx := by rw [ht, hd, h.rdx]
  tree := by rw [ht, hd, hm, h.tree]
  moved hi := by rw [hd]; exact h.moved (hm.mp hi)
  bufferId := by rw [hb, hd, h.bufferId]

lemma AtRest.congr_moved (h : AtRest e p moved x) (hm : moved' ↔ moved) : AtRest e p moved' x :=
  ⟨h.unlocked, h.free, h.phase.imp (fun hi => ⟨hi.1, fun h' => hi.2 (hm.mp h')⟩)
    fun ha => ha.congr hm rfl rfl rfl rfl rfl rfl rfl rfl⟩

/-- Taking or releasing the page lock. -/
lemma At.setLocked (h : At e p moved g x) (b : Bool) :
    At e p moved g { x with page := { x.page with locked := b } } :=
  h.congr Iff.rfl rfl rfl rfl rfl rfl rfl rfl rfl

/-! ### A page changes its stage -/

lemma Idle.at_allocated (h : Idle x) (hp : p < e.numPages) (hm : ¬ moved) (offset : Pgoff)
    (v : PvdId) : At e p moved .alone (x.allocated (e.home p) offset v) where
  lt := hp
  inUse := rfl
  free := rfl
  cpuid := rfl
  isDirty hb := by
    obtain rfl := Option.some.inj hb
    rfl
  clean := h.unlinked.clean
  dirty := h.unlinked.dirty
  rdx := h.unlinked.tree .rdx
  tree := by
    have := h.unlinked.tree .dirty
    simp_all [PageView.allocated]
  moved hi := absurd hi hm
  bufferId := rfl

lemma At.unlinked (h : At e p moved .alone x) : x.Unlinked where
  clean := h.clean
  dirty := h.dirty
  tree k := by
    cases k with
    | rdx => exact h.rdx
    | dirty =>
      have := h.tree
      simpa using this

lemma At.freed (h : At e p moved .alone x) : AtRest e p moved x.freed := by
  have hu := h.unlinked
  exact Idle.atRest ⟨rfl, ⟨hu.clean, hu.dirty, hu.tree⟩, rfl, rfl⟩ rfl rfl
    fun hm => h.not_alone hm rfl

/-- `fmap_radix_insert` -/
lemma At.inserted (h : At e p moved .alone x) :
    At e p moved .inserted { x with tree := Function.update x.tree .rdx true } :=
  { h with
    rdx := by simp
    tree := by simpa using h.tree }

/-- `radix_tree_delete` -/
lemma At.uncached (h : At e p moved .inserted x) : At e p moved .alone x.uncached :=
  { h with
    rdx := by simp [PageView.uncached]
    tree := by simpa [PageView.uncached] using h.tree }

/-- A new page joins its clean queue. -/
lemma At.enqueued (h : At e p moved .inserted x) :
    At e p moved .clean { x with page := { x.page with bufferId := .biClean }, clean := true } :=
  { h with
    clean := rfl
    bufferId := rfl }

/-- A page that has been written joins its clean queue. -/
lemma At.cleaned (h : At e p moved .grabbed x) :
    At e p moved .clean
      { x with page := { x.page with bufferId := .biClean, isDirty := false }, clean := true } :=
  { h with
    isDirty := fun hb => by simpa using hb
    clean := rfl
    bufferId := rfl }

lemma At.cached_of_clean (h : At e p moved .clean x) : At e p moved .cached x := by
  have hd : x.page.isDirty = false := h.isDirty rfl
  exact
    { h with
      isDirty := fun hb => by simp at hb
      clean := by rw [hd]; exact h.clean
      dirty := by rw [hd]; exact h.dirty
      tree := by rw [hd]; exact h.tree
      moved := by rw [hd]; exact h.moved
      bufferId := by rw [hd]; exact h.bufferId }

lemma At.clean_of_cached (h : At e p moved .cached x) (hd : x.page.isDirty = false) :
    At e p moved .clean x where
  lt := h.lt
  inUse := h.inUse
  free := h.free
  cpuid := h.cpuid
  isDirty hb := by
    obtain rfl := Option.some.inj hb
    exact hd
  clean := by simpa [hd] using h.clean
  dirty := by simpa [hd] using h.dirty
  rdx := h.rdx
  tree := by simpa [hd] using h.tree
  moved hm := by simpa [hd] using h.moved hm
  bufferId := by simpa [hd] using h.bufferId

/-- The stages of `dmap_do_tagged_page_writable`. -/
lemma At.marked (h : At e p moved .clean x) :
    At e p moved .marked { x with page := { x.page with isDirty := true } } :=
  { h with isDirty := fun hb => by simpa using hb }

lemma At.treed (h : At e p moved .marked x) :
    At e p moved .treed { x with tree := Function.update x.tree .dirty true } := by
  have hm : ¬ moved := fun hm => Bool.false_ne_true (h.moved hm)
  exact
    { h with
      rdx := by simpa using h.rdx
      tree := by simp [hm]
      moved := fun hi => absurd hi hm }

lemma At.floating (h : At e p moved .treed x) :
    At e p moved .floating
      { x with page := { x.page with bufferId := .biNone }, clean := false, dirty := false } :=
  { h with
    clean := rfl
    dirty := rfl
    bufferId := rfl }

lemma At.dirtied (h : At e p moved .floating x) :
    At e p moved .cached
      { x with page := { x.page with bufferId := .biDirty }, clean := false, dirty := true } := by
  have hd : x.page.isDirty = true := h.isDirty rfl
  exact
    { h with
      isDirty := fun hb => by simp at hb
      clean := by simp [hd]
      dirty := by simp [hd]
      tree := by simpa [hd] using h.tree
      moved := fun hi => by simp [hd]
      bufferId := by simp [hd, Links.bufferId] }

/-- `dequeue_if` on a clean queue. -/
lemma At.purging (h : At e p moved .clean x) : At e p moved .inserted x.dequeued :=
  { h with
    clean := rfl
    dirty := rfl
    bufferId := rfl }

/-- `dequeue_if` on a dirty queue. -/
lemma At.dequeued (h : At e p moved .cached x) (hd : x.page.isDirty = true) :
    At e p moved .floating x.dequeued :=
  { h with
    isDirty := fun hb => by
      obtain rfl := Option.some.inj hb
      exact hd
    clean := rfl
    dirty := rfl
    tree := by simpa [PageView.dequeued, hd] using h.tree
    moved := fun _ => rfl
    bufferId := rfl }

/-- `remove_from_dirty_tree` -/
lemma At.grabbed (h : At e p moved .floating x) (hm : ¬ moved) :
    At e p moved .grabbed x.untreed :=
  { h with
    rdx := by simpa [PageView.untreed] using h.rdx
    tree := by simp [PageView.untreed]
    moved := fun hi => absurd hi hm }

/-- `remove_if` on a page that has been moved by the caller. -/
lemma At.gathered (h : At e p moved .cached x) (hm : moved) (hm' : ¬ moved') :
    At e p moved' .grabbed x.dequeued := by
  have hd : x.page.isDirty = true := by simpa using h.moved hm
  have ht : x.tree .dirty ≠ true := fun ht => (h.tree.mp ht).2 hm
  exact
    { h with
      isDirty := fun hb => by
        obtain rfl := Option.some.inj hb
        exact hd
      clean := rfl
      dirty := rfl
      tree := by simpa [PageView.dequeued] using ht
      moved := fun hi => absurd hi hm'
      bufferId := rfl }

/-- `write_dirty_pages` locks a page of a dirty tree and takes it out. -/
lemma At.heaped (h : At e p moved .cached x) (ht : x.tree .dirty = true) :
    At e p moved .heaped x.heaped := by
  obtain ⟨hd, hm⟩ := h.tree.mp ht
  have hd : x.page.isDirty = true := by simpa using hd
  exact
    { h with
      isDirty := fun hb => by
        obtain rfl := Option.some.inj hb
        exact hd
      clean := by simpa [hd, PageView.heaped, PageView.untreed] using h.clean
      dirty := by simpa [hd, PageView.heaped, PageView.untreed] using h.dirty
      rdx := by simpa [PageView.heaped, PageView.untreed] using h.rdx
      tree := by simp [PageView.heaped, PageView.untreed]
      moved := fun hi => absurd hi hm
      bufferId := by simpa [PageView.heaped, hd, Links.bufferId] using h.bufferId }

lemma At.unqueued (h : At e p moved .heaped x) :
    At e p moved .grabbed
      { x with page := { x.page with bufferId := .biNone }, clean := false, dirty := false } :=
  { h with
    clean := rfl
    dirty := rfl
    bufferId := rfl }

/-! ### An evictor moves a page -/

/-- The page is taken out of its dirty tree, whoever works on it. -/
lemma At.move (h : At e p moved g x) (ht : x.tree .dirty = true) (hm' : moved') :
    At e p moved' g x.untreed :=
  { h with
    rdx := by simpa [PageView.untreed] using h.rdx
    tree := by simp [PageView.untreed, hm']
    moved := fun _ => (h.tree.mp ht).1 }

/-- The page is put back. -/
lemma At.unmove (h : At e p moved g x) (hm : moved) (hm' : ¬ moved') :
    At e p moved' g { x with tree := Function.update x.tree .dirty true } :=
  { h with
    rdx := by simpa using h.rdx
    tree := iff_of_true (by simp) ⟨h.moved hm, hm'⟩
    moved := fun hi => absurd hi hm' }

end FastMap
