import FastMap.System

/-!
# The merge of the dirty trees

`write_dirty_pages` merges the per-CPU dirty trees of a file: the heap holds the least page of every
tree that is not empty, and the page taken out of the heap is replaced by the next one of its tree.
So the pages come out in increasing order of their indices. This module follows the calls that the
loop makes, in their order.
-/

namespace FastMap

variable {C : Type*}

/-! ### The calls -/

/-- What `write_dirty_pages` does, step by step. -/
inductive SyncStep where
  /-- The page is locked and leaves its dirty tree. -/
  | pull (cpu : ℕ) (k : Pgoff) (p : PageId)
  /-- `__page_cleanup(p)` -/
  | cleanup (p : PageId)
  /-- A batch is written, and its pages are unlocked. -/
  | flush (pgs : List PageId)
  deriving DecidableEq, Repr

namespace SyncStep

def apply (e : Env C) (cb : Cleanup) (v : PvdId) (s : State C) : SyncStep → State C
  | pull cpu k p => (s.trylockTp p ulongMax).2.treeErase ⟨.dirty, v, cpu⟩ k
  | cleanup p => State.pageCleanup cb s p
  | flush pgs => s.flush e v pgs

/-- The pages that the callback is called on. -/
def cleanups (l : List SyncStep) : List PageId :=
  l.filterMap fun x => match x with
    | cleanup p => some p
    | _ => none

/-- The batches that are written. -/
def batches (l : List SyncStep) : List (List PageId) :=
  l.filterMap fun x => match x with
    | flush pgs => some pgs
    | _ => none

/-- Pages are cleaned up before their batch is written; `seen` are those cleaned up so far. -/
def CleanedFirst : List PageId → List SyncStep → Prop
  | _, [] => True
  | seen, pull _ _ _ :: l => CleanedFirst seen l
  | seen, cleanup p :: l => CleanedFirst (seen ++ [p]) l
  | seen, flush pgs :: l => (∀ p ∈ pgs, p ∈ seen) ∧ CleanedFirst seen l

lemma cleanups_append (l l' : List SyncStep) : cleanups (l ++ l') = cleanups l ++ cleanups l' :=
  List.filterMap_append

lemma batches_append (l l' : List SyncStep) : batches (l ++ l') = batches l ++ batches l' :=
  List.filterMap_append

lemma cleanedFirst_append (seen : List PageId) (l l' : List SyncStep) :
    CleanedFirst seen (l ++ l') ↔
      CleanedFirst seen l ∧ CleanedFirst (seen ++ cleanups l) l' := by
  induction l generalizing seen with
  | nil => simp [CleanedFirst, cleanups]
  | cons x l ih =>
    cases x with
    | pull cpu k p => exact ih seen
    | cleanup p =>
      change CleanedFirst (seen ++ [p]) (l ++ l') ↔ CleanedFirst (seen ++ [p]) l ∧
        CleanedFirst (seen ++ (p :: cleanups l)) l'
      rw [ih, List.append_assoc]
      rfl
    | flush pgs =>
      change (∀ p ∈ pgs, p ∈ seen) ∧ CleanedFirst seen (l ++ l') ↔
        ((∀ p ∈ pgs, p ∈ seen) ∧ CleanedFirst seen l) ∧ CleanedFirst (seen ++ cleanups l) l'
      rw [ih, and_assoc]

lemma CleanedFirst.mono {seen seen' : List PageId} {l : List SyncStep} (h : CleanedFirst seen l)
    (hs : seen ⊆ seen') : CleanedFirst seen' l := by
  induction l generalizing seen seen' with
  | nil => trivial
  | cons x l ih =>
    cases x with
    | pull cpu k p => exact ih h hs
    | cleanup p =>
      apply ih h
      apply List.append_subset.mpr
      exact ⟨List.Subset.trans hs (List.subset_append_left _ _), List.subset_append_right _ _⟩
    | flush pgs => exact ⟨fun p hp => hs (h.1 p hp), ih h.2 hs⟩

/-- Nothing is asked where nothing is written. -/
lemma cleanedFirst_of_batches {l : List SyncStep} (h : batches l = []) (seen : List PageId) :
    CleanedFirst seen l := by
  induction l generalizing seen with
  | nil => trivial
  | cons x l ih =>
    cases x with
    | pull cpu k p => exact ih h seen
    | cleanup p => exact ih h (seen ++ [p])
    | flush pgs => simp [batches] at h

/-- Pages that are cleaned up first are so before every batch they are in. -/
lemma CleanedFirst.mem {seen : List PageId} {l l' : List SyncStep} {pgs : List PageId}
    (h : CleanedFirst seen (l ++ flush pgs :: l')) {p : PageId} (hp : p ∈ pgs) :
    p ∈ seen ∨ cleanup p ∈ l := by
  obtain ⟨-, hflush, -⟩ := (cleanedFirst_append seen l _).mp h
  rcases List.mem_append.mp (hflush p hp) with hp | hp
  · exact Or.inl hp
  · right
    obtain ⟨x, hx, hxp⟩ := List.mem_filterMap.mp hp
    cases x with
    | cleanup q =>
      obtain rfl := Option.some.inj hxp
      exact hx
    | pull cpu k q => simp at hxp
    | flush b => simp at hxp

end SyncStep

namespace State

/-- The steps of `pullTree`. -/
def pullSteps (s : State C) (v : PvdId) (cpu : ℕ) : List SyncStep :=
  match (s.trees ⟨.dirty, v, cpu⟩).first? with
  | none => []
  | some (k, p) => [.pull cpu k p]

/-- The steps of `fillHeap`. -/
def fillSteps (v : PvdId) : List ℕ → State C → MinHeap → List SyncStep
  | [], _, _ => []
  | cpu :: cpus, s, h =>
    match s.pullTree v cpu h with
    | .error _ => []
    | .ok (t, h) => s.pullSteps v cpu ++ fillSteps v cpus t h

/-- The steps of the main loop. -/
def drainSteps (e : Env C) (cb : Cleanup) (v : PvdId) :
    ℕ → MinHeap → List PageId → State C → List SyncStep
  | 0, _, _, _ => []
  | fuel + 1, h, pgs, s =>
    if h.size = 0 then (if pgs = [] then [] else [.flush pgs])
    else
      match minHeapDeleteMin h with
      | (hn, h) =>
        match s.pullTree v hn.cpu h with
        | .error _ => []
        | .ok (t, h) =>
          let t := pageCleanup cb t hn.p
          let pgs := pgs ++ [hn.p]
          s.pullSteps v hn.cpu ++ .cleanup hn.p ::
            if pgs.length = 512 then .flush pgs :: drainSteps e cb v fuel h [] (t.flush e v pgs)
            else drainSteps e cb v fuel h pgs t

/-- The steps of a `write_dirty_pages`. -/
def syncSteps (e : Env C) (cb : Cleanup) (s : State C) (v : PvdId) : List SyncStep :=
  match fillHeap v (List.range e.ncpus) s minHeapCreate with
  | .error _ => []
  | .ok (t, h) =>
    fillSteps v (List.range e.ncpus) s minHeapCreate ++
      drainSteps e cb v (s.treeSize e .dirty v + 1) h [] t

/-! ### What the callback and the writer leave alone -/

/-- The trees, and the fields of the pages that the merge reads. -/
structure SameTags (s s' : State C) : Prop where
  trees : s'.trees = s.trees
  index (p : PageId) : (s'.pages p).index = (s.pages p).index
  inUse (p : PageId) : (s'.pages p).inUse = (s.pages p).inUse
  locked (p : PageId) : (s'.pages p).locked = (s.pages p).locked

variable {s s' s'' : State C} {p : PageId}

lemma SameTags.refl (s : State C) : SameTags s s := ⟨rfl, fun _ => rfl, fun _ => rfl, fun _ => rfl⟩

lemma SameTags.trans (h : SameTags s s') (h' : SameTags s' s'') : SameTags s s'' where
  trees := h'.trees.trans h.trees
  index p := (h'.index p).trans (h.index p)
  inUse p := (h'.inUse p).trans (h.inUse p)
  locked p := (h'.locked p).trans (h.locked p)

lemma sameTags_of_pages (ht : s'.trees = s.trees) (hp : s'.pages = s.pages) : SameTags s s' := by
  constructor
  · exact ht
  all_goals
    intro q
    rw [hp]

lemma sameTags_of_update {t : TaggedPage C} (ht : s'.trees = s.trees)
    (hp : s'.pages = Function.update s.pages p t) (hi : t.index = (s.pages p).index)
    (hu : t.inUse = (s.pages p).inUse) (hl : t.locked = (s.pages p).locked) : SameTags s s' := by
  constructor
  · exact ht
  all_goals
    intro q
    rw [hp]
    by_cases hq : q = p
    · subst hq
      simpa
    · rw [Function.update_of_ne hq]

lemma sameTags_wrprotect (s : State C) (p : PageId) (r : PrVmaRmap) :
    SameTags s (s.wrprotect p r) := by
  unfold wrprotect
  split
  · split_ifs
    · exact sameTags_of_pages rfl rfl
    · exact .refl s
  · exact .refl s

lemma sameTags_clearMappings (s : State C) (p : PageId) : SameTags s (s.clearMappings p) := by
  unfold clearMappings
  generalize List.finRange maxRmapsPerPage = l
  induction l generalizing s with
  | nil => exact .refl s
  | cons i l ih =>
    rw [List.foldl_cons]
    apply SameTags.trans _ (ih _)
    dsimp only
    split_ifs
    · exact sameTags_wrprotect s p _
    · exact .refl s

lemma sameTags_movePageD2c (s : State C) (p : PageId) : SameTags s (s.movePageD2c p) := by
  have hremove : ∀ (s : State C) q, SameTags s (s.remove q p) :=
    fun s q => sameTags_of_update (p := p) rfl rfl rfl rfl rfl
  have henqueue : ∀ (s : State C) q, SameTags s (s.enqueue q p).2 := by
    intro s q
    unfold enqueue
    split_ifs
    · exact sameTags_of_pages rfl rfl
    · exact sameTags_of_update (p := p) rfl rfl rfl rfl rfl
  have hdirty : ∀ s : State C, SameTags s (s.setDirty p false) :=
    fun s => sameTags_of_update (p := p) rfl rfl rfl rfl rfl
  exact ((hremove s _).trans (henqueue _ _)).trans (hdirty _)

lemma sameTags_pageCleanup (cb : Cleanup) (s : State C) (p : PageId) :
    SameTags s (pageCleanup cb s p) := by
  cases cb with
  | fsync => exact (sameTags_clearMappings s p).trans (sameTags_movePageD2c _ p)
  | release => exact sameTags_movePageD2c s p

/-- A batch that has been written is unlocked. -/
lemma flush_spec (e : Env C) (s : State C) (v : PvdId) (pgs : List PageId) :
    (s.flush e v pgs).trees = s.trees ∧ ∀ q, ((s.flush e v pgs).pages q).index = (s.pages q).index ∧
      ((s.flush e v pgs).pages q).inUse = (s.pages q).inUse ∧
      ((s.flush e v pgs).pages q).locked = if q ∈ pgs then false else (s.pages q).locked := by
  have hunlock : ∀ (l : List PageId) (s : State C),
      (l.foldl unlockTp s).trees = s.trees ∧ ∀ q, ((l.foldl unlockTp s).pages q).index =
        (s.pages q).index ∧ ((l.foldl unlockTp s).pages q).inUse = (s.pages q).inUse ∧
        ((l.foldl unlockTp s).pages q).locked = if q ∈ l then false else (s.pages q).locked := by
    intro l
    induction l with
    | nil => simp
    | cons p l ih =>
      intro s
      obtain ⟨ht, hp⟩ := ih (s.unlockTp p)
      rw [List.foldl_cons]
      refine ⟨ht, ?_⟩
      intro q
      obtain ⟨hi, hu, hl⟩ := hp q
      rw [hi, hu, hl]
      by_cases hq : q = p
      · subst hq
        simp [unlockTp, modifyPage]
      · simp [unlockTp, modifyPage, hq]
  exact hunlock pgs (s.writePages e v pgs)

/-! ### The invariant of the merge -/

/-- The pages of the dirty trees of a pvd may be merged: a tree is ordered by page index, no two
pages have the same index, and all are in use and unlocked. -/
structure Mergeable (e : Env C) (v : PvdId) (s : State C) : Prop where
  entry {cpu : ℕ} {k : Pgoff} {p : PageId} : cpu < e.ncpus →
    (s.trees ⟨.dirty, v, cpu⟩).lookup k = some p → (s.pages p).index = k ∧
      (s.pages p).inUse = true ∧ (s.pages p).locked = false
  distinct {cpu cpu' : ℕ} {k : Pgoff} {p p' : PageId} : cpu < e.ncpus → cpu' < e.ncpus →
    (s.trees ⟨.dirty, v, cpu⟩).lookup k = some p →
    (s.trees ⟨.dirty, v, cpu'⟩).lookup k = some p' → cpu = cpu'

/-- The heap holds pages below those of their tree, at most one from each tree, and there are no
more trees than it has room for. The indices of the pages are given by `ix`; they do not change. -/
structure Merging (e : Env C) (v : PvdId) (ix : PageId → Pgoff) (s : State C) (h : MinHeap) :
    Prop where
  index (p : PageId) : (s.pages p).index = ix p
  mergeable : s.Mergeable e v
  ordered : h.Ordered HeapNode.offset
  node {n : HeapNode} : n ∈ h.elems → n.cpu < e.ncpus ∧ n.offset = ix n.p
  cpus : (h.elems.map HeapNode.cpu).Nodup
  offset_inj {n n' : HeapNode} : n ∈ h.elems → n' ∈ h.elems → n.offset = n'.offset → n = n'
  fresh {n : HeapNode} {cpu : ℕ} {k : Pgoff} {p : PageId} : n ∈ h.elems → cpu < e.ncpus →
    (s.trees ⟨.dirty, v, cpu⟩).lookup k = some p → n.offset ≠ k
  below {n : HeapNode} {k : Pgoff} {p : PageId} : n ∈ h.elems →
    (s.trees ⟨.dirty, v, n.cpu⟩).lookup k = some p → n.offset < k
  room : (s.busyCpus e v ∪ (h.elems.map HeapNode.cpu).toFinset).card ≤ maxCpus

/-- The page is still to be merged. -/
def Pending (e : Env C) (v : PvdId) (s : State C) (h : MinHeap) (p : PageId) : Prop :=
  (∃ n ∈ h.elems, n.p = p) ∨
    ∃ cpu < e.ncpus, ∃ k, (s.trees ⟨.dirty, v, cpu⟩).lookup k = some p

variable {e : Env C} {v : PvdId} {ix : PageId → Pgoff} {h h' : MinHeap} {cb : Cleanup}

lemma Mergeable.sameTags (hm : s.Mergeable e v) (ht : SameTags s s') : s'.Mergeable e v := by
  constructor
  · intro cpu k p hcpu hk
    rw [ht.trees] at hk
    rw [ht.index, ht.inUse, ht.locked]
    exact hm.entry hcpu hk
  · intro cpu cpu' k p p' hcpu hcpu' hk hk'
    rw [ht.trees] at hk hk'
    exact hm.distinct hcpu hcpu' hk hk'

lemma busyCpus_congr (ht : s'.trees = s.trees) : s'.busyCpus e v = s.busyCpus e v := by
  simp only [busyCpus, ht]

lemma mem_busyCpus {cpu : ℕ} :
    cpu ∈ s.busyCpus e v ↔ cpu < e.ncpus ∧ (s.trees ⟨.dirty, v, cpu⟩).first? ≠ none := by
  rw [busyCpus, Finset.mem_filter, Finset.mem_range, Ne, KeyMap.size_eq_zero]

lemma Merging.sameTags (hm : Merging e v ix s h) (ht : SameTags s s') : Merging e v ix s' h where
  index p := (ht.index p).trans (hm.index p)
  mergeable := hm.mergeable.sameTags ht
  ordered := hm.ordered
  node := hm.node
  cpus := hm.cpus
  offset_inj := hm.offset_inj
  fresh hn hcpu hk := hm.fresh hn hcpu (ht.trees ▸ hk)
  below hn hk := hm.below hn (ht.trees ▸ hk)
  room := by
    rw [busyCpus_congr ht.trees]
    exact hm.room

/-- Writing a batch keeps the trees; the pages of the batch are no longer in one. -/
lemma Merging.flush (hm : Merging e v ix s h) (pgs : List PageId) :
    Merging e v ix (s.flush e v pgs) h := by
  obtain ⟨ht, hp⟩ := flush_spec e s v pgs
  constructor
  · intro p
    rw [(hp p).1, hm.index]
  · constructor
    · intro cpu k p hcpu hk
      rw [ht] at hk
      obtain ⟨hi, hu, hl⟩ := hm.mergeable.entry hcpu hk
      rw [(hp p).1, (hp p).2.1, (hp p).2.2, hl]
      exact ⟨hi, hu, by simp⟩
    · intro cpu cpu' k p p' hcpu hcpu' hk hk'
      rw [ht] at hk hk'
      exact hm.mergeable.distinct hcpu hcpu' hk hk'
  · exact hm.ordered
  · exact hm.node
  · exact hm.cpus
  · exact hm.offset_inj
  · intro n cpu k p hn hcpu hk
    rw [ht] at hk
    exact hm.fresh hn hcpu hk
  · intro n k p hn hk
    rw [ht] at hk
    exact hm.below hn hk
  · rw [busyCpus_congr ht]
    exact hm.room

lemma Merging.cpus_cons (hm : Merging e v ix s h) {cpu : ℕ} (hnot : ∀ n ∈ h.elems, n.cpu ≠ cpu) :
    (cpu ::ₘ h.elems.map HeapNode.cpu).Nodup := by
  apply Multiset.nodup_cons.mpr
  refine ⟨?_, hm.cpus⟩
  intro hmem
  obtain ⟨n, hn, hc⟩ := Multiset.mem_map.mp hmem
  exact hnot n hn hc

/-- A tree that is not empty and has no page in the heap: the heap has room for one more. -/
lemma Merging.size_lt (hm : Merging e v ix s h) {cpu : ℕ} (hcpu : cpu ∈ s.busyCpus e v)
    (hnot : ∀ n ∈ h.elems, n.cpu ≠ cpu) : h.size < maxCpus := by
  have hcard := Multiset.toFinset_card_of_nodup (hm.cpus_cons hnot)
  have hsub : (cpu ::ₘ h.elems.map HeapNode.cpu).toFinset ⊆
      s.busyCpus e v ∪ (h.elems.map HeapNode.cpu).toFinset := by
    rw [Multiset.toFinset_cons]
    exact Finset.insert_subset (Finset.mem_union_left _ hcpu) Finset.subset_union_right
  have hle := (Finset.card_le_card hsub).trans hm.room
  rw [hcard] at hle
  simp only [Multiset.card_cons, Multiset.card_map, BinHeap.elems, Multiset.card_range] at hle
  exact hle

/-- The state after a page has been locked and taken out of its tree. -/
def pulled (s : State C) (v : PvdId) (cpu : ℕ) (k : Pgoff) (p : PageId) : State C :=
  (s.trylockTp p ulongMax).2.treeErase ⟨.dirty, v, cpu⟩ k

section Pulled

variable {cpu : ℕ} {k : Pgoff}

lemma lookup_pulled (hu : (s.pages p).inUse = true) (hl : (s.pages p).locked = false)
    (c : ℕ) (j : Pgoff) : ((s.pulled v cpu k p).trees ⟨.dirty, v, c⟩).lookup j =
      if c = cpu ∧ j = k then none else (s.trees ⟨.dirty, v, c⟩).lookup j := by
  rw [pulled, trylockTp_eq hu hl]
  simp only [treeErase, modifyPage]
  by_cases hc : c = cpu
  · subst hc
    simp
  · rw [Function.update_of_ne (by simp [hc]), if_neg (by simp [hc])]

/-- What is left in the trees was there before, at another place. -/
lemma lookup_of_pulled (hu : (s.pages p).inUse = true) (hl : (s.pages p).locked = false)
    {c : ℕ} {j : Pgoff} {q : PageId}
    (hq : ((s.pulled v cpu k p).trees ⟨.dirty, v, c⟩).lookup j = some q) :
    ¬ (c = cpu ∧ j = k) ∧ (s.trees ⟨.dirty, v, c⟩).lookup j = some q := by
  rw [lookup_pulled hu hl] at hq
  split_ifs at hq with hif
  exact ⟨hif, hq⟩

lemma pages_pulled (v : PvdId) (cpu : ℕ) (k : Pgoff) (hu : (s.pages p).inUse = true)
    (hl : (s.pages p).locked = false) (q : PageId) :
    ((s.pulled v cpu k p).pages q).index = (s.pages q).index ∧
      ((s.pulled v cpu k p).pages q).inUse = (s.pages q).inUse ∧
      ((s.pulled v cpu k p).pages q).locked = if q = p then true else (s.pages q).locked := by
  rw [pulled, trylockTp_eq hu hl]
  by_cases hq : q = p
  · subst hq
    simp [treeErase, modifyPage]
  · simp [treeErase, modifyPage, hq]

lemma Merging.mergeable_pulled (hm : Merging e v ix s h) (hcpu : cpu < e.ncpus)
    (hk : (s.trees ⟨.dirty, v, cpu⟩).lookup k = some p) : (s.pulled v cpu k p).Mergeable e v := by
  obtain ⟨hi, hu, hl⟩ := hm.mergeable.entry hcpu hk
  constructor
  · intro c j q hc hq₁
    obtain ⟨hne, hq⟩ := lookup_of_pulled hu hl hq₁
    clear hq₁
    obtain ⟨hqi, hqu, hql⟩ := hm.mergeable.entry hc hq
    obtain ⟨hi', hu', hl'⟩ := pages_pulled v cpu k hu hl q
    refine ⟨hi'.trans hqi, hu'.trans hqu, ?_⟩
    -- a page of the trees is in only one place
    have hqp : q ≠ p := by
      rintro rfl
      obtain rfl : j = k := hqi.symm.trans hi
      exact hne ⟨hm.mergeable.distinct hc hcpu hq hk, rfl⟩
    rw [hl', if_neg hqp, hql]
  · intro c c' j q q' hc hc' hq hq'
    exact hm.mergeable.distinct hc hc' (lookup_of_pulled hu hl hq).2 (lookup_of_pulled hu hl hq').2

/-- The least page of a tree goes to the heap. -/
lemma Merging.pulled (hm : Merging e v ix s h) (hcpu : cpu < e.ncpus)
    (hnot : ∀ n ∈ h.elems, n.cpu ≠ cpu) (hf : (s.trees ⟨.dirty, v, cpu⟩).first? = some (k, p)) :
    Merging e v ix (s.pulled v cpu k p) (h.insert HeapNode.offset ⟨cpu, k, p⟩) := by
  have hk := KeyMap.lookup_of_first? hf
  obtain ⟨hi, hu, hl⟩ := hm.mergeable.entry hcpu hk
  have helems := BinHeap.elems_insert HeapNode.offset h ⟨cpu, k, p⟩
  constructor
  · intro q
    rw [(pages_pulled v cpu k hu hl q).1, hm.index]
  · exact hm.mergeable_pulled hcpu hk
  · exact hm.ordered.insert _
  · intro n hn
    rw [helems] at hn
    rcases Multiset.mem_cons.mp hn with rfl | hn
    · exact ⟨hcpu, by rw [← hm.index, hi]⟩
    · exact hm.node hn
  · rw [helems, Multiset.map_cons]
    exact hm.cpus_cons hnot
  · intro n n' hn hn' heq
    rw [helems] at hn hn'
    rcases Multiset.mem_cons.mp hn with rfl | hn <;> rcases Multiset.mem_cons.mp hn' with rfl | hn'
    · rfl
    · exact absurd heq.symm (hm.fresh hn' hcpu hk)
    · exact absurd heq (hm.fresh hn hcpu hk)
    · exact hm.offset_inj hn hn' heq
  · intro n c j q hn hc hq
    obtain ⟨hne, hq⟩ := lookup_of_pulled hu hl hq
    rw [helems] at hn
    rcases Multiset.mem_cons.mp hn with rfl | hn
    · rintro rfl
      exact hne ⟨hm.mergeable.distinct hc hcpu hq hk, rfl⟩
    · exact hm.fresh hn hc hq
  · intro n j q hn hq
    obtain ⟨hne, hq⟩ := lookup_of_pulled hu hl hq
    rw [helems] at hn
    rcases Multiset.mem_cons.mp hn with rfl | hn
    · exact lt_of_le_of_ne (KeyMap.first?_le hf hq) fun hkj => hne ⟨rfl, hkj.symm⟩
    · exact hm.below hn hq
  · refine (Finset.card_le_card ?_).trans hm.room
    intro c hc
    rw [helems, Multiset.map_cons, Multiset.toFinset_cons, Finset.mem_union,
      Finset.mem_insert] at hc
    rw [Finset.mem_union]
    rcases hc with hc | rfl | hc
    · obtain ⟨hlt, hne⟩ := mem_busyCpus.mp hc
      obtain ⟨⟨j, q⟩, hfirst⟩ := Option.ne_none_iff_exists'.mp hne
      have hq := (lookup_of_pulled hu hl (KeyMap.lookup_of_first? hfirst)).2
      refine Or.inl (mem_busyCpus.mpr ⟨hlt, ?_⟩)
      intro hnone
      simp [KeyMap.lookup_of_first?_none hnone] at hq
    · exact Or.inl (mem_busyCpus.mpr ⟨hcpu, by simp [hf]⟩)
    · exact Or.inr hc

lemma pending_pulled (hm : Merging e v ix s h) (hcpu : cpu < e.ncpus)
    (hk : (s.trees ⟨.dirty, v, cpu⟩).lookup k = some p) (q : PageId) :
    Pending e v (s.pulled v cpu k p) (h.insert HeapNode.offset ⟨cpu, k, p⟩) q ↔
      Pending e v s h q := by
  obtain ⟨-, hu, hl⟩ := hm.mergeable.entry hcpu hk
  unfold Pending
  rw [BinHeap.elems_insert]
  constructor
  · rintro (⟨n, hn, rfl⟩ | ⟨c, hc, j, hq⟩)
    · rcases Multiset.mem_cons.mp hn with rfl | hn
      · exact Or.inr ⟨cpu, hcpu, k, hk⟩
      · exact Or.inl ⟨n, hn, rfl⟩
    · rw [lookup_pulled hu hl] at hq
      split_ifs at hq
      exact Or.inr ⟨c, hc, j, hq⟩
  · rintro (⟨n, hn, rfl⟩ | ⟨c, hc, j, hq⟩)
    · exact Or.inl ⟨n, Multiset.mem_cons_of_mem hn, rfl⟩
    · by_cases hif : c = cpu ∧ j = k
      · obtain ⟨rfl, rfl⟩ := hif
        obtain rfl := Option.some.inj (hk.symm.trans hq)
        exact Or.inl ⟨_, Multiset.mem_cons_self _ _, rfl⟩
      · refine Or.inr ⟨c, hc, j, ?_⟩
        rw [lookup_pulled hu hl, if_neg hif]
        exact hq

lemma treeSize_pulled (hm : Merging e v ix s h) (hcpu : cpu < e.ncpus)
    (hk : (s.trees ⟨.dirty, v, cpu⟩).lookup k = some p) :
    (s.pulled v cpu k p).treeSize e .dirty v + 1 = s.treeSize e .dirty v := by
  obtain ⟨-, hu, hl⟩ := hm.mergeable.entry hcpu hk
  rw [State.pulled, trylockTp_eq hu hl]
  exact treeSize_treeErase (List.mem_range.mpr hcpu) hk

end Pulled

/-- What `pullTree` does: nothing if the tree is empty, else its least page goes to the heap. -/
structure Pulls (e : Env C) (v : PvdId) (ix : PageId → Pgoff) (cpu : ℕ) (s : State C) (h : MinHeap)
    (s' : State C) (h' : MinHeap) : Prop where
  merging : Merging e v ix s' h'
  pending_iff (q : PageId) : Pending e v s' h' q ↔ Pending e v s h q
  size_eq : s'.treeSize e .dirty v + h'.size = s.treeSize e .dirty v + h.size
  steps (cb : Cleanup) : s' = (s.pullSteps v cpu).foldl (SyncStep.apply e cb v) s
  node {n : HeapNode} : n ∈ h'.elems → n ∈ h.elems ∨ n.cpu = cpu
  old {n : HeapNode} : n ∈ h.elems → n ∈ h'.elems
  covered : (s'.trees ⟨.dirty, v, cpu⟩).first? ≠ none → ∃ n ∈ h'.elems, n.cpu = cpu
  other {c : ℕ} : c ≠ cpu → s'.trees ⟨.dirty, v, c⟩ = s.trees ⟨.dirty, v, c⟩
  locked {q : PageId} : ¬ Pending e v s h q → (s'.pages q).locked = (s.pages q).locked

lemma Merging.pullTree (hm : Merging e v ix s h) {cpu : ℕ} (hcpu : cpu < e.ncpus)
    (hnot : ∀ n ∈ h.elems, n.cpu ≠ cpu) :
    ∃ s' h', s.pullTree v cpu h = .ok (s', h') ∧ Pulls e v ix cpu s h s' h' := by
  cases hf : (s.trees ⟨.dirty, v, cpu⟩).first? with
  | none =>
    refine ⟨s, h, by simp only [State.pullTree, hf], hm, fun _ => Iff.rfl, rfl, ?_, ?_, ?_, ?_, ?_,
      ?_⟩
    · intro cb
      simp [pullSteps, hf]
    · intro n hn
      exact Or.inl hn
    · intro n hn
      exact hn
    · intro hne
      exact absurd hf hne
    · intro c _
      rfl
    · intro q _
      rfl
  | some kp =>
    obtain ⟨k, p⟩ := kp
    have hk := KeyMap.lookup_of_first? hf
    obtain ⟨hi, hu, hl⟩ := hm.mergeable.entry hcpu hk
    have hsize : ¬ maxCpus ≤ h.size := 
      not_le.mpr (hm.size_lt (mem_busyCpus.mpr ⟨hcpu, by simp [hf]⟩) hnot)
    have helems := BinHeap.elems_insert HeapNode.offset h ⟨cpu, k, p⟩
    have hrun : s.pullTree v cpu h =
        .ok (s.pulled v cpu k p, h.insert HeapNode.offset ⟨cpu, k, p⟩) := by
      have hindex : ((s.modifyPage p fun t => { t with locked := true }).pages p).index = k := by
        simpa [modifyPage] using hi
      simp only [State.pullTree, hf, trylockTp_eq hu hl, minHeapInsert, if_neg hsize, hindex]
      rw [State.pulled, trylockTp_eq hu hl]
    refine ⟨_, _, hrun, hm.pulled hcpu hnot hf, pending_pulled hm hcpu hk, ?_, ?_, ?_, ?_, ?_, ?_,
      ?_⟩
    · have := treeSize_pulled hm hcpu hk
      rw [BinHeap.size_insert]
      omega
    · intro cb
      simp only [pullSteps, hf]
      rfl
    · intro n hn
      rw [helems] at hn
      rcases Multiset.mem_cons.mp hn with rfl | hn
      · exact Or.inr rfl
      · exact Or.inl hn
    · intro n hn
      rw [helems]
      exact Multiset.mem_cons_of_mem hn
    · intro _
      rw [helems]
      exact ⟨_, Multiset.mem_cons_self _ _, rfl⟩
    · intro c hc
      rw [State.pulled, trylockTp_eq hu hl]
      exact Function.update_of_ne (by simp [hc]) _ _
    · intro q hq
      have hqp : q ≠ p := by
        rintro rfl
        exact hq (Or.inr ⟨cpu, hcpu, k, hk⟩)
      rw [(pages_pulled v cpu k hu hl q).2.2, if_neg hqp]

lemma quiet_pullSteps (s : State C) (v : PvdId) (cpu : ℕ) :
    SyncStep.cleanups (s.pullSteps v cpu) = [] ∧ SyncStep.batches (s.pullSteps v cpu) = [] := by
  unfold pullSteps
  split <;> exact ⟨rfl, rfl⟩

/-- The trees that are not empty have a page in the heap. -/
def HeapCovers (v : PvdId) (s : State C) (h : MinHeap) (cpus : List ℕ) : Prop :=
  ∀ cpu ∈ cpus, (s.trees ⟨.dirty, v, cpu⟩).first? ≠ none → ∃ n ∈ h.elems, n.cpu = cpu

lemma Merging.fillHeap (hm : Merging e v ix s h) {cpus done : List ℕ}
    (hlt : ∀ cpu ∈ cpus, cpu < e.ncpus) (hnodup : (done ++ cpus).Nodup)
    (hdone : ∀ n ∈ h.elems, n.cpu ∈ done) (hcov : HeapCovers v s h done) :
    ∃ s' h', State.fillHeap v cpus s h = .ok (s', h') ∧ Merging e v ix s' h' ∧
      HeapCovers v s' h' (done ++ cpus) ∧ (∀ q, Pending e v s' h' q ↔ Pending e v s h q) ∧
      s'.treeSize e .dirty v + h'.size = s.treeSize e .dirty v + h.size ∧
      (∀ cb, s' = (fillSteps v cpus s h).foldl (SyncStep.apply e cb v) s) ∧
      (SyncStep.cleanups (fillSteps v cpus s h) = [] ∧
        SyncStep.batches (fillSteps v cpus s h) = []) ∧
      ∀ q, ¬ Pending e v s h q → (s'.pages q).locked = (s.pages q).locked := by
  induction cpus generalizing s h done with
  | nil =>
    refine ⟨s, h, rfl, hm, by simpa using hcov, fun _ => Iff.rfl, rfl, fun _ => rfl, ⟨rfl, rfl⟩, ?_⟩
    intro q _
    rfl
  | cons cpu cpus ih =>
    have hcpu : cpu ∉ done := by
      intro hmem
      exact (List.nodup_append.mp hnodup).2.2 cpu hmem cpu (by simp) rfl
    obtain ⟨s₁, h₁, hrun, hp⟩ := hm.pullTree (hlt cpu (by simp)) (by
      intro n hn hc
      exact hcpu (hc ▸ hdone n hn))
    have hdone₁ : ∀ n ∈ h₁.elems, n.cpu ∈ done ++ [cpu] := by
      intro n hn
      rcases hp.node hn with hn | hc
      · exact List.mem_append_left _ (hdone n hn)
      · simp [hc]
    have hcov₁ : HeapCovers v s₁ h₁ (done ++ [cpu]) := by
      intro c hc hne
      rcases List.mem_append.mp hc with hc | hc
      · rw [hp.other fun heq => hcpu (heq ▸ hc)] at hne
        obtain ⟨n, hn, hnc⟩ := hcov c hc hne
        exact ⟨n, hp.old hn, hnc⟩
      · obtain rfl := List.mem_singleton.mp hc
        exact hp.covered hne
    obtain ⟨s', h', hrun', hm', hcov', hpend, hsize, hsteps, hquiet, hlock⟩ := ih hp.merging
      (fun c hc => hlt c (List.mem_cons_of_mem _ hc)) (by simpa using hnodup) hdone₁ hcov₁
    refine ⟨s', h', ?_, hm', by simpa using hcov', ?_, hsize.trans hp.size_eq, ?_, ?_, ?_⟩
    · simp only [State.fillHeap, hrun]
      exact hrun'
    · intro q
      rw [hpend, hp.pending_iff]
    · intro cb
      simp only [fillSteps, hrun, List.foldl_append]
      rw [← hp.steps cb]
      exact hsteps cb
    · have hpull := quiet_pullSteps s v cpu
      simp only [fillSteps, hrun, SyncStep.cleanups_append, SyncStep.batches_append, hpull, hquiet]
      exact ⟨rfl, rfl⟩
    · intro q hq
      rw [hlock q (fun hq' => hq ((hp.pending_iff q).mp hq')), hp.locked hq]

/-! ### The main loop -/

/-- The heap without its least page. -/
lemma Merging.deleteMin (hm : Merging e v ix s h) {n : HeapNode} (hz : h.size ≠ 0)
    (hd : minHeapDeleteMin h = (n, h')) : Merging e v ix s h' ∧ ∀ m ∈ h'.elems, m.cpu ≠ n.cpu := by
  have helems := heapPages_deleteMin hz hd
  have hmem : ∀ {m}, m ∈ h'.elems → m ∈ h.elems := by
    intro m hm'
    rw [helems]
    exact Multiset.mem_cons_of_mem hm'
  have hcpus := hm.cpus
  rw [helems, Multiset.map_cons, Multiset.nodup_cons] at hcpus
  have hordered : h'.Ordered HeapNode.offset := by
    have := hm.ordered.deleteMin
    rwa [show h.deleteMin HeapNode.offset = (n, h') from hd] at this
  constructor
  · constructor
    · exact hm.index
    · exact hm.mergeable
    · exact hordered
    · exact fun hn => hm.node (hmem hn)
    · exact hcpus.2
    · exact fun hn hn' => hm.offset_inj (hmem hn) (hmem hn')
    · exact fun hn => hm.fresh (hmem hn)
    · exact fun hn => hm.below (hmem hn)
    · refine (Finset.card_le_card (Finset.union_subset_union_right ?_)).trans hm.room
      rw [helems, Multiset.map_cons, Multiset.toFinset_cons]
      exact Finset.subset_insert _ _
  · intro m hm' hc
    exact hcpus.1 (Multiset.mem_map.mpr ⟨m, hm', hc⟩)

/-- The page that leaves the heap comes before all that are pending. -/
lemma Merging.min_lt (hm : Merging e v ix s h) (hcov : HeapCovers v s h (List.range e.ncpus))
    {n : HeapNode} (hz : h.size ≠ 0) (hd : minHeapDeleteMin h = (n, h')) {q : PageId}
    (hq : Pending e v s h' q) : ix n.p < ix q := by
  have helems := heapPages_deleteMin hz hd
  have hn : n ∈ h.elems := by
    rw [helems]
    exact Multiset.mem_cons_self _ _
  have hmin : ∀ m ∈ h.elems, n.offset ≤ m.offset := by
    intro m hmem
    have := hm.ordered.deleteMin_le hmem
    rwa [show h.deleteMin HeapNode.offset = (n, h') from hd] at this
  rw [← (hm.node hn).2]
  rcases hq with ⟨m, hm', rfl⟩ | ⟨cpu, hcpu, k, hk⟩
  · have hmem : m ∈ h.elems := by
      rw [helems]
      exact Multiset.mem_cons_of_mem hm'
    rw [← (hm.node hmem).2]
    refine lt_of_le_of_ne (hmin m hmem) ?_
    intro heq
    obtain rfl := hm.offset_inj hn hmem heq
    exact (hm.deleteMin hz hd).2 n hm' rfl
  · -- the tree of the page has a page in the heap, which comes before it
    have hne : (s.trees ⟨.dirty, v, cpu⟩).first? ≠ none := by
      intro hnone
      rw [KeyMap.lookup_of_first?_none hnone] at hk
      exact absurd hk (by simp)
    obtain ⟨m, hmem, rfl⟩ := hcov cpu (List.mem_range.mpr hcpu) hne
    rw [← hm.index q, (hm.mergeable.entry hcpu hk).1]
    exact (hmin m hmem).trans_lt (hm.below hmem hk)

/-- What the main loop does from a point where the pages `pgs` wait to be written: the pending pages
are taken in the order `l`. -/
structure Merges (e : Env C) (cb : Cleanup) (v : PvdId) (ix : PageId → Pgoff) (s s' : State C)
    (pgs l : List PageId) (steps : List SyncStep) : Prop where
  state_eq : s' = steps.foldl (SyncStep.apply e cb v) s
  sorted : l.Pairwise fun p q => ix p < ix q
  cleanups_eq : SyncStep.cleanups steps = l
  flatten_eq : (SyncStep.batches steps).flatten = pgs ++ l
  batch {b : List PageId} : b ∈ SyncStep.batches steps → b ≠ [] ∧ b.length ≤ 512
  cleaned : SyncStep.CleanedFirst pgs steps
  empty {cpu : ℕ} : cpu < e.ncpus → (s'.trees ⟨.dirty, v, cpu⟩).size = 0
  unlocked {p : PageId} : p ∈ pgs ++ l → (s'.pages p).locked = false
  locked {p : PageId} : p ∉ pgs ++ l → (s'.pages p).locked = (s.pages p).locked

/-- With an empty heap nothing is pending any more. -/
lemma trees_empty_of_size (hcov : HeapCovers v s h (List.range e.ncpus)) (hz : h.size = 0) :
    (∀ cpu < e.ncpus, (s.trees ⟨.dirty, v, cpu⟩).size = 0) ∧ ∀ q, ¬ Pending e v s h q := by
  have helems : h.elems = 0 := by simp [BinHeap.elems, hz]
  have hnone : ∀ cpu < e.ncpus, (s.trees ⟨.dirty, v, cpu⟩).first? = none := by
    intro cpu hcpu
    by_contra hne
    obtain ⟨n, hn, -⟩ := hcov cpu (List.mem_range.mpr hcpu) hne
    simp [helems] at hn
  refine ⟨fun cpu hcpu => KeyMap.size_eq_zero.mpr (hnone cpu hcpu), ?_⟩
  rintro q (⟨n, hn, -⟩ | ⟨cpu, hcpu, k, hk⟩)
  · simp [helems] at hn
  · rw [KeyMap.lookup_of_first?_none (hnone cpu hcpu)] at hk
    simp at hk

/-- The end of the loop: what waits is written. -/
lemma merges_last (pgs : List PageId) (hlen : pgs.length ≤ 512)
    (hempty : ∀ cpu < e.ncpus, (s.trees ⟨.dirty, v, cpu⟩).size = 0) :
    Merges e cb v ix s (if pgs = [] then s else s.flush e v pgs) pgs []
      (if pgs = [] then [] else [.flush pgs]) := by
  by_cases hp : pgs = []
  · subst hp
    simp only [if_pos]
    exact ⟨rfl, .nil, rfl, rfl, by simp [SyncStep.batches], trivial, hempty _, by simp,
      fun _ => rfl⟩
  · simp only [if_neg hp]
    obtain ⟨ht, hq⟩ := flush_spec e s v pgs
    refine ⟨rfl, .nil, rfl, by simp [SyncStep.batches], ?_, ?_, ?_, ?_, ?_⟩
    · intro b hb
      obtain rfl : b = pgs := by simpa [SyncStep.batches] using hb
      exact ⟨hp, hlen⟩
    · exact ⟨fun p hp => hp, trivial⟩
    · intro cpu hcpu
      rw [ht]
      exact hempty cpu hcpu
    · intro p hp
      rw [(hq p).2.2, if_pos (by simpa using hp)]
    · intro p hp
      rw [(hq p).2.2, if_neg (by simpa using hp)]

/-- An iteration that does not fill the batch. -/
lemma Merges.cons {s₁ s₂ : State C} {pgs l : List PageId} {steps : List SyncStep} {n : HeapNode}
    (hp : Pulls e v ix n.cpu s h s₁ h') (ht : s₂ = pageCleanup cb s₁ n.p)
    (hmerges : Merges e cb v ix s₂ s' (pgs ++ [n.p]) l steps) (hlt : ∀ q ∈ l, ix n.p < ix q)
    (hpend : ∀ q, Pending e v s h q → q ∈ l) :
    Merges e cb v ix s s' pgs (n.p :: l) (s.pullSteps v n.cpu ++ .cleanup n.p :: steps) := by
  have hquiet := quiet_pullSteps s v n.cpu
  have htags := sameTags_pageCleanup cb s₁ n.p
  have happend : pgs ++ n.p :: l = pgs ++ [n.p] ++ l := by simp
  refine ⟨?_, ?_, ?_, ?_, ?_, ?_, hmerges.empty, ?_, ?_⟩
  · rw [List.foldl_append, ← hp.steps cb, List.foldl_cons, hmerges.state_eq, ht]
    rfl
  · exact List.pairwise_cons.mpr ⟨hlt, hmerges.sorted⟩
  · rw [SyncStep.cleanups_append, hquiet.1, ← hmerges.cleanups_eq]
    rfl
  · rw [SyncStep.batches_append, hquiet.2, happend, ← hmerges.flatten_eq]
    rfl
  · intro b hb
    rw [SyncStep.batches_append, hquiet.2] at hb
    exact hmerges.batch hb
  · rw [SyncStep.cleanedFirst_append, hquiet.1, List.append_nil]
    exact ⟨SyncStep.cleanedFirst_of_batches hquiet.2 pgs, hmerges.cleaned⟩
  · intro p hp'
    rw [happend] at hp'
    exact hmerges.unlocked hp'
  · intro p hp'
    rw [happend] at hp'
    have hnot : ¬ Pending e v s h p := fun hpd => hp' (List.mem_append_right _ (hpend p hpd))
    rw [hmerges.locked hp', ht, htags.locked, hp.locked hnot]

/-- An iteration that fills the batch. -/
lemma Merges.flush {s₁ : State C} {pgs l : List PageId} {steps : List SyncStep}
    (hmerges : Merges e cb v ix (s₁.flush e v pgs) s' [] l steps) (hlen : pgs.length = 512)
    (hnot : ∀ p ∈ pgs, p ∉ l) : Merges e cb v ix s₁ s' pgs l (.flush pgs :: steps) := by
  obtain ⟨-, hq⟩ := flush_spec e s₁ v pgs
  refine ⟨hmerges.state_eq, hmerges.sorted, hmerges.cleanups_eq, ?_, ?_, ?_, hmerges.empty, ?_, ?_⟩
  · change pgs ++ (SyncStep.batches steps).flatten = _
    rw [hmerges.flatten_eq, List.nil_append]
  · intro b hb
    rcases List.mem_cons.mp hb with rfl | hb
    · refine ⟨?_, hlen.le⟩
      rintro rfl
      simp at hlen
    · exact hmerges.batch hb
  · exact ⟨fun p hp => hp, hmerges.cleaned.mono (List.nil_subset _)⟩
  · intro p hp
    by_cases hl : p ∈ l
    · exact hmerges.unlocked (by simpa using hl)
    · rw [hmerges.locked (by simpa using hl), (hq p).2.2, if_pos]
      exact (List.mem_append.mp hp).resolve_right hl
  · intro p hp
    obtain ⟨hpgs, hl⟩ : p ∉ pgs ∧ p ∉ l := by simpa using hp
    rw [hmerges.locked (by simpa using hl), (hq p).2.2, if_neg hpgs]

lemma pending_of_trees (ht : s'.trees = s.trees) (q : PageId) :
    Pending e v s' h q ↔ Pending e v s h q := by
  unfold Pending
  rw [ht]

/-- What is pending when a page leaves the heap. -/
lemma pending_deleteMin {n : HeapNode} (hz : h.size ≠ 0) (hd : minHeapDeleteMin h = (n, h'))
    (q : PageId) : Pending e v s h q ↔ q = n.p ∨ Pending e v s h' q := by
  have helems := heapPages_deleteMin hz hd
  unfold Pending
  rw [helems]
  constructor
  · rintro (⟨m, hm, rfl⟩ | htree)
    · rcases Multiset.mem_cons.mp hm with rfl | hm
      · exact Or.inl rfl
      · exact Or.inr (Or.inl ⟨m, hm, rfl⟩)
    · exact Or.inr (Or.inr htree)
  · rintro (rfl | ⟨m, hm, rfl⟩ | htree)
    · exact Or.inl ⟨n, Multiset.mem_cons_self _ _, rfl⟩
    · exact Or.inl ⟨m, Multiset.mem_cons_of_mem hm, rfl⟩
    · exact Or.inr htree

/-- The heap still has a page of every tree after the tree of its least page has been asked. -/
lemma HeapCovers.pulls {h₁ : MinHeap} {n : HeapNode} (hcov : HeapCovers v s h (List.range e.ncpus))
    (hz : h.size ≠ 0) (hd : minHeapDeleteMin h = (n, h₁)) (hp : Pulls e v ix n.cpu s h₁ s' h') :
    HeapCovers v s' h' (List.range e.ncpus) := by
  intro cpu hcpu hne
  by_cases hc : cpu = n.cpu
  · rw [hc] at hne ⊢
    exact hp.covered hne
  · rw [hp.other hc] at hne
    obtain ⟨m, hm, rfl⟩ := hcov cpu hcpu hne
    rw [heapPages_deleteMin hz hd] at hm
    rcases Multiset.mem_cons.mp hm with rfl | hm
    · exact absurd rfl hc
    · exact ⟨m, hp.old hm, rfl⟩

/-- An iteration of the main loop, up to the point where the batch may be full. -/
structure Iterates (e : Env C) (cb : Cleanup) (v : PvdId) (ix : PageId → Pgoff) (n : HeapNode)
    (s : State C) (h₁ : MinHeap) (s₁ : State C) (h₂ : MinHeap) : Prop where
  pulls : Pulls e v ix n.cpu s h₁ s₁ h₂
  merging : Merging e v ix (pageCleanup cb s₁ n.p) h₂
  covers : HeapCovers v (pageCleanup cb s₁ n.p) h₂ (List.range e.ncpus)
  size_eq : (pageCleanup cb s₁ n.p).treeSize e .dirty v + h₂.size =
    s.treeSize e .dirty v + h₁.size
  pending_iff (q : PageId) : Pending e v (pageCleanup cb s₁ n.p) h₂ q ↔ Pending e v s h₁ q

lemma Merging.iterates (cb : Cleanup) (hm : Merging e v ix s h)
    (hcov : HeapCovers v s h (List.range e.ncpus)) {n : HeapNode} {h₁ : MinHeap} (hz : h.size ≠ 0)
    (hd : minHeapDeleteMin h = (n, h₁)) :
    ∃ s₁ h₂, s.pullTree v n.cpu h₁ = .ok (s₁, h₂) ∧ Iterates e cb v ix n s h₁ s₁ h₂ := by
  obtain ⟨hm₁, hnot⟩ := hm.deleteMin hz hd
  have hn : n ∈ h.elems := by
    rw [heapPages_deleteMin hz hd]
    exact Multiset.mem_cons_self _ _
  obtain ⟨s₁, h₂, hrun, hp⟩ := hm₁.pullTree (hm.node hn).1 hnot
  have htags := sameTags_pageCleanup cb s₁ n.p
  refine ⟨s₁, h₂, hrun, hp, hp.merging.sameTags htags, ?_, ?_, ?_⟩
  · have hcov₁ := hcov.pulls hz hd hp
    unfold HeapCovers at hcov₁ ⊢
    rwa [htags.trees]
  · rw [← hp.size_eq]
    simp only [treeSize, htags.trees]
  · intro q
    rw [pending_of_trees htags.trees, hp.pending_iff]

/-- The main loop ends, and merges what is pending. -/
lemma Merging.drain (cb : Cleanup) (hm : Merging e v ix s h)
    (hcov : HeapCovers v s h (List.range e.ncpus)) {fuel : ℕ}
    (hfuel : s.treeSize e .dirty v + h.size < fuel) {pgs : List PageId} (hlen : pgs.length < 512)
    (hpgs : ∀ p ∈ pgs, ¬ Pending e v s h p) :
    ∃ s' l, State.drain e cb v fuel h pgs s = .ok s' ∧ (∀ q, q ∈ l ↔ Pending e v s h q) ∧
      Merges e cb v ix s s' pgs l (drainSteps e cb v fuel h pgs s) ∧
      drainBatches e cb v fuel h pgs s = SyncStep.batches (drainSteps e cb v fuel h pgs s) := by
  induction fuel generalizing s h pgs with
  | zero => exact absurd hfuel (Nat.not_lt_zero _)
  | succ fuel ih =>
    simp only [State.drain, drainSteps, drainBatches]
    by_cases hz : h.size = 0
    · obtain ⟨hempty, hnone⟩ := trees_empty_of_size hcov hz
      simp only [if_pos hz]
      refine ⟨_, [], rfl, fun q => ⟨by simp, fun hq => (hnone q hq).elim⟩,
        merges_last pgs hlen.le hempty, ?_⟩
      split_ifs <;> rfl
    · simp only [if_neg hz]
      rcases hd : minHeapDeleteMin h with ⟨n, h₁⟩
      obtain ⟨s₁, h₂, hrun, hit⟩ := hm.iterates cb hcov hz hd
      have hmin : ∀ q, Pending e v s h₁ q → ix n.p < ix q := fun q hq => hm.min_lt hcov hz hd hq
      have hsize : (pageCleanup cb s₁ n.p).treeSize e .dirty v + h₂.size < fuel := by
        have hle : h₁.size = h.size - 1 := by
          rw [← show (h.deleteMin HeapNode.offset).2 = h₁ from congrArg Prod.snd hd]
          rfl
        have := hit.size_eq
        omega
      have hpgs' : ∀ p ∈ pgs ++ [n.p], ¬ Pending e v s h₁ p := by
        intro p hp' hq
        rcases List.mem_append.mp hp' with hp' | hp'
        · exact hpgs p hp' ((pending_deleteMin hz hd p).mpr (Or.inr hq))
        · rw [List.mem_singleton.mp hp'] at hq
          exact lt_irrefl _ (hmin _ hq)
      simp only [hrun]
      by_cases hfull : (pgs ++ [n.p]).length = 512
      · -- the batch is full and is written
        simp only [if_pos hfull]
        obtain ⟨hft, -⟩ := flush_spec e (pageCleanup cb s₁ n.p) v (pgs ++ [n.p])
        have hcov₂ : HeapCovers v ((pageCleanup cb s₁ n.p).flush e v (pgs ++ [n.p])) h₂
            (List.range e.ncpus) := by
          unfold HeapCovers
          rw [hft]
          exact hit.covers
        have hstart : ([] : List PageId).length < 512 := by simp
        obtain ⟨s', l, hdrain, hl, hmerges, hbatches⟩ := ih (hit.merging.flush (pgs ++ [n.p]))
          hcov₂ (by simpa only [treeSize, hft] using hsize) hstart (by simp)
        have hl' : ∀ q, q ∈ l ↔ Pending e v s h₁ q :=
          fun q => (hl q).trans ((pending_of_trees hft q).trans (hit.pending_iff q))
        refine ⟨s', n.p :: l, hdrain, ?_, ?_, ?_⟩
        · intro q
          rw [pending_deleteMin hz hd, List.mem_cons, hl']
        · apply Merges.cons hit.pulls rfl _ (fun q hq => hmin q ((hl' q).mp hq))
            fun q hq => (hl' q).mpr hq
          exact hmerges.flush hfull fun p hp' hpl => hpgs' p hp' ((hl' p).mp hpl)
        · rw [hbatches, SyncStep.batches_append, (quiet_pullSteps s v n.cpu).2]
          rfl
      · simp only [if_neg hfull]
        have hlen' : (pgs ++ [n.p]).length < 512 := by
          rw [List.length_append, List.length_singleton] at hfull ⊢
          omega
        obtain ⟨s', l, hdrain, hl, hmerges, hbatches⟩ := ih hit.merging hit.covers hsize hlen'
          (fun p hp' hq => hpgs' p hp' ((hit.pending_iff p).mp hq))
        have hl' : ∀ q, q ∈ l ↔ Pending e v s h₁ q := fun q => (hl q).trans (hit.pending_iff q)
        refine ⟨s', n.p :: l, hdrain, ?_, ?_, ?_⟩
        · intro q
          rw [pending_deleteMin hz hd, List.mem_cons, hl']
        · exact Merges.cons hit.pulls rfl hmerges (fun q hq => hmin q ((hl' q).mp hq))
            fun q hq => (hl' q).mpr hq
        · rw [hbatches, SyncStep.batches_append, (quiet_pullSteps s v n.cpu).2]
          rfl

/-! ### The whole call -/

/-- A `write_dirty_pages` that writes the pages of all trees in increasing order. -/
structure SyncMerges (e : Env C) (cb : Cleanup) (v : PvdId) (s s' : State C) : Prop where
  /-- The steps are what the call does. -/
  steps : s' = (s.syncSteps e cb v).foldl (SyncStep.apply e cb v) s
  batches_eq : SyncStep.batches (s.syncSteps e cb v) = s.syncBatches e cb v
  sorted : (s.syncBatches e cb v).flatten.Pairwise fun p q => (s.pages p).index < (s.pages q).index
  mem_iff (p : PageId) : p ∈ (s.syncBatches e cb v).flatten ↔
    ∃ cpu < e.ncpus, ∃ k, (s.trees ⟨.dirty, v, cpu⟩).lookup k = some p
  batch (b : List PageId) : b ∈ s.syncBatches e cb v → b ≠ [] ∧ b.length ≤ 512
  /-- The callback is called once for each page, -/
  cleanups_eq : SyncStep.cleanups (s.syncSteps e cb v) = (s.syncBatches e cb v).flatten
  /-- and before the batch of the page is written. -/
  cleaned (l l' : List SyncStep) (pgs : List PageId) : s.syncSteps e cb v = l ++ .flush pgs :: l' →
    ∀ p ∈ pgs, .cleanup p ∈ l
  empty (cpu : ℕ) : cpu < e.ncpus → (s'.trees ⟨.dirty, v, cpu⟩).size = 0
  unlocked (p : PageId) : p ∈ (s.syncBatches e cb v).flatten → (s'.pages p).locked = false

/-- A call on trees that can be merged and are no more than the heap has room for. -/
lemma Mergeable.writeDirtyPages (hs : s.Mergeable e v) (hfits : (s.busyCpus e v).card ≤ maxCpus)
    (cb : Cleanup) : ∃ s', s.writeDirtyPages e cb v = .ok s' ∧ SyncMerges e cb v s s' := by
  have hm : Merging e v (fun p => (s.pages p).index) s minHeapCreate := by
    have helems : minHeapCreate.elems = 0 := rfl
    refine ⟨fun _ => rfl, hs, ?_, ?_, ?_, ?_, ?_, ?_, ?_⟩
    · intro i _ hi
      exact absurd hi (Nat.not_lt_zero i)
    all_goals simp [helems, hfits]
  have hnone : ∀ n ∈ minHeapCreate.elems, n.cpu ∈ ([] : List ℕ) := by
    simp [minHeapCreate, BinHeap.elems]
  obtain ⟨s₁, h₁, hfill, hm₁, hcov, hpend, hsize, hsteps, ⟨hquiet, hquiet'⟩, -⟩ :=
    hm.fillHeap (fun cpu hcpu => List.mem_range.mp hcpu)
      (show ([] ++ List.range e.ncpus).Nodup from List.nodup_range) hnone (by simp [HeapCovers])
  have hsize' : s₁.treeSize e .dirty v + h₁.size < s.treeSize e .dirty v + 1 := by
    rw [hsize]
    exact Nat.lt_succ_self _
  have hstart : ([] : List PageId).length < 512 := by simp
  obtain ⟨s', l, hdrain, hl, hmerges, hbatches⟩ := hm₁.drain cb hcov hsize' hstart (by simp)
  have hsync : s.syncSteps e cb v = fillSteps v (List.range e.ncpus) s minHeapCreate ++
      drainSteps e cb v (s.treeSize e .dirty v + 1) h₁ [] s₁ := by
    simp only [syncSteps, hfill]
  have hb : SyncStep.batches (s.syncSteps e cb v) = s.syncBatches e cb v := by
    rw [hsync, SyncStep.batches_append, hquiet', List.nil_append, ← hbatches]
    simp only [syncBatches, hfill]
  have hflat : (s.syncBatches e cb v).flatten = l := by
    rw [← hb, hsync, SyncStep.batches_append, hquiet', List.nil_append, hmerges.flatten_eq]
    rfl
  refine ⟨s', by simp only [State.writeDirtyPages, hfill, hdrain], ?_, hb, ?_, ?_, ?_, ?_, ?_, ?_,
    ?_⟩
  · rw [hsync, List.foldl_append, ← hsteps cb]
    exact hmerges.state_eq
  · rw [hflat]
    exact hmerges.sorted
  · intro p
    rw [hflat, hl, hpend]
    simp [Pending, minHeapCreate, BinHeap.elems]
  · intro b hmem
    rw [← hb, hsync, SyncStep.batches_append, hquiet', List.nil_append] at hmem
    exact hmerges.batch hmem
  · rw [hflat, hsync, SyncStep.cleanups_append, hquiet, hmerges.cleanups_eq]
    rfl
  · intro l₁ l₂ pgs heq p hp
    have hcleaned : SyncStep.CleanedFirst [] (s.syncSteps e cb v) := by
      rw [hsync, SyncStep.cleanedFirst_append, hquiet]
      exact ⟨SyncStep.cleanedFirst_of_batches hquiet' [], hmerges.cleaned⟩
    rw [heq] at hcleaned
    exact (hcleaned.mem hp).resolve_left (by simp)
  · intro cpu hcpu
    exact hmerges.empty hcpu
  · intro p hp
    rw [hflat] at hp
    exact hmerges.unlocked hp

lemma card_busyCpus_le (hcpus : e.ncpus ≤ maxCpus) (s : State C) (v : PvdId) :
    (s.busyCpus e v).card ≤ maxCpus := by
  have hle := Finset.card_filter_le (Finset.range e.ncpus)
    fun cpu => (s.trees ⟨.dirty, v, cpu⟩).size ≠ 0
  rw [Finset.card_range] at hle
  exact hle.trans hcpus

/-- With at most `MAX_CPUS` processors, `write_dirty_pages` returns and has merged the trees. -/
theorem writeDirtyPages_merges (e : Env C) (hcpus : e.ncpus ≤ maxCpus) (cb : Cleanup) (v : PvdId)
    (s : State C) (hs : s.Mergeable e v) :
    ∃ s', s.writeDirtyPages e cb v = .ok s' ∧ SyncMerges e cb v s s' :=
  hs.writeDirtyPages (card_busyCpus_le hcpus s v) cb

/-- Four dirty pages of a file in two trees, in the wrong order in memory. -/
def twoDirtyTrees : State ℕ :=
  [(0, 7), (1, 4), (2, 2), (3, 5)].foldl (fun s pi =>
    (s.modifyPage pi.1 fun t => { t with inUse := true, index := pi.2 }).treeInsert
      nodeEnv .dirty 0 pi.2 pi.1) (initParams nodeEnv smallWorld)

lemma mergeable_twoDirtyTrees : twoDirtyTrees.Mergeable nodeEnv 0 := by
  have hentries : (twoDirtyTrees.trees ⟨.dirty, 0, 0⟩).entries = [(2, 2), (4, 1)] ∧
      (twoDirtyTrees.trees ⟨.dirty, 0, 1⟩).entries = [(5, 3), (7, 0)] := by decide +kernel
  have hmod : ∀ {cpu k p}, cpu < nodeEnv.ncpus →
      (twoDirtyTrees.trees ⟨.dirty, 0, cpu⟩).lookup k = some p → k % 2 = cpu ∧
        (twoDirtyTrees.pages p).index = k ∧ (twoDirtyTrees.pages p).inUse = true ∧
        (twoDirtyTrees.pages p).locked = false := by
    intro cpu k p hcpu hk
    have hmem := KeyMap.lookup_eq_some.mp hk
    change cpu < 2 at hcpu
    interval_cases cpu
    · rw [hentries.1] at hmem
      rcases List.mem_pair.mp hmem with h | h <;> obtain ⟨rfl, rfl⟩ := Prod.mk.inj h <;>
        decide +kernel
    · rw [hentries.2] at hmem
      rcases List.mem_pair.mp hmem with h | h <;> obtain ⟨rfl, rfl⟩ := Prod.mk.inj h <;>
        decide +kernel
  constructor
  · intro cpu k p hcpu hk
    exact (hmod hcpu hk).2
  · intro cpu cpu' k p p' hcpu hcpu' hk hk'
    exact (hmod hcpu hk).1.symm.trans (hmod hcpu' hk').1

theorem twoDirtyTrees_merges :
    ∃ s', twoDirtyTrees.writeDirtyPages nodeEnv .fsync 0 = .ok s' ∧
      SyncMerges nodeEnv .fsync 0 twoDirtyTrees s' :=
  writeDirtyPages_merges nodeEnv (by decide) .fsync 0 twoDirtyTrees mergeable_twoDirtyTrees

example : twoDirtyTrees.syncBatches nodeEnv .fsync 0 = [[2, 1, 3, 0]] := by decide +kernel

end State

end FastMap
