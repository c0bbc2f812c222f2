import FastMap.Accounting
import FastMap.Coherence
import FastMap.RawRelease

/-!
# Room in the arrays

Two arrays of the driver are written without a check of the index: the `rmap` array of a page, which
has a slot for each area that maps the page, and the array of the heap in `write_dirty_pages`, which
has an element for each dirty tree. `Fits` says that a call finds room in both, and a call that fits
is never stopped at one of them.
-/

namespace FastMap

variable {C : Type*}

/-- The outcomes that stand for a write outside an array. -/
def Overruns {α : Type*} (r : Except Halt α) : Prop :=
  r = .error .rmapOverflow ∨ r = .error .heapOverflow

lemma overruns_map {α β : Type*} {r : Except Halt α} {g : α → β} (h : Overruns (r.map g)) :
    Overruns r := by
  cases r with
  | error x =>
    rcases h with h | h
    · exact Or.inl (by rw [Except.error.inj h])
    · exact Or.inr (by rw [Except.error.inj h])
  | ok a => simp [Overruns, Except.map] at h

@[simp] lemma not_overruns_ok {α : Type*} (a : α) : ¬ Overruns (.ok a : Except Halt α) := by
  simp [Overruns]

lemma not_overruns_error {α : Type*} {x : Halt} (hr : x ≠ .rmapOverflow) (hh : x ≠ .heapOverflow) :
    ¬ Overruns (.error x : Except Halt α) := by
  simp [Overruns, hr, hh]

namespace State

variable {e : Env C} {s s' : State C} {p : PageId} {v : PvdId} {vma : VmaId} {i : ℕ}

/-- A slot of the page is free or has the area: with it, no more than `MAX_RMAPS_PER_PAGE` areas map
the page. -/
def HasSlot (s : State C) (vma : VmaId) (p : PageId) : Prop :=
  ∃ j, ((s.pages p).rmap j).valid = true → ((s.pages p).rmap j).vma = vma

/-- The page that has the block of the fault, if there is one, has a slot for the area. -/
def FaultFits (s : State C) (vma : VmaId) (i : ℕ) : Prop :=
  ∀ v p, s.vmaPvd vma = some v → (s.pages p).Caches v (s.vmFault vma i).pgoff → s.HasSlot vma p

/-- No more than `MAX_CPUS` dirty trees of the pvd have pages. -/
def SyncFits (e : Env C) (s : State C) (v : PvdId) : Prop := (s.busyCpus e v).card ≤ maxCpus

/-- The call finds room in the arrays that it writes. -/
def Fits (e : Env C) (s : State C) : Op C → Prop
  | .fault vma i _ => s.FaultFits vma i
  | .writeDirty _ v => s.SyncFits e v
  | .rawRelease v => s.SyncFits e v
  | _ => True

/-! ### The slots of a page -/

lemma hasSlot_iff :
    s.HasSlot vma p ↔ findRmap (s.pages p) vma ≠ none ∨ freeEntry (s.pages p) ≠ none := by
  have hfind : findRmap (s.pages p) vma ≠ none ↔
      ∃ j, ((s.pages p).rmap j).valid = true ∧ ((s.pages p).rmap j).vma = vma := by
    rw [findRmap, Ne, List.find?_eq_none]
    simp
  have hfree : freeEntry (s.pages p) ≠ none ↔ ∃ j, ((s.pages p).rmap j).valid = false := by
    rw [freeEntry, Ne, List.getLast?_eq_none_iff, List.filter_eq_nil_iff]
    simp
  rw [hfind, hfree]
  constructor
  · rintro ⟨j, hj⟩
    cases hv : ((s.pages p).rmap j).valid with
    | true => exact Or.inl ⟨j, hv, hj hv⟩
    | false => exact Or.inr ⟨j, hv⟩
  · rintro (⟨j, -, hj⟩ | ⟨j, hv⟩)
    · exact ⟨j, fun _ => hj⟩
    · exact ⟨j, fun h => absurd (hv.symm.trans h) Bool.false_ne_true⟩

/-- What `dmap_add_or_update_rmap` needs is a slot of the area, or a free one and the `pve`. -/
lemma dmapAddOrUpdateRmap_eq_error {vmf : VmFault} {x : Halt} (cpu : ℕ) :
    s.dmapAddOrUpdateRmap vmf p cpu = .error x ↔ findRmap (s.pages p) vmf.vma = none ∧
      (freeEntry (s.pages p) = none ∧ x = .rmapOverflow ∨
        freeEntry (s.pages p) ≠ none ∧ (s.infos (s.vmas vmf.vma).info).pve = none ∧
          x = .nullDeref) := by
  unfold dmapAddOrUpdateRmap
  cases findRmap (s.pages p) vmf.vma with
  | some j => simp
  | none =>
    cases freeEntry (s.pages p) with
    | none => simp [eq_comm]
    | some i =>
      cases (s.infos (s.vmas vmf.vma).info).pve with
      | none => simp [eq_comm]
      | some y => simp

/-- Index `-1` is written exactly when all slots have other areas. -/
lemma dmapAddOrUpdateRmap_overflow_iff {vmf : VmFault} {cpu : ℕ} :
    s.dmapAddOrUpdateRmap vmf p cpu = .error .rmapOverflow ↔ ¬ s.HasSlot vmf.vma p := by
  rw [dmapAddOrUpdateRmap_eq_error, hasSlot_iff]
  simp [not_or]

lemma hasSlot_congr (h : (s'.pages p).rmap = (s.pages p).rmap) :
    s'.HasSlot vma p ↔ s.HasSlot vma p := by
  unfold HasSlot
  rw [h]

/-- Reading a page does not change its slots. -/
lemma rmap_loaded (s : State C) (v : PvdId) (off : Pgoff) (p : PageId) (r : ReadResult C) :
    (((s.insertPage p false).dmapDoPageIo v off p r).pages p).rmap = (s.pages p).rmap := by
  have hins : ((s.insertPage p false).pages p).rmap = (s.pages p).rmap := by
    simp only [insertPage, Bool.false_eq_true, if_false, enqueue]
    split_ifs
    · rfl
    · simp [modifyQueue, setBufferId, modifyPage]
  have hread : ∀ (t : State C) d, ((t.readPage d off p r).pages p).rmap = (t.pages p).rmap := by
    intro t d
    simp [readPage, setContent, modifyPage]
  have hfake : ∀ t : State C, ((t.readOrFake v off p r).pages p).rmap = (t.pages p).rmap := by
    intro t
    simp only [readOrFake]
    split
    · split_ifs
      · exact hread t _
      · rfl
    · exact hread t _
  have hvalid : ∀ t : State C,
      ((t.modifyPage p fun t => { t with pageValid := true }).pages p).rmap = (t.pages p).rmap := by
    intro t
    simp [modifyPage]
  rw [← hins, dmapDoPageIo, hvalid]
  split_ifs
  · rfl
  · exact hfake _

/-- A page that a fault has found in the radix tree is the cached page of its block. -/
lemma Recycles.caches {s₀ : State C} {off : Pgoff} (hr : Recycles e s s₀)
    (hres : Resident e p (s₀.view e p)) (hv : (s₀.pages p).pvd = some v)
    (hi : (s₀.pages p).index = off) :
    s₀.view e p = s.view e p ∧ (s.pages p).Caches v off := by
  have hview : s₀.view e p = s.view e p := by
    apply (hr.view_cases p).resolve_right
    intro hrec
    exact Bool.false_ne_true (hrec.idle.inUse.symm.trans hres.inUse)
  have hpage : s₀.pages p = s.pages p := by rw [← view_page e s₀, hview, view_page]
  exact ⟨hview, hpage ▸ hres.inUse, hpage ▸ hv, hpage ▸ hi⟩

/-- A fault that finds no slot is one on a cached page that has none. -/
lemma Inv.not_fits_of_fault (h : s.Inv e) {f : FaultEnv C}
    (hs : s.fault e vma i f = .error .rmapOverflow) : ¬ s.FaultFits vma i := by
  intro hfits
  simp only [State.fault] at hs
  set vmf := s.vmFault vma i with hvmf
  split at hs
  · rename_i x hx
    obtain rfl : x = .rmapOverflow := by simpa using hs
    simp only [permaGetpage] at hx
    split at hx
    · simp at hx
    · rename_i v hv
      split_ifs at hx
      · simp at hx
      · simp at hx
      · split at hx
        · rename_i y hy
          obtain rfl : y = .rmapOverflow := by simpa using hx
          exact absurd (findPage_error hy) (by simp)
        · rename_i q s₁ hf
          split_ifs at hx
          · obtain ⟨-, s₀, hrec, hcase⟩ := h.findPage hf
            obtain ⟨-, hres, -, hpv, hpi, hm⟩ := hcase.resolve_right (by simp)
            obtain ⟨hview, hc⟩ := hrec.caches hres hpv hpi
            have hslots : (s₁.pages q).rmap = (s.pages q).rmap := by
              rw [← view_page e s₁, hm.view_self, ← view_page e s, ← hview, view_page]
            have hslot := (hasSlot_congr hslots).mpr (hfits v q hv hc)
            exact dmapAddOrUpdateRmap_overflow_iff.mp (map_rmap_error hx) hslot
          · simp at hx
        · rename_i q s₁ hf
          obtain ⟨-, s₀, -, hcase⟩ := h.findPage hf
          obtain ⟨-, -, -, hres⟩ := hcase.resolve_left (by simp)
          -- a page that has just been handed out has no valid slot
          have hslots : (s₁.pages q).rmap = fun _ => .reset := by
            rw [← view_page e s₁, hres.view_self]
            rfl
          refine dmapAddOrUpdateRmap_overflow_iff.mp (map_rmap_error hx) ⟨⟨0, by decide⟩, ?_⟩
          rw [rmap_loaded, hslots]
          intro hvalid
          exact absurd hvalid Bool.false_ne_true
  · simp at hs

/-- A write fault records nothing. -/
lemma mkwrite_error {x : Halt} (h : s.mkwrite e vma i = .error x) :
    x ≠ .rmapOverflow ∧ x ≠ .heapOverflow := by
  simp only [State.mkwrite] at h
  split at h
  · obtain rfl : .notIssued = x := by simpa using h
    simp
  · split at h
    · rename_i y hy
      obtain rfl : y = x := by simpa using h
      simp only [permaPageMkwrite] at hy
      split at hy
      · obtain rfl : .nullDeref = y := by simpa using hy
        simp
      · split at hy
        · simp only [dmapDoTaggedPageWritable] at hy
          split_ifs at hy
          · simp [Except.map] at hy
          · obtain rfl : .bug = y := by simpa [Except.map] using hy
            simp
          · simp [Except.map] at hy
        · obtain rfl : .spin = y := by simpa using hy
          simp
        · simp at hy
    all_goals simp at h

/-! ### The heap -/

/-- Between calls a write-back that fits returns. -/
lemma Quiet.writeDirtyPages_ok (h : s.Quiet e) (hfits : s.SyncFits e v) (cb : Cleanup) :
    ∃ s', s.writeDirtyPages e cb v = .ok s' := by
  obtain ⟨s', hs, -⟩ := (h.mergeable v).writeDirtyPages hfits cb
  exact ⟨s', hs⟩

/-- A call that fits does not end at one of the arrays. -/
theorem Quiet.not_overruns (h : s.Quiet e) {op : Op C} (hfits : s.Fits e op) :
    ¬ Overruns (s.exec e op) := by
  cases op with
  | fault vma i f =>
    rintro (hs | hs)
    · exact h.inv.not_fits_of_fault hs hfits
    · exact (fault_error hs).2 rfl
  | mkwrite vma i =>
    rintro (hs | hs)
    · exact (mkwrite_error hs).1 rfl
    · exact (mkwrite_error hs).2 rfl
  | store vma i f =>
    simp only [exec, State.store]
    split <;> simp [Overruns]
  | evictor id held => exact not_overruns_ok _
  | purge qid => exact not_overruns_ok _
  | writeDirty cb v =>
    obtain ⟨s', hs⟩ := h.writeDirtyPages_ok hfits cb
    simp [exec, hs]
  | rawRelease v =>
    obtain ⟨s', hs⟩ := h.rawRelease_ok hfits
    simp [exec, hs]

/-! ### A test -/

/-- A test of the condition on a machine with at most `MAX_CPUS` processors. -/
def fits (e : Env C) (s : State C) : Op C → Bool
  | .fault vma i _ => (List.range e.numPages).all fun p =>
      !(s.pages p).inUse || (s.pages p).index != (s.vmFault vma i).pgoff ||
        (findRmap (s.pages p) vma).isSome || (freeEntry (s.pages p)).isSome
  | _ => true

lemma syncFits_of_ncpus (hcpus : e.ncpus ≤ maxCpus) : s.SyncFits e v := card_busyCpus_le hcpus s v

lemma Quiet.fits (h : s.Quiet e) (hcpus : e.ncpus ≤ maxCpus) {op : Op C}
    (hop : s.fits e op = true) : s.Fits e op := by
  cases op with
  | fault vma i f =>
    rintro v p - ⟨hu, -, hi⟩
    have hlt : p < e.numPages :=
      ((h.page p).phase.resolve_left fun hidle =>
        Bool.false_ne_true (hidle.inUse.symm.trans hu)).lt
    have hp := List.all_eq_true.mp hop p (List.mem_range.mpr hlt)
    rw [hasSlot_iff, ← Option.isSome_iff_ne_none, ← Option.isSome_iff_ne_none]
    simpa [hu, hi] using hp
  | writeDirty cb v => exact syncFits_of_ncpus hcpus
  | rawRelease v => exact syncFits_of_ncpus hcpus
  | _ => trivial

end State

end FastMap
