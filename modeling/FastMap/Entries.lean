import FastMap.System

/-!
# The entries of the mapped areas

All areas of a descriptor share one `pr_vma_entry`, which counts them and lists the slots of the
pages that they map. This module follows the entries, the slab they come from and the slots
through every sequence of `perma_vma_open`, `perma_vma_close`, `mremap`, faults and reclaim.
-/

namespace FastMap

variable {C : Type*}

namespace State

variable {e : Env C} {s s' s'' : State C} {p : PageId}

/-! ### Calls that add no slots -/

/-- The second state has no slot that the first has not, and every slot it has is still listed. The
areas, the descriptors and the counts are the same. -/
structure FewerSlots (s s' : State C) : Prop where
  vmas : s'.vmas = s.vmas
  infos : s'.infos = s.infos
  refcount (x : PveId) : (s'.pves x).refcount = (s.pves x).refcount
  slot {p : PageId} {j : Fin maxRmapsPerPage} : (s'.pages p).inUse = true →
    ((s'.pages p).rmap j).valid = true → (s.pages p).inUse = true ∧
      (s'.pages p).rmap j = (s.pages p).rmap j ∧
      ∀ x cpu, (p, j) ∈ (s.pves x).pcpuMapped cpu → (p, j) ∈ (s'.pves x).pcpuMapped cpu

namespace FewerSlots

lemma refl (s : State C) : FewerSlots s s :=
  ⟨rfl, rfl, fun _ => rfl, fun hu _ => ⟨hu, rfl, fun _ _ h => h⟩⟩

lemma trans (h : FewerSlots s s') (h' : FewerSlots s' s'') : FewerSlots s s'' where
  vmas := h'.vmas.trans h.vmas
  infos := h'.infos.trans h.infos
  refcount x := (h'.refcount x).trans (h.refcount x)
  slot hu hv := by
    obtain ⟨hu', hr', hl'⟩ := h'.slot hu hv
    rw [hr'] at hv
    obtain ⟨hu'', hr'', hl''⟩ := h.slot hu' hv
    exact ⟨hu'', hr'.trans hr'', fun x cpu hx => hl' x cpu (hl'' x cpu hx)⟩

/-- Nothing of this has changed. -/
lemma of_eq (hp : s'.pages = s.pages) (hx : s'.pves = s.pves) (hv : s'.vmas = s.vmas)
    (hi : s'.infos = s.infos) : FewerSlots s s' :=
  ⟨hv, hi, fun _ => by rw [hx], fun hu _ => by rw [hp, hx]; exact ⟨hp ▸ hu, rfl, fun _ _ h => h⟩⟩

lemma foldl {α : Type*} {f : State C → α → State C} (hf : ∀ s a, FewerSlots s (f s a)) (l : List α)
    (s : State C) : FewerSlots s (l.foldl f s) := by
  induction l generalizing s with
  | nil => exact refl s
  | cons a l ih => exact (hf s a).trans (ih (f s a))

end FewerSlots

/-- Assignment to fields of a page. -/
lemma fewerSlots_of_update {t : TaggedPage C} (hp : s'.pages = Function.update s.pages p t)
    (hx : s'.pves = s.pves) (hv : s'.vmas = s.vmas) (hi : s'.infos = s.infos)
    (ht : ∀ j, t.inUse = true → (t.rmap j).valid = true →
      (s.pages p).inUse = true ∧ t.rmap j = (s.pages p).rmap j) : FewerSlots s s' := by
  refine ⟨hv, hi, fun _ => by rw [hx], fun {q j} hu hj => ?_⟩
  rw [hx]
  by_cases hq : q = p
  · subst hq
    rw [hp, Function.update_self] at hu hj ⊢
    obtain ⟨hu', hr⟩ := ht j hu hj
    exact ⟨hu', hr, fun _ _ h => h⟩
  · rw [hp, Function.update_of_ne hq] at hu hj ⊢
    exact ⟨hu, rfl, fun _ _ h => h⟩

/-- The same, when the page keeps its slots. -/
lemma fewerSlots_of_field {t : TaggedPage C} (hp : s'.pages = Function.update s.pages p t)
    (hx : s'.pves = s.pves) (hv : s'.vmas = s.vmas) (hi : s'.infos = s.infos)
    (hu : t.inUse = (s.pages p).inUse) (hr : t.rmap = (s.pages p).rmap) : FewerSlots s s' :=
  fewerSlots_of_update hp hx hv hi fun j hj _ => ⟨hu ▸ hj, by rw [hr]⟩

lemma fewerSlots_trylockTp (s : State C) (p : PageId) (i : Pgoff) :
    FewerSlots s (s.trylockTp p i).2 := by
  simp only [trylockTp]
  split_ifs
  · exact .refl s
  · exact .refl s
  · exact .refl s
  · exact fewerSlots_of_field (p := p) rfl rfl rfl rfl rfl rfl

lemma fewerSlots_unlockTp (s : State C) (p : PageId) : FewerSlots s (s.unlockTp p) :=
  fewerSlots_of_field (p := p) rfl rfl rfl rfl rfl rfl

lemma fewerSlots_remove (s : State C) (q : Queue) (p : PageId) : FewerSlots s (s.remove q p) :=
  fewerSlots_of_field (p := p) rfl rfl rfl rfl rfl rfl

lemma fewerSlots_enqueue (s : State C) (q : Queue) (p : PageId) :
    FewerSlots s (s.enqueue q p).2 := by
  simp only [enqueue]
  split_ifs
  · exact .of_eq rfl rfl rfl rfl
  · exact fewerSlots_of_field (p := p) rfl rfl rfl rfl rfl rfl

lemma fewerSlots_insertPage (s : State C) (p : PageId) : FewerSlots s (s.insertPage p false) :=
  fewerSlots_enqueue s _ p

lemma fewerSlots_dequeueIf (s : State C) (q : Queue) {cond : State C → PageId → Bool × State C}
    (hc : ∀ s p, FewerSlots s (cond s p).2) : FewerSlots s (s.dequeueIf q cond).2 := by
  simp only [dequeueIf]
  split_ifs
  · exact .refl s
  · split
    · exact .refl s
    · rename_i p _ _
      have h := hc s p
      split
      · rename_i heq
        rw [heq] at h
        exact h.trans (fewerSlots_remove _ q p)
      · rename_i heq
        rw [heq] at h
        exact h.trans (.of_eq rfl rfl rfl rfl)

lemma fewerSlots_deq (s : State C) (p : PageId) : FewerSlots s (s.deq p).2 := by
  simp only [deq]
  split
  · exact .refl s
  · split_ifs
    · exact .refl s
    · exact fewerSlots_trylockTp s p ulongMax

lemma fewerSlots_freePageLock (s : State C) (p : PageId) : FewerSlots s (s.freePageLock p) := by
  have hclear : FewerSlots s (s.freeClear p) :=
    fewerSlots_of_update (p := p) rfl rfl rfl rfl fun j hu _ => absurd hu Bool.false_ne_true
  exact (hclear.trans (fewerSlots_unlockTp _ p)).trans (.of_eq rfl rfl rfl rfl)

/-- A slot becomes invalid and leaves the lists. -/
lemma fewerSlots_removeMapping (s : State C) (p : PageId) (i : Fin maxRmapsPerPage) (r : PrVmaRmap)
    (hr : r.valid = false) : FewerSlots s ((s.setRmap p i r).unlinkRmap p i) := by
  refine ⟨rfl, rfl, fun _ => rfl, fun {q j} hu hv => ?_⟩
  by_cases hq : q = p
  · subst hq
    simp only [unlinkRmap, setRmap, modifyPage, Function.update_self] at hu hv ⊢
    have hj : j ≠ i := by
      rintro rfl
      rw [Function.update_self, hr] at hv
      exact Bool.false_ne_true hv
    refine ⟨hu, Function.update_of_ne hj _ _, fun x cpu hx => ?_⟩
    exact (List.mem_erase_of_ne (by simp [hj])).mpr hx
  · simp only [unlinkRmap, setRmap, modifyPage, Function.update_of_ne hq] at hu hv ⊢
    refine ⟨hu, trivial, fun x cpu hx => ?_⟩
    exact (List.mem_erase_of_ne (by simp [hq])).mpr hx

lemma fewerSlots_zapPage (s : State C) (p : PageId) (r : PrVmaRmap) :
    FewerSlots s (s.zapPage p r) := by
  simp only [zapPage]
  split
  · split_ifs
    · exact .of_eq rfl rfl rfl rfl
    · exact .refl s
  · exact .refl s

lemma fewerSlots_removeMappings (s : State C) (p : PageId) :
    FewerSlots s (s.removeMappings p) := by
  refine FewerSlots.foldl (fun s i => ?_) _ s
  dsimp only
  split_ifs
  · exact (fewerSlots_zapPage s p _).trans (fewerSlots_removeMapping _ p i _ rfl)
  · exact .refl s

lemma fewerSlots_purgeOne (e : Env C) (s : State C) (qid : ℕ) :
    FewerSlots s (s.purgeOne e qid).2 := by
  have h := fewerSlots_dequeueIf s (.clean qid) fewerSlots_deq
  simp only [purgeOne]
  split
  · rename_i heq
    rw [heq] at h
    exact h
  · rename_i p s₁ heq
    rw [heq] at h
    split
    · exact h
    · refine h.trans (FewerSlots.trans ?_ (fewerSlots_removeMappings _ p))
      exact .of_eq rfl rfl rfl rfl

lemma fewerSlots_purgeCollect (e : Env C) (qid n : ℕ) (pgs : List PageId) (s : State C) :
    FewerSlots s (purgeCollect e qid n pgs s).2 := by
  induction n generalizing pgs s with
  | zero => exact .refl s
  | succ n ih =>
    have h := fewerSlots_purgeOne e s qid
    simp only [purgeCollect]
    split
    all_goals
      rename_i heq
      rw [heq] at h
      exact h.trans (ih _ _)

lemma fewerSlots_tryPurgePagesFast (e : Env C) (s : State C) (qid : ℕ) :
    FewerSlots s (s.tryPurgePagesFast e qid) :=
  (fewerSlots_purgeCollect e qid purgeBatch [] s).trans (.foldl fewerSlots_freePageLock _ _)

lemma fewerSlots_allocPageLock (e : Env C) (s : State C) (node : ℕ) (offset : Pgoff) (v : PvdId) :
    FewerSlots s (s.allocPageLock e node offset v).2 := by
  have h : FewerSlots s (s.scanNodes e (e.numaDv node) none).2 :=
    scanNodes_rule .refl (fun h h' => h.trans h')
      (fun _ _ p _ => fewerSlots_of_field (p := p) rfl rfl rfl rfl rfl rfl) e s _ _
  simp only [allocPageLock]
  split
  · rename_i heq
    rw [heq] at h
    exact h
  · rename_i p _ heq
    rw [heq] at h
    exact h.trans (fewerSlots_of_update (p := p) rfl rfl rfl rfl fun j _ hv =>
      absurd hv Bool.false_ne_true)

lemma fewerSlots_dmapDoPageIo (s : State C) (v : PvdId) (i : Pgoff) (p : PageId)
    (r : ReadResult C) : FewerSlots s (s.dmapDoPageIo v i p r) := by
  have hread : ∀ d, FewerSlots s (s.readPage d i p r) := by
    intro d
    cases r <;> exact fewerSlots_of_field (p := p) rfl rfl rfl rfl rfl rfl
  have hfake : FewerSlots s (s.readOrFake v i p r) := by
    simp only [readOrFake]
    split
    · split_ifs
      · exact hread _
      · exact .of_eq rfl rfl rfl rfl
    · exact hread _
  refine FewerSlots.trans ?_ (fewerSlots_of_field (p := p) rfl rfl rfl rfl rfl rfl)
  split_ifs
  · exact .refl s
  · exact hfake

lemma fewerSlots_findPage {v : PvdId} {offset : Pgoff} {as : List Attempt} {b : Bool}
    (hs : findPage e v offset as s = .ok (p, b, s')) : FewerSlots s s' := by
  induction as generalizing s with
  | nil => simp [findPage] at hs
  | cons a as ih =>
    simp only [findPage] at hs
    split at hs
    · have ha := fewerSlots_allocPageLock e s a.node offset v
      split at hs
      · rename_i heq
        rw [heq] at ha
        exact (ha.trans (fewerSlots_tryPurgePagesFast e _ _)).trans (ih hs)
      · rename_i q s₁ heq
        rw [heq] at ha
        have hl := ha.trans (fewerSlots_trylockTp s₁ q ulongMax)
        split at hs
        · rename_i hi
          obtain ⟨-, -, rfl⟩ : _ ∧ _ ∧ _ = s' := by simpa using hs
          obtain ⟨-, rfl⟩ := Prod.mk.inj hi
          exact hl.trans (.of_eq rfl rfl rfl rfl)
        · rename_i hi
          obtain ⟨-, rfl⟩ := Prod.mk.inj hi
          refine (hl.trans (FewerSlots.trans ?_ (fewerSlots_freePageLock _ q))).trans (ih hs)
          exact .of_eq rfl rfl rfl rfl
    · rename_i q _
      have hl := fewerSlots_trylockTp s q ulongMax
      split at hs
      · rename_i heq
        rw [heq] at hl
        obtain ⟨-, -, rfl⟩ : _ ∧ _ ∧ _ = s' := by simpa using hs
        exact hl
      · rename_i heq
        rw [heq] at hl
        exact hl.trans (ih hs)

/-! ### Slots are listed -/

/-- Every valid slot of a page in use belongs to an area of the set `A`, and is on a list of the
entry of the area's descriptor. -/
def Listed (e : Env C) (A : VmaId → Prop) (s : State C) : Prop :=
  ∀ p j, (s.pages p).inUse = true → ((s.pages p).rmap j).valid = true →
    A ((s.pages p).rmap j).vma ∧ ∃ x cpu, cpu < e.ncpus ∧
      (s.infos (s.vmas ((s.pages p).rmap j).vma).info).pve = some x ∧
      (p, j) ∈ (s.pves x).pcpuMapped cpu

variable {A : VmaId → Prop}

lemma Listed.fewer (h : s.Listed e A) (hf : FewerSlots s s') : s'.Listed e A := by
  intro p j hu hv
  obtain ⟨hu', hr, hl⟩ := hf.slot hu hv
  rw [hr] at hv ⊢
  obtain ⟨hA, x, cpu, hcpu, hx, hmem⟩ := h p j hu' hv
  refine ⟨hA, x, cpu, hcpu, ?_, hl x cpu hmem⟩
  rw [hf.infos, hf.vmas]
  exact hx

/-- The new slot of a fault is put on the list of its area's entry. -/
lemma Listed.dmapAddOrUpdateRmap (h : s.Listed e A) {vmf : VmFault} {cpu : ℕ} (hA : A vmf.vma)
    (hcpu : cpu < e.ncpus) (hs : s.dmapAddOrUpdateRmap vmf p cpu = .ok s') : s'.Listed e A := by
  simp only [State.dmapAddOrUpdateRmap] at hs
  split at hs
  · rw [← Except.ok.inj hs]
    exact h
  · split at hs
    · exact absurd hs (by simp)
    · rename_i i _
      split at hs
      · exact absurd hs (by simp)
      · rename_i x hx
        obtain rfl := Except.ok.inj hs
        intro q j hu hv
        by_cases hqj : (q, j) = (p, i)
        · obtain ⟨rfl, rfl⟩ := Prod.mk.inj hqj
          simp only [linkRmap, setRmap, modifyPage, Function.update_self]
          exact ⟨hA, x, cpu, hcpu, hx, by simp⟩
        · have hsame :
              ((s.setRmap p i ⟨true, vmf.vma, vmf.address, cpu⟩).linkRmap x cpu p i).pages q
              = (s.setRmap p i ⟨true, vmf.vma, vmf.address, cpu⟩).pages q := rfl
          have hold : ((s.setRmap p i ⟨true, vmf.vma, vmf.address, cpu⟩).pages q).inUse =
              (s.pages q).inUse ∧
                ((s.setRmap p i ⟨true, vmf.vma, vmf.address, cpu⟩).pages q).rmap j =
              (s.pages q).rmap j := by
            by_cases hq : q = p
            · subst hq
              have hj : j ≠ i := fun hj => hqj (by rw [hj])
              simp [setRmap, modifyPage, hj]
            · simp [setRmap, modifyPage, hq]
          rw [hsame, hold.1] at hu
          rw [hsame, hold.2] at hv ⊢
          obtain ⟨hA', y, c, hc, hy, hmem⟩ := h q j hu hv
          refine ⟨hA', y, c, hc, hy, ?_⟩
          simp only [linkRmap, setRmap, modifyPage]
          by_cases hyx : y = x
          · subst hyx
            by_cases hcc : c = cpu
            · subst hcc
              simpa using Or.inl hmem
            · simpa [hcc] using hmem
          · simpa [hyx] using hmem

lemma fewerSlots_finishFault (s : State C) (vmf : VmFault) (p : PageId) :
    FewerSlots s (s.finishFault vmf p) := by
  refine FewerSlots.trans ?_ (fewerSlots_unlockTp _ p)
  split_ifs
  · exact .of_eq rfl rfl rfl rfl
  · exact .refl s

/-- A fault adds no slots, but for the one of the page it resolves to. -/
lemma fault_slots {vma : VmaId} {i : ℕ} {f : FaultEnv C} (hs : s.fault e vma i f = .ok s') :
    ∃ q t t', FewerSlots s t ∧ t.dmapAddOrUpdateRmap (s.vmFault vma i) q f.cpu = .ok t' ∧
      FewerSlots t' s' := by
  obtain ⟨p, s₁, hg, rfl⟩ : ∃ p s₁, s.permaGetpage e (s.vmFault vma i) f = .ok (p, s₁) ∧
      s₁.finishFault (s.vmFault vma i) p = s' := by
    simp only [State.fault] at hs
    split at hs
    · exact absurd hs (by simp)
    · rename_i p s₁ hg
      exact ⟨p, s₁, hg, Except.ok.inj hs⟩
  -- the page that the loop has found, with or without a read, gets a slot
  have hslot : ∀ {t : State C} {q : PageId}, FewerSlots s t →
      ((t.dmapAddOrUpdateRmap (s.vmFault vma i) q f.cpu).map fun s => (q, s)) = .ok (p, s₁) →
      ∃ q t t', FewerSlots s t ∧ t.dmapAddOrUpdateRmap (s.vmFault vma i) q f.cpu = .ok t' ∧
        FewerSlots t' (s₁.finishFault (s.vmFault vma i) p) := by
    intro t q ht hr
    cases hd : t.dmapAddOrUpdateRmap (s.vmFault vma i) q f.cpu with
    | error x => simp [hd, Except.map] at hr
    | ok t₁ =>
      obtain ⟨-, rfl⟩ : q = p ∧ t₁ = s₁ := by simpa [hd, Except.map] using hr
      exact ⟨q, t, t₁, ht, hd, fewerSlots_finishFault t₁ _ p⟩
  simp only [permaGetpage] at hg
  split at hg
  · exact absurd hg (by simp)
  · split_ifs at hg
    split at hg
    · exact absurd hg (by simp)
    · rename_i q t hfind
      split_ifs at hg
      exact hslot (fewerSlots_findPage hfind) hg
    · rename_i q t hfind
      refine hslot (((fewerSlots_findPage hfind).trans (fewerSlots_insertPage t q)).trans ?_) hg
      exact fewerSlots_dmapDoPageIo _ _ _ _ _

/-- A fault on an area of the set. -/
lemma Listed.fault (h : s.Listed e A) {vma : VmaId} {i : ℕ} {f : FaultEnv C} (hA : A vma)
    (hcpu : f.cpu < e.ncpus) (hs : s.fault e vma i f = .ok s') : s'.Listed e A := by
  obtain ⟨q, t, t', ht, hd, ht'⟩ := fault_slots hs
  exact ((h.fewer ht).dmapAddOrUpdateRmap hA hcpu hd).fewer ht'

/-- A new slot changes neither the areas nor the counts. -/
lemma dmapAddOrUpdateRmap_counts {vmf : VmFault} {cpu : ℕ}
    (hs : s.dmapAddOrUpdateRmap vmf p cpu = .ok s') :
    s'.vmas = s.vmas ∧ s'.infos = s.infos ∧ ∀ x, (s'.pves x).refcount = (s.pves x).refcount := by
  simp only [State.dmapAddOrUpdateRmap] at hs
  split at hs
  · rw [← Except.ok.inj hs]
    exact ⟨rfl, rfl, fun _ => rfl⟩
  · split at hs
    · exact absurd hs (by simp)
    · split at hs
      · exact absurd hs (by simp)
      · rename_i x _
        obtain rfl := Except.ok.inj hs
        refine ⟨rfl, rfl, fun y => ?_⟩
        simp only [linkRmap, setRmap, modifyPage]
        by_cases hy : y = x
        · rw [hy, Function.update_self]
        · rw [Function.update_of_ne hy]

lemma fault_counts {vma : VmaId} {i : ℕ} {f : FaultEnv C} (hs : s.fault e vma i f = .ok s') :
    s'.vmas = s.vmas ∧ s'.infos = s.infos ∧ ∀ x, (s'.pves x).refcount = (s.pves x).refcount := by
  obtain ⟨q, t, t', ht, hd, ht'⟩ := fault_slots hs
  obtain ⟨hv, hi, hr⟩ := dmapAddOrUpdateRmap_counts hd
  refine ⟨?_, ?_, fun x => ?_⟩
  · rw [ht'.vmas, hv, ht.vmas]
  · rw [ht'.infos, hi, ht.infos]
  · rw [ht'.refcount, hr, ht.refcount]

/-- The slots and their lists are the same, and so is the entry of every area of the set. -/
lemma Listed.congr (h : s.Listed e A) (hp : s'.pages = s.pages)
    (hl : ∀ x, (s'.pves x).pcpuMapped = (s.pves x).pcpuMapped)
    (hx : ∀ vma, A vma → (s'.infos (s'.vmas vma).info).pve = (s.infos (s.vmas vma).info).pve) :
    s'.Listed e A := by
  intro p j hu hv
  rw [hp] at hu hv ⊢
  obtain ⟨hA, x, cpu, hcpu, hpve, hmem⟩ := h p j hu hv
  refine ⟨hA, x, cpu, hcpu, ?_, ?_⟩
  · rw [hx _ hA, hpve]
  · rw [hl]
    exact hmem

/-- Another set that has the areas with slots. -/
lemma Listed.restrict {B : VmaId → Prop} (h : s.Listed e A)
    (hB : ∀ p j, (s.pages p).inUse = true → ((s.pages p).rmap j).valid = true →
      A ((s.pages p).rmap j).vma → B ((s.pages p).rmap j).vma) : s.Listed e B := by
  intro p j hu hv
  obtain ⟨hA, hl⟩ := h p j hu hv
  exact ⟨hB p j hu hv hA, hl⟩

/-! ### `__pve_release` -/

lemma fewerSlots_releaseSlot (s : State C) (i : PageId × Fin maxRmapsPerPage) :
    FewerSlots s (s.releaseSlot i) := by
  refine FewerSlots.trans ?_ (fewerSlots_zapPage _ i.1 _)
  refine fewerSlots_of_update (p := i.1) rfl rfl rfl rfl fun j hu hv => ⟨hu, ?_⟩
  have hj : j ≠ i.2 := by
    rintro rfl
    simp at hv
  exact Function.update_of_ne hj _ _

lemma not_valid_releaseSlot (s : State C) (i : PageId × Fin maxRmapsPerPage) :
    (((s.releaseSlot i).pages i.1).rmap i.2).valid = false := by
  have hz : ∀ (t : State C) (r : PrVmaRmap), (t.zapPage i.1 r).pages = t.pages := by
    intro t r
    simp only [zapPage]
    split
    · split_ifs <;> rfl
    · rfl
  simp [releaseSlot, hz, setRmap, modifyPage]

/-- A slot that was on the list is not valid any more. -/
lemma not_mem_of_released {l : List (PageId × Fin maxRmapsPerPage)} {j : Fin maxRmapsPerPage}
    (hu : ((l.foldl releaseSlot s).pages p).inUse = true)
    (hv : (((l.foldl releaseSlot s).pages p).rmap j).valid = true) : (p, j) ∉ l := by
  induction l generalizing s with
  | nil => exact List.not_mem_nil
  | cons i l ih =>
    rw [List.foldl_cons] at hu hv
    rw [List.mem_cons, not_or]
    refine ⟨?_, ih hu hv⟩
    rintro rfl
    -- later iterations leave the slot as it is
    have hrest := (FewerSlots.foldl fewerSlots_releaseSlot l _).slot hu hv
    rw [hrest.2.1, not_valid_releaseSlot] at hv
    exact Bool.false_ne_true hv

/-- The slots of the other entries stay listed. -/
lemma fewerSlots_pveRelease (e : Env C) (s : State C) (x : PveId) :
    FewerSlots s (s.pveRelease e x) := by
  set t := s.modifyPve x fun t =>
    { t with pcpuMapped := fun cpu => if cpu < e.ncpus then [] else t.pcpuMapped cpu } with ht
  set slots := (List.range e.ncpus).flatMap (s.pves x).pcpuMapped with hslots
  have hlast : FewerSlots t (s.pveRelease e x) := .foldl fewerSlots_releaseSlot slots t
  have hcount : ∀ y, (t.pves y).refcount = (s.pves y).refcount := by
    intro y
    by_cases hy : y = x
    · subst hy
      simp [ht, modifyPve]
    · simp [ht, modifyPve, hy]
  refine ⟨hlast.vmas, hlast.infos, fun y => (hlast.refcount y).trans (hcount y), ?_⟩
  intro p j hu hv
  obtain ⟨hu', hr, hl⟩ := hlast.slot hu hv
  refine ⟨hu', hr, fun y cpu hm => hl y cpu ?_⟩
  by_cases hy : y = x
  · subst hy
    have hcpu : ¬ cpu < e.ncpus := by
      intro hcpu
      refine not_mem_of_released (l := slots) (s := t) hu hv ?_
      exact List.mem_flatMap.mpr ⟨cpu, List.mem_range.mpr hcpu, hm⟩
    simpa [ht, modifyPve, hcpu] using hm
  · simpa [ht, modifyPve, hy] using hm

/-- No valid slot is left that was on a list of the entry. -/
lemma not_mem_of_pveRelease {x : PveId} {j : Fin maxRmapsPerPage} {cpu : ℕ}
    (hu : ((s.pveRelease e x).pages p).inUse = true)
    (hv : (((s.pveRelease e x).pages p).rmap j).valid = true) (hcpu : cpu < e.ncpus) :
    (p, j) ∉ (s.pves x).pcpuMapped cpu := by
  intro hm
  have hout := not_mem_of_released hu hv
  exact hout (List.mem_flatMap.mpr ⟨cpu, List.mem_range.mpr hcpu, hm⟩)

end State

end FastMap
