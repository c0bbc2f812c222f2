import FastMap.System

/-!
# Batched TLB flushes

`evictor_thread` and `try_purge_pages_fast` change the page table entries of a batch of pages and
flush the TLB once for each owner: a mapped area in `clear_mappings`, an address space in
`remove_mappings`. The table of the flushes keeps a range of addresses for every owner. An address
extends the range by a comparison the wrong way: `start` is the greatest address seen and `end` the
least one, so the range of an owner is empty as soon as it has two addresses.
-/

namespace FastMap

/-! ### The table of flushes -/

def etlbEntries : ℕ := 16

/-- `struct evictor_tlb`; the owner is the union of `vma` and `vm_mm`, and `stop` is `end`. -/
structure EvictorTlb (O : Type*) where
  owner : Option O
  start : ℕ
  stop : ℕ
  deriving DecidableEq, Repr

/-- The array `etlb` of a batch. -/
abbrev Etlb (O : Type*) := Fin etlbEntries → EvictorTlb O

/-- A `struct mm_struct *`. -/
abbrev MmId := ℕ

/-- An address of an owner that has an entry already. -/
def EvictorTlb.update {O : Type*} (x : EvictorTlb O) (vaddr : ℕ) : EvictorTlb O :=
  { x with
    start := if x.start < vaddr then vaddr else x.start
    stop := if vaddr < x.stop then vaddr else x.stop }

namespace Etlb

variable {O : Type*}

/-- The table at the start of a batch; `end` is `UINT_MAX`. -/
def reset : Etlb O := fun _ => ⟨none, 0, 2 ^ 32 - 1⟩

variable [DecidableEq O]

/-- The loop over the table for one mapping. With no entry for the owner and none empty, the code
writes `etlb[-1]`. -/
def note (t : Etlb O) (o : O) (vaddr : ℕ) : Option (Etlb O) :=
  match (List.finRange etlbEntries).find? fun k => (t k).owner = some o with
  | some k => some (Function.update t k ((t k).update vaddr))
  | none =>
    match (List.finRange etlbEntries).find? fun k => (t k).owner = none with
    | some k => some (Function.update t k ⟨some o, vaddr, vaddr⟩)
    | none => none

/-- `flush_tlb_mm_range(owner, start, end + PAGE_SIZE)` of some entry covers the address. -/
def Covers (t : Etlb O) (o : O) (vaddr : ℕ) : Prop :=
  ∃ k, (t k).owner = some o ∧ (t k).start ≤ vaddr ∧ vaddr < (t k).stop + pageSize

instance (t : Etlb O) (o : O) (vaddr : ℕ) : Decidable (t.Covers o vaddr) :=
  inferInstanceAs (Decidable (∃ _, _))

/-- The table of a set of mappings: each owner has one entry, from its greatest address to its
least one. -/
structure Notes (t : Etlb O) (N : O → ℕ → Prop) : Prop where
  unique {j k : Fin etlbEntries} {o : O} :
    (t j).owner = some o → (t k).owner = some o → j = k
  exists_entry {o : O} {a : ℕ} :
    N o a → ∃ k, (t k).owner = some o ∧ a ≤ (t k).start ∧ (t k).stop ≤ a
  start_mem {k : Fin etlbEntries} {o : O} : (t k).owner = some o → N o (t k).start
  stop_mem {k : Fin etlbEntries} {o : O} : (t k).owner = some o → N o (t k).stop

variable {t : Etlb O} {N : O → ℕ → Prop} {o : O} {a : ℕ}

omit [DecidableEq O] in
lemma notes_reset : Notes (reset : Etlb O) fun _ _ => False where
  unique h := by simp [reset] at h
  exists_entry h := h.elim
  start_mem h := by simp [reset] at h
  stop_mem h := by simp [reset] at h

omit [DecidableEq O] in
lemma Notes.congr {N' : O → ℕ → Prop} (h : Notes t N) (hN : ∀ o a, N o a ↔ N' o a) :
    Notes t N' := by
  have : N = N' := by
    funext o a
    exact propext (hN o a)
  rwa [← this]

omit [DecidableEq O] in
/-- The entry of an owner takes an address. -/
lemma Notes.update (h : Notes t N) {k : Fin etlbEntries} (hk : (t k).owner = some o) :
    Notes (Function.update t k ((t k).update a)) fun o' a' => N o' a' ∨ (o' = o ∧ a' = a) := by
  have howner : ∀ j, (Function.update t k ((t k).update a) j).owner = (t j).owner := by
    intro j
    by_cases hj : j = k
    · subst hj
      simp [EvictorTlb.update]
    · simp [hj]
  constructor
  · intro j l o' hj hl
    rw [howner] at hj hl
    exact h.unique hj hl
  · intro o' a' hN
    by_cases ho : o' = o
    · subst ho
      refine ⟨k, by rw [howner, hk], ?_⟩
      rcases hN with hN | ⟨-, rfl⟩
      · obtain ⟨j, hj, hstart, hstop⟩ := h.exists_entry hN
        obtain rfl := h.unique hj hk
        simp only [Function.update_self, EvictorTlb.update]
        split_ifs <;> omega
      · simp only [Function.update_self, EvictorTlb.update]
        split_ifs <;> omega
    · obtain hN | ⟨rfl, -⟩ := hN
      · obtain ⟨j, hj, hle⟩ := h.exists_entry hN
        have hjk : j ≠ k := by
          rintro rfl
          rw [hk] at hj
          exact ho (Option.some.inj hj).symm
        exact ⟨j, by rw [howner, hj], by simpa [hjk] using hle⟩
      · exact absurd rfl ho
  · intro j o' hj
    rw [howner] at hj
    by_cases hjk : j = k
    · subst hjk
      obtain rfl := Option.some.inj (hj.symm.trans hk)
      simp only [Function.update_self, EvictorTlb.update]
      split_ifs
      · exact Or.inr ⟨trivial, rfl⟩
      · exact Or.inl (h.start_mem hk)
    · simpa [hjk] using Or.inl (h.start_mem hj)
  · intro j o' hj
    rw [howner] at hj
    by_cases hjk : j = k
    · subst hjk
      obtain rfl := Option.some.inj (hj.symm.trans hk)
      simp only [Function.update_self, EvictorTlb.update]
      split_ifs
      · exact Or.inr ⟨trivial, rfl⟩
      · exact Or.inl (h.stop_mem hk)
    · simpa [hjk] using Or.inl (h.stop_mem hj)

omit [DecidableEq O] in
/-- An empty entry goes to an owner that has none. -/
lemma Notes.insert (h : Notes t N) {k : Fin etlbEntries} (hk : (t k).owner = none)
    (ho : ∀ j, (t j).owner ≠ some o) :
    Notes (Function.update t k ⟨some o, a, a⟩) fun o' a' => N o' a' ∨ (o' = o ∧ a' = a) := by
  constructor
  · intro j l o' hj hl
    by_cases hjk : j = k <;> by_cases hlk : l = k
    · rw [hjk, hlk]
    · subst hjk
      simp only [Function.update_self, Function.update_of_ne hlk, Option.some.injEq] at hj hl
      exact absurd (hj ▸ hl) (ho l)
    · subst hlk
      simp only [Function.update_self, Function.update_of_ne hjk, Option.some.injEq] at hj hl
      exact absurd (hl ▸ hj) (ho j)
    · rw [Function.update_of_ne hjk] at hj
      rw [Function.update_of_ne hlk] at hl
      exact h.unique hj hl
  · rintro o' a' (hN | ⟨rfl, rfl⟩)
    · obtain ⟨j, hj, hle⟩ := h.exists_entry hN
      have hjk : j ≠ k := by
        rintro rfl
        simp [hk] at hj
      exact ⟨j, by simpa [hjk] using hj, by simpa [hjk] using hle⟩
    · exact ⟨k, by simp⟩
  · intro j o' hj
    by_cases hjk : j = k
    · subst hjk
      simp only [Function.update_self, Option.some.injEq] at hj ⊢
      exact Or.inr ⟨hj.symm, trivial⟩
    · rw [Function.update_of_ne hjk] at hj ⊢
      exact Or.inl (h.start_mem hj)
  · intro j o' hj
    by_cases hjk : j = k
    · subst hjk
      simp only [Function.update_self, Option.some.injEq] at hj ⊢
      exact Or.inr ⟨hj.symm, trivial⟩
    · rw [Function.update_of_ne hjk] at hj ⊢
      exact Or.inl (h.stop_mem hj)

/-- A table with an entry for every one of at most `ETLB_ENTRIES - 1` owners has an empty one. -/
lemma Notes.exists_empty (h : Notes t N) {T : Finset O} (hT : T.card ≤ etlbEntries)
    (hN : ∀ o a, N o a → o ∈ T) (hmem : o ∈ T) (ho : ∀ j, (t j).owner ≠ some o) :
    ∃ k, (t k).owner = none := by
  by_contra hfull
  have howned : ∀ k, ∃ o', (t k).owner = some o' := by
    intro k
    apply Option.ne_none_iff_exists'.mp
    exact fun hk => hfull ⟨k, hk⟩
  choose f hf using howned
  have hinj : Function.Injective f := by
    intro j k hjk
    apply h.unique (hf j)
    rw [hf k, hjk]
  have hsub : Finset.univ.image f ⊆ T.erase o := by
    intro o' ho'
    obtain ⟨k, -, rfl⟩ := Finset.mem_image.mp ho'
    refine Finset.mem_erase.mpr ⟨?_, hN _ _ (h.start_mem (hf k))⟩
    rintro rfl
    exact ho k (hf k)
  have hcard := Finset.card_le_card hsub
  rw [Finset.card_image_of_injective _ hinj, Finset.card_erase_of_mem hmem, Finset.card_univ,
    Fintype.card_fin] at hcard
  simp only [etlbEntries] at hT hcard
  omega

/-- With at most `ETLB_ENTRIES` owners, every mapping finds its entry. -/
lemma Notes.note (h : Notes t N) {T : Finset O} (hT : T.card ≤ etlbEntries)
    (hN : ∀ o a, N o a → o ∈ T) (hmem : o ∈ T) :
    ∃ t', t.note o a = some t' ∧ Notes t' fun o' a' => N o' a' ∨ (o' = o ∧ a' = a) := by
  cases hk : (List.finRange etlbEntries).find? fun k => (t k).owner = some o with
  | some k =>
    refine ⟨Function.update t k ((t k).update a), by simp only [Etlb.note, hk], h.update ?_⟩
    simpa using List.find?_some hk
  | none =>
    have ho : ∀ j, (t j).owner ≠ some o := by
      simpa [List.find?_eq_none] using hk
    cases hj : (List.finRange etlbEntries).find? fun k => (t k).owner = none with
    | some j =>
      refine ⟨Function.update t j ⟨some o, a, a⟩, by simp only [Etlb.note, hk, hj], h.insert ?_ ho⟩
      simpa using List.find?_some hj
    | none =>
      obtain ⟨j, hempty⟩ := h.exists_empty hT hN hmem ho
      have hused : ∀ j, (t j).owner ≠ none := by
        simpa [List.find?_eq_none] using hj
      exact absurd hempty (hused j)

omit [DecidableEq O] in
/-- The flushes cover all mappings exactly when every owner has only one address. -/
lemma Notes.covers_iff (h : Notes t N) :
    (∀ o a, N o a → t.Covers o a) ↔ ∀ o a a', N o a → N o a' → a = a' := by
  constructor
  · -- an address that is covered is not below the greatest one, hence equal to it
    intro hc
    have hstart : ∀ o a k, (t k).owner = some o → N o a → a = (t k).start := by
      intro o a k hk hN
      obtain ⟨j, hj, hle, -⟩ := hc o a hN
      obtain ⟨l, hl, hge, -⟩ := h.exists_entry hN
      obtain rfl := h.unique hj hk
      obtain rfl := h.unique hl hj
      exact le_antisymm hge hle
    intro o a a' ha ha'
    obtain ⟨k, hk, -⟩ := h.exists_entry ha
    rw [hstart o a k hk ha, hstart o a' k hk ha']
  · intro hone o a hN
    obtain ⟨k, hk, -⟩ := h.exists_entry hN
    refine ⟨k, hk, ?_, ?_⟩
    · exact (hone o _ _ (h.start_mem hk) hN).le
    · have := hone o _ _ hN (h.stop_mem hk)
      simp only [pageSize]
      omega

end Etlb

/-! ### The two walks over the mappings of a page -/

variable {C : Type*}

namespace State

/-- A slot of a page with a table of flushes; `change` is what is done to a valid one, and `own`
gives the owner of its area. -/
def walkSlot (change : State C → Fin maxRmapsPerPage → PrVmaRmap → State C) (own : VmaId → ℕ)
    (p : PageId) (x : State C × Etlb ℕ) (i : Fin maxRmapsPerPage) : Option (State C × Etlb ℕ) :=
  let r := (x.1.pages p).rmap i
  if r.valid then (x.2.note (own r.vma) r.vaddr).map fun t => (change x.1 i r, t) else some x

/-- The loop over the slots of a page. -/
def walkRmaps (change : State C → Fin maxRmapsPerPage → PrVmaRmap → State C) (own : VmaId → ℕ)
    (p : PageId) (x : State C × Etlb ℕ) : Option (State C × Etlb ℕ) :=
  (List.finRange maxRmapsPerPage).foldlM (walkSlot change own p) x

/-- `clear_mappings` with `etlb != NULL`; the owners are areas. -/
def clearMappingsEtlb (p : PageId) : State C × Etlb VmaId → Option (State C × Etlb VmaId) :=
  walkRmaps (fun s _ r => s.wrprotect p r) id p

/-- `remove_mappings` with `etlb != NULL`; the owners are address spaces. -/
def removeMappingsEtlb (vmMm : VmaId → MmId) (p : PageId) :
    State C × Etlb MmId → Option (State C × Etlb MmId) :=
  walkRmaps (fun s i r => ((s.zapPage p r).setRmap p i { r with valid := false }).unlinkRmap p i)
    vmMm p

end State

/-- The two passes over a batch that end in a flush. -/
inductive FlushPass where
  /-- `evictor_thread` -/
  | clear
  /-- `try_purge_pages_fast` -/
  | remove
  deriving DecidableEq, Repr

namespace FlushPass

def owner (vmMm : VmaId → MmId) : FlushPass → VmaId → ℕ
  | clear => id
  | remove => vmMm

def page (vmMm : VmaId → MmId) : FlushPass → PageId → State C × Etlb ℕ → Option (State C × Etlb ℕ)
  | clear => State.clearMappingsEtlb
  | remove => State.removeMappingsEtlb vmMm

/-- What a pass does to the mappings of a page, without the table. -/
def change (pass : FlushPass) (s : State C) (p : PageId) : State C :=
  match pass with
  | clear => s.clearMappings p
  | remove => s.removeMappings p

/-- The pass over the pages of a batch. -/
def batch (vmMm : VmaId → MmId) (pass : FlushPass) (ps : List PageId) (x : State C × Etlb ℕ) :
    Option (State C × Etlb ℕ) :=
  ps.foldlM (fun x p => pass.page vmMm p x) x

end FlushPass

namespace State

/-- The valid reverse mappings of a batch of pages. -/
def validRmaps (s : State C) (ps : List PageId) : List PrVmaRmap :=
  (ps.flatMap fun p => (List.finRange maxRmapsPerPage).map (s.pages p).rmap).filter (·.valid)

lemma mem_validRmaps {s : State C} {ps : List PageId} {r : PrVmaRmap} :
    r ∈ s.validRmaps ps ↔ (∃ p ∈ ps, ∃ i, (s.pages p).rmap i = r) ∧ r.valid = true := by
  simp [validRmaps]

/-- The slot without the table. -/
def changeSlot (change : State C → Fin maxRmapsPerPage → PrVmaRmap → State C) (p : PageId)
    (s : State C) (i : Fin maxRmapsPerPage) : State C :=
  if ((s.pages p).rmap i).valid then change s i ((s.pages p).rmap i) else s

/-- The owners of the valid reverse mappings of a batch. -/
def rmapOwners (s : State C) (own : VmaId → ℕ) (ps : List PageId) : Finset ℕ :=
  ((s.validRmaps ps).map fun r => own r.vma).toFinset

/-- What a walk has done after the slots in `D`: the valid ones among them are in the table, and
only these may have become invalid. -/
structure Walked (s₀ : State C) (own : VmaId → ℕ) (D : Set (PageId × Fin maxRmapsPerPage))
    (x : State C × Etlb ℕ) : Prop where
  slots (q : PageId) (j : Fin maxRmapsPerPage) : (x.1.pages q).rmap j = (s₀.pages q).rmap j ∨
    ((q, j) ∈ D ∧ ((x.1.pages q).rmap j).valid = false)
  notes : x.2.Notes fun o a => ∃ q j, (q, j) ∈ D ∧ ((s₀.pages q).rmap j).valid = true ∧
    own ((s₀.pages q).rmap j).vma = o ∧ ((s₀.pages q).rmap j).vaddr = a

/-- A walk changes the slot it is at, and leaves it as it is or makes it invalid. -/
structure ChangesSlot (change : State C → Fin maxRmapsPerPage → PrVmaRmap → State C) (p : PageId) :
    Prop where
  others (s : State C) (i : Fin maxRmapsPerPage) (q : PageId) (j : Fin maxRmapsPerPage) :
    (q, j) ≠ (p, i) →
      ((change s i ((s.pages p).rmap i)).pages q).rmap j = (s.pages q).rmap j
  slot (s : State C) (i : Fin maxRmapsPerPage) :
    ((change s i ((s.pages p).rmap i)).pages p).rmap i = (s.pages p).rmap i ∨
      (((change s i ((s.pages p).rmap i)).pages p).rmap i).valid = false

lemma pages_wrprotect (s : State C) (p : PageId) (r : PrVmaRmap) :
    (s.wrprotect p r).pages = s.pages := by
  unfold wrprotect
  split
  · split_ifs <;> rfl
  · rfl

lemma pages_zapPage (s : State C) (p : PageId) (r : PrVmaRmap) :
    (s.zapPage p r).pages = s.pages := by
  unfold zapPage
  split
  · split_ifs <;> rfl
  · rfl

lemma changesSlot_clear (p : PageId) :
    ChangesSlot (fun (s : State C) _ r => s.wrprotect p r) p where
  others s i q j _ := by rw [pages_wrprotect]
  slot s i := by
    rw [pages_wrprotect]
    exact Or.inl rfl

lemma changesSlot_remove (p : PageId) : ChangesSlot (fun (s : State C) i r =>
    ((s.zapPage p r).setRmap p i { r with valid := false }).unlinkRmap p i) p where
  others s i q j h := by
    simp only [unlinkRmap, setRmap, modifyPage, pages_zapPage]
    by_cases hq : q = p
    · subst hq
      have hj : j ≠ i := fun hj => h (by rw [hj])
      simp [hj]
    · simp [hq]
  slot s i := by simp [unlinkRmap, setRmap, modifyPage]

variable {s₀ : State C} {own : VmaId → ℕ} {D : Set (PageId × Fin maxRmapsPerPage)}
  {x : State C × Etlb ℕ} {p : PageId} {ps : List PageId}
  {change : State C → Fin maxRmapsPerPage → PrVmaRmap → State C}

lemma walked_reset (s₀ : State C) (own : VmaId → ℕ) : Walked s₀ own ∅ (s₀, Etlb.reset) where
  slots q j := Or.inl rfl
  notes := Etlb.notes_reset.congr fun o a => by simp

/-- One slot of a page of the batch. -/
lemma Walked.step (h : Walked s₀ own D x) (hc : ChangesSlot change p)
    (hD : ∀ q j, (q, j) ∈ D → q ∈ ps) (hp : p ∈ ps)
    (hT : (s₀.rmapOwners own ps).card ≤ etlbEntries) (i : Fin maxRmapsPerPage) :
    ∃ x', walkSlot change own p x i = some x' ∧ x'.1 = changeSlot change p x.1 i ∧
      Walked s₀ own (insert (p, i) D) x' := by
  unfold walkSlot changeSlot
  have hmem : ∀ q ∈ ps, ∀ j, ((s₀.pages q).rmap j).valid = true →
      own ((s₀.pages q).rmap j).vma ∈ s₀.rmapOwners own ps := by
    intro q hq j hv
    simp only [rmapOwners, List.mem_toFinset, List.mem_map]
    exact ⟨_, mem_validRmaps.mpr ⟨⟨q, hq, j, rfl⟩, hv⟩, rfl⟩
  by_cases hv : ((x.1.pages p).rmap i).valid = true
  · have hsame : (x.1.pages p).rmap i = (s₀.pages p).rmap i := by
      rcases h.slots p i with hs | ⟨-, hs⟩
      · exact hs
      · simp [hs] at hv
    obtain ⟨t, ht, hnotes⟩ := h.notes.note (a := ((s₀.pages p).rmap i).vaddr) hT
      (by rintro o a ⟨q, j, hq, hvq, rfl, -⟩; exact hmem q (hD q j hq) j hvq)
      (hmem p hp i (hsame ▸ hv))
    refine ⟨(change x.1 i ((x.1.pages p).rmap i), t), ?_, ?_, ?_, ?_⟩
    · rw [if_pos hv, hsame, ht]
      rfl
    · rw [if_pos hv]
    · intro q j
      by_cases hqj : (q, j) = (p, i)
      · obtain ⟨rfl, rfl⟩ := Prod.mk.inj hqj
        rcases hc.slot x.1 j with hs | hs
        · exact Or.inl (hs.trans hsame)
        · exact Or.inr ⟨Set.mem_insert _ _, hs⟩
      · rw [hc.others x.1 i q j hqj]
        rcases h.slots q j with hs | ⟨hq, hs⟩
        · exact Or.inl hs
        · exact Or.inr ⟨Set.mem_insert_of_mem _ hq, hs⟩
    · apply hnotes.congr
      intro o a
      constructor
      · rintro (⟨q, j, hq, hr⟩ | ⟨rfl, rfl⟩)
        · exact ⟨q, j, Set.mem_insert_of_mem _ hq, hr⟩
        · exact ⟨p, i, Set.mem_insert _ _, hsame ▸ hv, rfl, rfl⟩
      · rintro ⟨q, j, hq, hr⟩
        rcases hq with hq | hq
        · obtain ⟨rfl, rfl⟩ := Prod.mk.inj hq
          exact Or.inr ⟨hr.2.1.symm, hr.2.2.symm⟩
        · exact Or.inl ⟨q, j, hq, hr⟩
  · refine ⟨x, by rw [if_neg hv], by rw [if_neg hv], ?_, ?_⟩
    · intro q j
      rcases h.slots q j with hs | ⟨hq, hs⟩
      · exact Or.inl hs
      · exact Or.inr ⟨Set.mem_insert_of_mem _ hq, hs⟩
    · -- an invalid slot was invalid at the start, or the walk has been there
      apply h.notes.congr
      intro o a
      constructor
      · rintro ⟨q, j, hq, hr⟩
        exact ⟨q, j, Set.mem_insert_of_mem _ hq, hr⟩
      · rintro ⟨q, j, hq, hr⟩
        rcases hq with hq | hq
        · obtain ⟨rfl, rfl⟩ := Prod.mk.inj hq
          rcases h.slots q j with hs | ⟨hq, -⟩
          · rw [hs] at hv
            exact absurd hr.1 hv
          · exact ⟨q, j, hq, hr⟩
        · exact ⟨q, j, hq, hr⟩

/-- The slots of a page. -/
lemma Walked.slots_of_page (h : Walked s₀ own D x) (hc : ChangesSlot change p)
    (hD : ∀ q j, (q, j) ∈ D → q ∈ ps) (hp : p ∈ ps)
    (hT : (s₀.rmapOwners own ps).card ≤ etlbEntries) (l : List (Fin maxRmapsPerPage)) :
    ∃ x', l.foldlM (walkSlot change own p) x = some x' ∧
      x'.1 = l.foldl (changeSlot change p) x.1 ∧
      Walked s₀ own (D ∪ {a | a.1 = p ∧ a.2 ∈ l}) x' := by
  induction l generalizing D x with
  | nil => exact ⟨x, rfl, rfl, by simpa using h⟩
  | cons i l ih =>
    obtain ⟨y, hy, hfst, hw⟩ := h.step hc hD hp hT i
    obtain ⟨z, hz, hfst', hw'⟩ := ih hw (by
      rintro q j (hq | hq)
      · rwa [(Prod.mk.inj hq).1]
      · exact hD q j hq)
    refine ⟨z, ?_, ?_, ?_⟩
    · rw [List.foldlM_cons, hy]
      exact hz
    · rw [hfst', hfst, List.foldl_cons]
    · convert hw' using 1
      ext ⟨q, j⟩
      simp only [Set.mem_union, Set.mem_ofPred_eq, List.mem_cons, Set.mem_insert_iff, Prod.mk.injEq]
      tauto

end State

open State

variable {s₀ : State C} {vmMm : VmaId → MmId} {ps : List PageId}

/-- A page of the batch. -/
lemma FlushPass.walked_page {pass : FlushPass} {D : Set (PageId × Fin maxRmapsPerPage)}
    {x : State C × Etlb ℕ} {p : PageId} (h : Walked s₀ (pass.owner vmMm) D x)
    (hD : ∀ q j, (q, j) ∈ D → q ∈ ps) (hp : p ∈ ps)
    (hT : (s₀.rmapOwners (pass.owner vmMm) ps).card ≤ etlbEntries) :
    ∃ x', pass.page vmMm p x = some x' ∧ x'.1 = pass.change x.1 p ∧
      Walked s₀ (pass.owner vmMm) (D ∪ {a | a.1 = p}) x' := by
  have hall : {a : PageId × Fin maxRmapsPerPage | a.1 = p ∧ a.2 ∈ List.finRange maxRmapsPerPage} =
      {a | a.1 = p} := by
    ext a
    simp
  rw [← hall]
  cases pass with
  | clear => exact h.slots_of_page (changesSlot_clear p) hD hp hT _
  | remove => exact h.slots_of_page (changesSlot_remove p) hD hp hT _

/-- The whole batch. -/
lemma FlushPass.walked_batch {pass : FlushPass} {D : Set (PageId × Fin maxRmapsPerPage)}
    {x : State C × Etlb ℕ} (h : Walked s₀ (pass.owner vmMm) D x)
    (hD : ∀ q j, (q, j) ∈ D → q ∈ ps)
    (hT : (s₀.rmapOwners (pass.owner vmMm) ps).card ≤ etlbEntries) (l : List PageId)
    (hl : ∀ p ∈ l, p ∈ ps) :
    ∃ x', pass.batch vmMm l x = some x' ∧ x'.1 = l.foldl pass.change x.1 ∧
      Walked s₀ (pass.owner vmMm) (D ∪ {a | a.1 ∈ l}) x' := by
  induction l generalizing D x with
  | nil => exact ⟨x, rfl, rfl, by simpa using h⟩
  | cons p l ih =>
    obtain ⟨y, hy, hfst, hw⟩ := walked_page h hD (hl p (by simp)) hT
    obtain ⟨z, hz, hfst', hw'⟩ := ih hw (by
      rintro q j (hq | hq)
      · exact hD q j hq
      · exact hl q (by simp_all)) (fun q hq => hl q (List.mem_cons_of_mem p hq))
    refine ⟨z, ?_, ?_, ?_⟩
    · rw [FlushPass.batch, List.foldlM_cons, hy]
      exact hz
    · rw [hfst', hfst, List.foldl_cons]
    · convert hw' using 1
      ext ⟨q, j⟩
      simp only [Set.mem_union, Set.mem_ofPred_eq, List.mem_cons]
      tauto

/-- With at most `ETLB_ENTRIES` owners in a batch, the pass ends with a table of its mappings. -/
lemma FlushPass.exists_notes (pass : FlushPass)
    (hT : (s₀.rmapOwners (pass.owner vmMm) ps).card ≤ etlbEntries) :
    ∃ t, pass.batch vmMm ps (s₀, Etlb.reset) = some (ps.foldl pass.change s₀, t) ∧
      t.Notes fun o a => ∃ r ∈ s₀.validRmaps ps, pass.owner vmMm r.vma = o ∧ r.vaddr = a := by
  obtain ⟨⟨s', t⟩, hrun, rfl, hw⟩ := FlushPass.walked_batch (walked_reset s₀ (pass.owner vmMm))
    (by simp) hT ps fun p hp => hp
  refine ⟨t, hrun, ?_⟩
  apply hw.notes.congr
  intro o a
  constructor
  · rintro ⟨q, j, hq, hv, hr⟩
    exact ⟨_, mem_validRmaps.mpr ⟨⟨q, by simpa using hq, j, rfl⟩, hv⟩, hr⟩
  · rintro ⟨r, hr, hoa⟩
    obtain ⟨⟨q, hq, j, rfl⟩, hv⟩ := mem_validRmaps.mp hr
    exact ⟨q, j, by simpa using hq, hv, hoa⟩

/-! ### What the flushes cover -/

/-- The pass runs through the batch as it does without the table, and the flushes that follow
cover every mapping it processed. -/
def FlushPass.CoversAll (vmMm : VmaId → MmId) (pass : FlushPass) (s : State C)
    (ps : List PageId) : Prop :=
  ∃ t, pass.batch vmMm ps (s, Etlb.reset) = some (ps.foldl pass.change s, t) ∧
    ∀ r ∈ s.validRmaps ps, t.Covers (pass.owner vmMm r.vma) r.vaddr

/-- With at most `ETLB_ENTRIES` owners in a batch, the flushes cover all its mappings exactly when
all mappings of an owner have one and the same address. -/
theorem coversAll_iff (vmMm : VmaId → MmId) (pass : FlushPass) (s : State C) (ps : List PageId)
    (hT : (s.rmapOwners (pass.owner vmMm) ps).card ≤ etlbEntries) :
    pass.CoversAll vmMm s ps ↔ ∀ r ∈ s.validRmaps ps, ∀ r' ∈ s.validRmaps ps,
      pass.owner vmMm r.vma = pass.owner vmMm r'.vma → r.vaddr = r'.vaddr := by
  obtain ⟨t, hrun, hnotes⟩ := pass.exists_notes hT
  have hcovers := hnotes.covers_iff
  constructor
  · rintro ⟨t', ht', hc⟩ r hr r' hr' ho
    obtain ⟨-, rfl⟩ := Prod.mk.inj (Option.some.inj (hrun.symm.trans ht'))
    refine hcovers.mp ?_ _ _ _ ⟨r, hr, rfl, rfl⟩ ⟨r', hr', ho.symm, rfl⟩
    rintro o a ⟨r, hr, rfl, rfl⟩
    exact hc r hr
  · intro hone
    refine ⟨t, hrun, ?_⟩
    intro r hr
    refine hcovers.mpr ?_ _ _ ⟨r, hr, rfl, rfl⟩
    rintro o a a' ⟨r, hr, rfl, rfl⟩ ⟨r', hr', ho, rfl⟩
    exact hone r hr r' hr' ho.symm

/-- Two pages of a file, the first one mapped into area `0` at the start of the area, the second
one into area `v` behind it. -/
def twoMapped (v : VmaId) : State ℕ :=
  ((initParams smallEnv smallWorld).setRmap 0 (Fin.last 2) ⟨true, 0, 0, 0⟩).setRmap 1
    (Fin.last 2) ⟨true, v, pageSize, 0⟩

theorem coversAll_twoMapped : FlushPass.clear.CoversAll id (twoMapped 1) [0, 1] :=
  (coversAll_iff id .clear (twoMapped 1) [0, 1] (by decide)).mpr (by decide)

/-- With both pages in one area, the range flushed for it starts at the second page and ends before
it. -/
theorem flush_misses_mapping : ((twoMapped 0).rmapOwners id [0, 1]).card ≤ etlbEntries ∧
    ¬ FlushPass.clear.CoversAll id (twoMapped 0) [0, 1] ∧
    ¬ FlushPass.remove.CoversAll id (twoMapped 0) [0, 1] := by
  have hmapped : ⟨true, 0, 0, 0⟩ ∈ (twoMapped 0).validRmaps [0, 1] := by decide
  have hmiss : ∀ pass : FlushPass, ¬ pass.CoversAll id (twoMapped 0) [0, 1] := by
    rintro pass ⟨t, ht, hc⟩
    have hrun : (pass.batch id [0, 1] (twoMapped 0, Etlb.reset)).map
        (fun x => decide (x.2.Covers 0 0)) = some false := by
      cases pass <;> decide
    have hcover := hc _ hmapped
    have howner : pass.owner id 0 = 0 := by cases pass <;> rfl
    rw [howner] at hcover
    simp [ht, hcover] at hrun
  exact ⟨by decide, hmiss .clear, hmiss .remove⟩

/-! ### The size of the table -/

/-- The pass writes only to the table, and every mapping it processed has an entry there. -/
def FlushPass.RecordsAll (vmMm : VmaId → MmId) (pass : FlushPass) (s : State C)
    (ps : List PageId) : Prop :=
  ∃ t, pass.batch vmMm ps (s, Etlb.reset) = some (ps.foldl pass.change s, t) ∧
    ∀ r ∈ s.validRmaps ps, ∃ k, (t k).owner = some (pass.owner vmMm r.vma)

/-- The table holds the mappings of a batch exactly when these have at most `ETLB_ENTRIES`
owners. -/
theorem recordsAll_iff (vmMm : VmaId → MmId) (pass : FlushPass) (s : State C) (ps : List PageId) :
    pass.RecordsAll vmMm s ps ↔ (s.rmapOwners (pass.owner vmMm) ps).card ≤ etlbEntries := by
  constructor
  · rintro ⟨t, -, hrec⟩
    have hsub : s.rmapOwners (pass.owner vmMm) ps ⊆
        Finset.univ.image fun k => ((t k).owner).getD 0 := by
      intro o ho
      obtain ⟨r, hr, rfl⟩ := List.mem_map.mp (List.mem_toFinset.mp ho)
      obtain ⟨k, hk⟩ := hrec r hr
      exact Finset.mem_image.mpr ⟨k, Finset.mem_univ k, by rw [hk, Option.getD_some]⟩
    apply (Finset.card_le_card hsub).trans
    apply Finset.card_image_le.trans
    rw [Finset.card_univ, Fintype.card_fin]
  · intro hT
    obtain ⟨t, hrun, hnotes⟩ := pass.exists_notes hT
    refine ⟨t, hrun, ?_⟩
    intro r hr
    obtain ⟨k, hk, -⟩ := hnotes.exists_entry ⟨r, hr, rfl, rfl⟩
    exact ⟨k, hk⟩

/-- Each page is mapped into an area of its own. -/
def eachMapped : State ℕ :=
  { initParams smallEnv smallWorld with
    pages := fun p =>
      { (initParams smallEnv smallWorld).pages p with
        rmap := Function.update (fun _ => .reset) (Fin.last 2) ⟨true, p, 0, 0⟩ } }

/-- The seventeenth area of a batch finds neither an entry of its own nor an empty one. -/
theorem seventeenth_owner :
    FlushPass.clear.batch id (List.range 17) (eachMapped, Etlb.reset) = none ∧
      FlushPass.remove.batch id (List.range 17) (eachMapped, Etlb.reset) = none ∧
      ∀ pass : FlushPass, ¬ pass.RecordsAll id eachMapped (List.range 17) := by
  have hclear : FlushPass.clear.batch id (List.range 17) (eachMapped, Etlb.reset) = none := by
    decide +kernel
  have hremove : FlushPass.remove.batch id (List.range 17) (eachMapped, Etlb.reset) = none := by
    decide +kernel
  refine ⟨hclear, hremove, ?_⟩
  rintro pass ⟨t, ht, -⟩
  cases pass with
  | clear => simp [hclear] at ht
  | remove => simp [hremove] at ht

end FastMap
