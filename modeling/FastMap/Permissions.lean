import FastMap.Images

/-!
# Write permission under interleaving

A page that a user can write to is dirty, whatever the other threads do: a write fault marks the
page before the kernel makes its entry writable, and a writer protects every entry of a page, under
the page lock, before it marks the page clean. The callback of a release protects nothing, so a file
is to be released when no entry is writable any more.
-/

namespace FastMap

variable {C : Type*}

namespace Pc

/-- The pages whose entries a writer has protected, to mark them clean. -/
def shielded : Pc → List PageId
  | .evict (.write _ pgs) => pgs
  | .evict (.insert _ _ todo) => todo
  | .sync ⟨.fsync, _⟩ (.remove p _ _) => [p]
  | .sync _ (.enqueue p _ _) => [p]
  | _ => []

lemma holds_of_shielded {pc : Pc} {p : PageId} (h : p ∈ pc.shielded) : pc.Holds p := by
  unfold shielded at h
  split at h <;> simp_all [Holds, locks]

lemma holds_of_cleans {pc : Pc} {p : PageId} (h : pc.cleans = some p) : pc.Holds p := by
  unfold cleans at h
  split at h <;> simp_all [Holds, locks]

lemma shielded_of_cleans {pc : Pc} {p : PageId} (h : pc.cleans = some p) : p ∈ pc.shielded := by
  unfold cleans at h
  split at h <;> simp_all [shielded]

end Pc

namespace State

variable {e : Env C} {s s' s'' : State C} {p q : PageId} {pc pc' : Pc} {c : Choice C}

/-! ### Entries that become writable -/

/-- No entry has become writable. -/
def Restricts (s s' : State C) : Prop :=
  ∀ a p, s'.pte a = .map p true → s.pte a = .map p true

lemma Restricts.of_pte (h : s'.pte = s.pte) : Restricts s s' := by
  intro a p hp
  rwa [h] at hp

lemma Restricts.of_chart (h : s'.chart = s.chart) : Restricts s s' :=
  .of_pte (congrArg Chart.pte h)

lemma Restricts.trans (h : Restricts s s') (h' : Restricts s' s'') : Restricts s s'' :=
  fun a p hp => h a p (h' a p hp)

lemma Restricts.foldl {α : Type*} {f : State C → α → State C} (hf : ∀ s a, Restricts s (f s a))
    (l : List α) (s : State C) : Restricts s (l.foldl f s) := by
  induction l generalizing s with
  | nil => exact .of_pte rfl
  | cons a l ih =>
    rw [List.foldl_cons]
    exact (hf s a).trans (ih _)

lemma restricts_setPte (vma : VmaId) (a : ℕ) {x : Pte} (hx : ∀ p, x ≠ .map p true) :
    Restricts s (s.setPte vma a x) := by
  intro b p hp
  by_cases hb : b = (vma, a)
  · subst hb
    exact absurd ((Function.update_self _ _ _).symm.trans hp) (hx p)
  · exact (Function.update_of_ne hb _ _).symm.trans hp

lemma restricts_clearMappings (s : State C) (p : PageId) : Restricts s (s.clearMappings p) := by
  refine .foldl (fun s i => ?_) _ s
  dsimp only
  split_ifs
  · simp only [wrprotect]
    split
    · split_ifs
      · exact restricts_setPte _ _ (by simp)
      · exact .of_pte rfl
    · exact .of_pte rfl
  · exact .of_pte rfl

lemma restricts_removeMappings (s : State C) (p : PageId) : Restricts s (s.removeMappings p) := by
  refine .foldl (fun s i => ?_) _ s
  dsimp only
  split_ifs
  · have hz : ∀ r, Restricts s (s.zapPage p r) := by
      intro r
      simp only [zapPage]
      split
      · split_ifs
        · exact restricts_setPte _ _ (by simp)
        · exact .of_pte rfl
      · exact .of_pte rfl
    exact hz ((s.pages p).rmap i)
  · exact .of_pte rfl

lemma restricts_finishFault (s : State C) (vmf : VmFault) (p : PageId) :
    Restricts s (s.finishFault vmf p) := by
  simp only [finishFault]
  split_ifs
  · exact restricts_setPte _ _ (by simp)
  · exact .of_pte rfl

lemma pte_dmapAddOrUpdateRmap {vmf : VmFault} {cpu : ℕ}
    (h : s.dmapAddOrUpdateRmap vmf p cpu = .ok s') : s'.pte = s.pte := by
  simp only [dmapAddOrUpdateRmap] at h
  split at h
  · rw [Except.ok.inj h]
  · split at h
    · exact absurd h (by simp)
    · split at h
      · exact absurd h (by simp)
      · rw [← Except.ok.inj h]
        rfl

/-- Only the end of a write fault makes an entry writable. -/
lemma restricts_stepThread (hx : ∀ r p, pc ≠ .mkwrite r p .map)
    (hs : s.stepThread e c pc = .ok (s', pc')) : Restricts s s' := by
  cases hm : pc.remaps with
  | false => exact .of_chart (chart_stepThread hm hs)
  | true =>
    rcases Pc.remaps_cases hm with ⟨r, rfl⟩ | ⟨r, p, rfl⟩ | ⟨r, p, rfl⟩ | ⟨r, p, rfl⟩ |
      ⟨r, p, rfl⟩ | ⟨ret, qid, n, pgs, p, rfl⟩ | ⟨ret, p, pgs, rfl⟩ | ⟨v, pgs, rfl⟩ | ⟨a, p, h, pgs, rfl⟩
    · simp only [stepThread, stepGet] at hs
      split at hs
      all_goals
        rename_i heq
        rw [← (Prod.mk.inj (Except.ok.inj hs)).1]
        exact .of_pte (allocPageLock_frame heq).1
    · rw [← (Prod.mk.inj (Except.ok.inj hs)).1]
      exact .of_pte rfl
    · simp only [stepThread, stepGet] at hs
      obtain ⟨s₁, hr, hs⟩ := Except.map_eq_ok.mp hs
      rw [← (Prod.mk.inj hs).1]
      exact .of_pte (pte_dmapAddOrUpdateRmap hr)
    · rw [← (Prod.mk.inj (Except.ok.inj hs)).1]
      exact restricts_finishFault _ _ _
    · exact absurd rfl (hx r p)
    · rw [← (Prod.mk.inj (Except.ok.inj hs)).1]
      exact restricts_removeMappings _ _
    · rw [← (Prod.mk.inj (Except.ok.inj hs)).1]
      exact .of_pte rfl
    · rw [← (Prod.mk.inj (Except.ok.inj hs)).1]
      exact .foldl restricts_clearMappings _ _
    · rw [← (Prod.mk.inj (Except.ok.inj hs)).1]
      exact restricts_clearMappings _ _

/-! ### Entries that a writer protects -/

lemma protected_clearMappings (h : s.Placed e) {A : Areas} (hc : (s.view e p).Charted A)
    (a : VmaId × ℕ) : (s.clearMappings p).pte a ≠ .map p true := by
  intro ha
  have hm := h.moves_clearMappings (p := p)
  have hv : (s.view e p).wrprotected.pte a = some true := by
    rw [← hm.view_self]
    exact mapping_eq_some.mpr ha
  rw [PageView.wrprotected_pte] at hv
  split_ifs at hv with hcov
  · simp at hv
  · exact hcov (hc.entry hv).2

/-- `clear_mappings` on every page of a batch. -/
lemma protected_foldl_clearMappings {A : Areas} {pgs : List PageId} (h : s.Placed e)
    (hc : ∀ p, (s.view e p).Charted A) (hp : p ∈ pgs) (a : VmaId × ℕ) :
    (pgs.foldl clearMappings s).pte a ≠ .map p true := by
  induction pgs generalizing s with
  | nil => exact absurd hp List.not_mem_nil
  | cons q pgs ih =>
    have hm := h.moves_clearMappings (p := q)
    rw [List.foldl_cons]
    rcases List.mem_cons.mp hp with rfl | hp
    · intro ha
      exact protected_clearMappings h (hc p) a
        (Restricts.foldl restricts_clearMappings pgs _ a p ha)
    · refine ih hm.placed (fun p' => ?_) hp
      by_cases hpq : p' = q
      · subst hpq
        rw [hm.view_self]
        exact (hc p').wrprotected
      · rw [hm.view_of_ne hpq]
        exact hc p'

/-! ### Pages that are not read -/

lemma pages_dmapAddOrUpdateRmap_of_ne {vmf : VmFault} {cpu : ℕ} (hq : q ≠ p)
    (h : s.dmapAddOrUpdateRmap vmf p cpu = .ok s') : s'.pages q = s.pages q := by
  simp only [dmapAddOrUpdateRmap] at h
  split at h
  · rw [Except.ok.inj h]
  · split at h
    · exact absurd h (by simp)
    · split at h
      · exact absurd h (by simp)
      · rw [← Except.ok.inj h]
        exact Function.update_of_ne hq _ _

lemma rmap_foldl_clearMappings (h : s.Placed e) (pgs : List PageId) :
    ((pgs.foldl clearMappings s).pages q).rmap = (s.pages q).rmap := by
  induction pgs generalizing s with
  | nil => rfl
  | cons p pgs ih =>
    have hm := h.moves_clearMappings (p := p)
    rw [List.foldl_cons, ih hm.placed]
    by_cases hq : q = p
    · rw [hq, hm.pages_self, PageView.wrprotected_eq]
      rfl
    · rw [show (s.clearMappings p).pages q = s.pages q from
        congrArg PageView.page (hm.view_of_ne hq)]

/-- A slot is filled when a fault maps the page. -/
lemma rmap_stepThread (h : s.Placed e) (hr : ∀ j, ((s.pages q).rmap j).valid = false)
    (hdone : ∀ r, pc ≠ .get r (.done q)) (hs : s.stepThread e c pc = .ok (s', pc')) (j) :
    ((s'.pages q).rmap j).valid = false := by
  have hsame : (s'.pages q).rmap = (s.pages q).rmap → ((s'.pages q).rmap j).valid = false :=
    fun heq => by rw [heq]; exact hr j
  have hmoves : ∀ {p : PageId} {w : PageView C}, Moves e s s' p w →
      (q = p → ((s'.pages q).rmap j).valid = false) → ((s'.pages q).rmap j).valid = false := by
    intro p w hm hw
    by_cases hq : q = p
    · exact hw hq
    · exact hsame (congrArg (fun x => x.page.rmap) (hm.view_of_ne hq))
  cases hm : pc.remaps with
  | false => exact hsame (rmap_of_chart (chart_stepThread hm hs) q)
  | true =>
    rcases Pc.remaps_cases hm with ⟨r, rfl⟩ | ⟨r, p, rfl⟩ | ⟨r, p, rfl⟩ | ⟨r, p, rfl⟩ |
      ⟨r, p, rfl⟩ | ⟨ret, qid, n, pgs, p, rfl⟩ | ⟨ret, p, pgs, rfl⟩ | ⟨v, pgs, rfl⟩ | ⟨a, p, hp, pgs, rfl⟩
    · simp only [stepThread, stepGet] at hs
      split at hs
      all_goals
        rename_i heq
        obtain ⟨rfl, rfl⟩ := Prod.mk.inj (Except.ok.inj hs)
        obtain ⟨-, -, hpages⟩ := allocPageLock_frame heq
      · exact hsame ((hpages q).2 (by simp)).2
      · rename_i p _
        by_cases hq : p = q
        · exact ((hpages q).1 (by rw [hq])).1.2 j
        · exact hsame ((hpages q).2 (by simpa using hq)).2
    · obtain ⟨rfl, rfl⟩ := Prod.mk.inj (Except.ok.inj hs)
      by_cases hq : q = p
      · rw [hq]
        exact blank_freePageLock.1.2 j
      · exact hsame (by rw [pages_freePageLock hq])
    · have hq : q ≠ p := by
        rintro rfl
        exact hdone r rfl
      simp only [stepThread, stepGet] at hs
      obtain ⟨s₁, hadd, hs⟩ := Except.map_eq_ok.mp hs
      obtain ⟨rfl, rfl⟩ := Prod.mk.inj hs
      exact hsame (by rw [pages_dmapAddOrUpdateRmap_of_ne hq hadd])
    · obtain ⟨rfl, rfl⟩ := Prod.mk.inj (Except.ok.inj hs)
      obtain ⟨f, -, hmv⟩ := h.moves_finishFault r.vmf p
      refine hmoves hmv fun hq => hsame ?_
      rw [hq, hmv.pages_self]
    · obtain ⟨rfl, rfl⟩ := Prod.mk.inj (Except.ok.inj hs)
      obtain ⟨f, -, hmv⟩ := h.moves_finishMkwrite r.vmf p
      refine hmoves hmv fun hq => hsame ?_
      rw [hq, hmv.pages_self]
    · obtain ⟨rfl, rfl⟩ := Prod.mk.inj (Except.ok.inj hs)
      have hmv := h.moves_removeMappings (p := p)
      refine hmoves hmv fun hq => ?_
      rw [hq, hmv.pages_self, PageView.unmapped_eq]
    · obtain ⟨rfl, rfl⟩ := Prod.mk.inj (Except.ok.inj hs)
      by_cases hq : q = p
      · rw [hq]
        exact blank_freePageLock.1.2 j
      · exact hsame (by rw [pages_freePageLock hq])
    · obtain ⟨rfl, rfl⟩ := Prod.mk.inj (Except.ok.inj hs)
      exact hsame (rmap_foldl_clearMappings h pgs)
    · obtain ⟨rfl, rfl⟩ := Prod.mk.inj (Except.ok.inj hs)
      exact hsame (rmap_foldl_clearMappings h [p])

/-- A page becomes valid when it is read. -/
lemma pageValid_stepThread (hv : (s.pages q).pageValid = false) (hio : ∀ r, pc ≠ .get r (.io q))
    (hs : s.stepThread e c pc = .ok (s', pc')) : (s'.pages q).pageValid = false := by
  cases edit_stepThread hs q with
  | same hf => exact (congrArg TaggedPage.pageValid hf).trans hv
  | alloc _ _ hb _ => exact hb.1
  | free _ hb _ => exact hb.1
  | read hr _ => exact absurd hr (hio _)
  | mark _ hf => exact (congrArg TaggedPage.pageValid hf).trans hv
  | clean _ hf => exact (congrArg TaggedPage.pageValid hf).trans hv

/-- A page is made clean by a writer, or is lost. -/
lemma isDirty_stepThread (hd : (s.pages q).isDirty = true)
    (hs : s.stepThread e c pc = .ok (s', pc')) : (s'.pages q).isDirty = true ∨
      pc.cleans = some q ∨ pc.frees = some q ∨
        ∃ r, pc = .get r .alloc ∧ pc' = .get r (.fresh q) := by
  cases edit_stepThread hs q with
  | same hf => exact Or.inl ((congrArg TaggedPage.isDirty hf).trans hd)
  | alloc hr hr' _ _ => exact Or.inr (Or.inr (Or.inr ⟨_, hr, hr'⟩))
  | free hr _ _ => exact Or.inr (Or.inr (Or.inl hr))
  | read _ hf => exact Or.inl ((congrArg TaggedPage.isDirty hf).trans hd)
  | mark _ hf => exact Or.inl (congrArg TaggedPage.isDirty hf)
  | clean hr _ => exact Or.inr (Or.inl hr)

/-! ### How a thread gets there -/

/-- A writer protects a page before it takes it out of its queue. -/
lemma shielded_stepThread (hs : s.stepThread e c pc = .ok (s', pc')) (hq : q ∈ pc'.shielded) :
    q ∈ pc.shielded ∨ (∃ v pgs, pc = .evict (.clear v pgs) ∧ q ∈ pgs) ∨
      (∃ a h pgs, pc = .sync a (.clear q h pgs)) ∨
      ∃ v h pgs, pc = .sync ⟨.release, v⟩ (.remove q h pgs) := by
  have hframe := (frame_stepThread hs).resolve_right fun hidle => by
    simp [hidle, Pc.shielded] at hq
  cases pc with
  | idle => simp [stepThread] at hs
  | get r x | mkwrite r p x =>
    cases pc' with
    | evict y | sync b y => simp [Pc.frame] at hframe
    | _ => simp [Pc.shielded] at hq
  | purge ret x =>
    cases pc' with
    | evict y | sync b y => cases ret <;> simp [Pc.frame] at hframe
    | _ => simp [Pc.shielded] at hq
  | evict x =>
    cases x with
    | take id | untree id p | grab d p =>
      simp only [stepThread, stepEvict] at hs
      split at hs
      all_goals cases hs
      all_goals simp [Pc.shielded] at hq
    | scan d =>
      simp only [stepThread, stepEvict] at hs
      split_ifs at hs
      · cases hs
        simp [Pc.shielded] at hq
      · split at hs
        all_goals
          cases hs
          simp [Pc.shielded] at hq
    | back d p =>
      cases hs
      simp [Pc.shielded] at hq
    | clear v pgs =>
      cases hs
      exact Or.inr (Or.inl ⟨v, pgs, rfl, hq⟩)
    | write v pgs =>
      cases hs
      exact Or.inl hq
    | insert v done todo =>
      cases todo with
      | nil =>
        cases hs
        simp [Pc.shielded] at hq
      | cons p todo =>
        cases hs
        exact Or.inl (List.mem_cons_of_mem p hq)
    | unlock todo =>
      cases todo
      all_goals
        cases hs
        simp [Pc.shielded] at hq
  | sync a x =>
    cases x with
    | fill cpus h =>
      cases cpus with
      | nil =>
        cases hs
        simp [Pc.shielded] at hq
      | cons cpu cpus =>
        obtain ⟨b, h', -, rfl⟩ := stepSync_fill_cons (e := e) hs
        simp [Pc.shielded] at hq
    | min h pgs =>
      simp only [stepThread, stepSync] at hs
      split_ifs at hs
      all_goals
        cases hs
        simp [Pc.shielded] at hq
    | pull n h pgs =>
      obtain ⟨b, h', -, rfl⟩ := stepSync_pull (e := e) hs
      obtain ⟨cb, v⟩ := a
      cases cb
      all_goals
        split_ifs at hq
        all_goals simp [Pc.shielded, startCleanup] at hq
    | clear p h pgs =>
      cases hs
      obtain ⟨cb, v⟩ := a
      cases cb with
      | fsync =>
        obtain rfl : q = p := by simpa [Pc.shielded] using hq
        exact Or.inr (Or.inr (Or.inl ⟨_, h, pgs, rfl⟩))
      | release => simp [Pc.shielded] at hq
    | remove p h pgs =>
      cases hs
      obtain rfl : q = p := by simpa [Pc.shielded] using hq
      obtain ⟨cb, v⟩ := a
      cases cb with
      | fsync => exact Or.inl (by simp [Pc.shielded])
      | release => exact Or.inr (Or.inr (Or.inr ⟨v, h, pgs, rfl⟩))
    | enqueue p h pgs =>
      simp only [stepThread, stepSync] at hs
      split_ifs at hs
      all_goals
        cases hs
        simp [Pc.shielded] at hq
    | write h pgs =>
      cases hs
      simp [Pc.shielded] at hq
    | unlock h todo =>
      cases todo
      all_goals
        cases hs
        simp [Pc.shielded] at hq

/-- A write fault is about to make an entry writable when it has found the page dirty, or has moved
it to its dirty queue. -/
lemma ready_stepThread {r : Req} (hs : s.stepThread e c pc = .ok (s', .mkwrite r p .map)) :
    pc = .mkwrite r p .dirty ∧ (s'.pages p).isDirty = true ∨ pc = .mkwrite r p .enqueue := by
  have hframe := (frame_stepThread hs).resolve_right (by simp)
  cases pc with
  | mkwrite r' p' x =>
    obtain ⟨rfl, rfl⟩ : r = r' ∧ p = p' := by simpa [Pc.frame] using hframe
    cases x with
    | lock =>
      simp only [stepThread, stepMkwrite] at hs
      split at hs <;> cases hs
    | dirty =>
      simp only [stepThread, stepMkwrite] at hs
      split_ifs at hs with hd
      · cases hs
        exact Or.inl ⟨rfl, hd⟩
      · cases hs
    | enqueue => exact Or.inr rfl
    | insert | remove | map => cases hs
  | purge ret x => cases ret <;> simp [Pc.frame] at hframe
  | _ => simp [Pc.frame] at hframe

/-- A page that is to be read has been so since it was allocated. -/
lemma loading_stepThread (hs : s.stepThread e c pc = .ok (s', pc')) (hq : pc'.loading = some q) :
    pc.loading = some q ∧ (∀ r, pc ≠ .get r (.io q)) ∨ (s'.pages q).Blank := by
  cases pc with
  | get r x =>
    cases x with
    | alloc =>
      simp only [stepThread, stepGet] at hs
      split at hs
      all_goals
        rename_i heq
        cases hs
      · simp [Pc.loading] at hq
      · exact Or.inr (((allocPageLock_frame heq).2.2 q).1 hq).1
    | lookup | insert p | lock p =>
      simp only [stepThread, stepGet, fmapRadixInsert] at hs
      split at hs
      all_goals
        cases hs
        simp_all [Pc.loading]
    | valid p =>
      simp only [stepThread, stepGet] at hs
      split_ifs at hs
      cases hs
      simp [Pc.loading] at hq
    | done p =>
      simp only [stepThread, stepGet] at hs
      obtain ⟨s₁, -, hs⟩ := Except.map_eq_ok.mp hs
      cases hs
      simp [Pc.loading] at hq
    | fresh p | enqueue p =>
      cases hs
      exact Or.inl ⟨hq, by simp⟩
    | rollback p | io p | map p =>
      cases hs
      simp [Pc.loading] at hq
  | purge ret x =>
    cases x with
    | take qid n pgs =>
      cases n with
      | zero =>
        cases hs
        simp [Pc.loading] at hq
      | succ n =>
        simp only [stepThread, stepPurge] at hs
        split at hs
        all_goals
          cases hs
          simp [Pc.loading] at hq
    | delete qid n pgs p =>
      simp only [stepThread, stepPurge] at hs
      split at hs
      · cases hs
      · cases hs
        simp [Pc.loading] at hq
    | unmap qid n pgs p =>
      cases hs
      simp [Pc.loading] at hq
    | free pgs =>
      cases pgs
      all_goals cases hs
      · cases ret <;> simp [Pc.loading, purgeReturn] at hq
      · simp [Pc.loading] at hq
  | idle => simp [stepThread] at hs
  | mkwrite r p x | evict x | sync a x =>
    rcases frame_stepThread hs with hf | rfl
    · cases pc' with
      | get r x => simp [Pc.frame] at hf
      | _ => simp [Pc.loading] at hq
    · simp [Pc.loading] at hq

end State

namespace Machine

open State

variable {e : Env C} {s₀ s' : State C} {m m' : Machine C} {t : Tid} {pc' : Pc} {p q : PageId}
  {c : Choice C} {log : List (BlockWrite C)} {l : Tid × Act C} {ls : List (Tid × Act C)}

lemma alone_of_frees {pc : Pc} (h : pc.frees = some p) : pc.Holds p ∧ pc.stage p = .alone := by
  unfold Pc.frees at h
  split at h
  · obtain rfl := Option.some.inj h
    exact ⟨Or.inl (by simp [Pc.locks]), rfl⟩
  · obtain rfl := Option.some.inj h
    exact ⟨Or.inl (by simp [Pc.locks]), rfl⟩
  · exact absurd h (by simp)

/-- A dirty page is made clean by a writer only. -/
lemma Inv.isDirty_step (h : Inv e m) (hd : (m.st.pages q).isDirty = true)
    (hs : m.st.stepThread e c (m.pc t) = .ok (s', pc')) :
    (s'.pages q).isDirty = true ∨ (m.pc t).cleans = some q := by
  rcases isDirty_stepThread hd hs with hd' | hc | hf | ⟨r, hpc, rfl⟩
  · exact Or.inl hd'
  · exact Or.inr hc
  · -- a page that is freed has left the cache
    obtain ⟨hh, hg⟩ := alone_of_frees hf
    have hat := ((h.page q).held hh).1
    rw [hg] at hat
    exact absurd ((hat.isDirty rfl).symm.trans hd) (by simp)
  · -- a page that is allocated was free
    rw [hpc] at hs
    simp only [State.stepThread, State.stepGet] at hs
    rcases h.placed.allocPageLock_idle (fun q hf => (h.idle_of_free hf).1) c.node r.vmf.pgoff r.pvd
      with ⟨s₁, hs₁, -, -⟩ | ⟨p, s₁, hs₁, hf, -⟩
    · rw [hs₁] at hs
      cases hs
    · rw [hs₁] at hs
      cases hs
      exact absurd ((h.idle_of_free hf).1.isDirty.symm.trans hd) (by simp)

/-- A page with a writable entry is dirty, and is not about to be marked clean; a page that is not
yet read has no entry. -/
structure Guarded (m : Machine C) : Prop where
  writable {a : VmaId × ℕ} {p : PageId} : m.st.pte a = .map p true →
    (m.st.pages p).isDirty = true ∧ ∀ t, p ∉ (m.pc t).shielded
  ready {t : Tid} {r : Req} {p : PageId} : m.pc t = .mkwrite r p .map →
    (m.st.pages p).isDirty = true
  blank {t : Tid} {p : PageId} : (m.pc t).loading = some p → (m.st.pages p).Blank

/-- The callback of a release meets no writable entry. -/
def Revoked (m : Machine C) (t : Tid) : Prop :=
  ∀ v p h pgs, m.pc t = .sync ⟨.release, v⟩ (.remove p h pgs) → ∀ a, m.st.pte a ≠ .map p true

/-- A new entry is made writable for a page that is dirty and that no writer holds. -/
lemma Guarded.mkwrite_map (hg : Guarded m) (h : Inv e m) {r : Req}
    (hpc : m.pc t = .mkwrite r p .map) {a : VmaId × ℕ}
    (hq : (m.st.finishMkwrite r.vmf p).pte a = .map q true) :
    (m.st.pages q).isDirty = true ∧ ∀ u, u ≠ t → q ∉ (m.pc u).shielded := by
  obtain ⟨f, hf, hm⟩ := h.placed.moves_finishMkwrite r.vmf p
  have hnew : q = p → (m.st.pages q).isDirty = true ∧ ∀ u, u ≠ t → q ∉ (m.pc u).shielded := by
    rintro rfl
    refine ⟨hg.ready hpc, fun u hu hsh => ?_⟩
    exact h.others (by rw [hpc]; exact Or.inl (by simp [Pc.locks])) u hu (Pc.holds_of_shielded hsh)
  by_cases hqp : q = p
  · exact hnew hqp
  · have hold : (m.st.view e q).pte a = some true := by
      rw [← hm.view_of_ne hqp]
      exact mapping_eq_some.mpr hq
    obtain ⟨hd, hsh⟩ := hg.writable (mapping_eq_some.mp hold)
    exact ⟨hd, fun u _ => hsh u⟩

lemma Guarded.writable_step (hg : Guarded m) (h : Sound e m) (hrev : m.Revoked t)
    (hs : m.st.stepThread e c (m.pc t) = .ok (s', pc')) {a : VmaId × ℕ}
    (hp : s'.pte a = .map p true) : (s'.pages p).isDirty = true ∧
      ∀ u, p ∉ ((m.put t s' pc' log).pc u).shielded := by
  by_cases hmap : ∃ r q, m.pc t = .mkwrite r q .map
  · obtain ⟨r, q, hpc⟩ := hmap
    have hs' := hs
    rw [hpc] at hs'
    cases hs'
    obtain ⟨hd, hsh⟩ := hg.mkwrite_map h.inv hpc hp
    refine ⟨(h.inv.isDirty_step hd hs).resolve_right (by simp [hpc, Pc.cleans]), fun u hu => ?_⟩
    by_cases hut : u = t
    · subst hut
      simp [Pc.shielded] at hu
    · rw [put_pc_of_ne hut] at hu
      exact hsh u hut hu
  · have hold := restricts_stepThread (fun r q hpc => hmap ⟨r, q, hpc⟩) hs a p hp
    obtain ⟨hd, hsh⟩ := hg.writable hold
    refine ⟨(h.inv.isDirty_step hd hs).resolve_right fun hc => hsh t (Pc.shielded_of_cleans hc),
      fun u hu => ?_⟩
    by_cases hut : u = t
    · subst hut
      rw [put_pc_self] at hu
      rcases shielded_stepThread hs hu with hu | ⟨v, pgs, hpc, hmem⟩ | ⟨b, hh, pgs, hpc⟩ |
        ⟨v, hh, pgs, hpc⟩
      · exact hsh u hu
      · rw [hpc] at hs
        cases hs
        exact protected_foldl_clearMappings h.inv.placed h.charts.page hmem a hp
      · rw [hpc] at hs
        cases hs
        exact protected_clearMappings h.inv.placed (h.charts.page p) a hp
      · exact hrev v p hh pgs hpc a hold
    · rw [put_pc_of_ne hut] at hu
      exact hsh u hu

lemma Guarded.stepThread (hg : Guarded m) (h : Sound e m) (hrev : m.Revoked t)
    (hs : m.st.stepThread e c (m.pc t) = .ok (s', pc')) : Guarded (m.put t s' pc' log) where
  writable hp := hg.writable_step h hrev hs hp
  ready {u r p} hu := by
    by_cases hut : u = t
    · subst hut
      rw [put_pc_self] at hu
      subst hu
      rcases ready_stepThread hs with ⟨-, hd⟩ | hpc
      · exact hd
      · -- the page has been dirty since it was marked
        have hh : (m.pc u).Holds p := by
          rw [hpc]
          exact Or.inl (by simp [Pc.locks])
        have hat := ((h.inv.page p).held hh).1
        rw [hpc] at hat
        exact (h.inv.isDirty_step (hat.isDirty rfl) hs).resolve_right (by simp [hpc, Pc.cleans])
    · rw [put_pc_of_ne hut] at hu
      refine (h.inv.isDirty_step (hg.ready hu) hs).resolve_right fun hc => ?_
      refine h.inv.others (Pc.holds_of_cleans hc) u hut ?_
      rw [hu]
      exact Or.inl (by simp [Pc.locks])
  blank {u p} hu := by
    by_cases hut : u = t
    · subst hut
      rw [put_pc_self] at hu
      rcases loading_stepThread hs hu with ⟨hl, hio⟩ | hb
      · obtain ⟨hv, hr⟩ := hg.blank hl
        refine ⟨pageValid_stepThread hv hio hs,
          rmap_stepThread h.inv.placed hr (fun r hpc => ?_) hs⟩
        simp [hpc, Pc.loading] at hl
      · exact hb
    · rw [put_pc_of_ne hut] at hu
      obtain ⟨hv, hr⟩ := hg.blank hu
      have hno : ∀ r y, p ∈ (Pc.get r y).locks → m.pc t ≠ .get r y := fun r y hy hpc =>
        h.inv.others (t := t) (by rw [hpc]; exact Or.inl hy) u hut (holds_of_loading hu)
      exact ⟨pageValid_stepThread hv (fun r => hno r (.io p) (by simp [Pc.locks])) hs,
        rmap_stepThread h.inv.placed hr (fun r => hno r (.done p) (by simp [Pc.locks])) hs⟩

lemma Guarded.start {k : Task} (hg : Guarded m) (hs : m.st.start e t k = .ok pc') :
    Guarded (m.put t m.st pc' m.log) := by
  have hpc : pc'.shielded = [] ∧ (∀ r p, pc' ≠ .mkwrite r p .map) ∧ pc'.loading = none := by
    rcases start_inv hs with ⟨vma, i, v, -, -, rfl⟩ | ⟨vma, i, v, p, w, -, -, -, rfl⟩ |
      ⟨qid, -, rfl⟩ | ⟨id, -, -, rfl⟩ | ⟨cb, v, -, rfl⟩
    case inr.inr.inr.inr => cases cb <;> simp [Pc.shielded, Pc.loading]
    all_goals simp [Pc.shielded, Pc.loading]
  obtain ⟨hsh, hmap, hload⟩ := hpc
  refine ⟨fun {a p} hp => ?_, fun {u r p} hu => ?_, fun {u p} hu => ?_⟩
  · obtain ⟨hd, hno⟩ := hg.writable hp
    refine ⟨hd, fun u hu => ?_⟩
    by_cases hut : u = t
    · subst hut
      rw [put_pc_self, hsh] at hu
      exact absurd hu List.not_mem_nil
    · rw [put_pc_of_ne hut] at hu
      exact hno u hu
  · by_cases hut : u = t
    · subst hut
      rw [put_pc_self] at hu
      exact absurd hu (hmap r p)
    · rw [put_pc_of_ne hut] at hu
      exact hg.ready hu
  · by_cases hut : u = t
    · subst hut
      rw [put_pc_self, hload] at hu
      exact absurd hu (by simp)
    · rw [put_pc_of_ne hut] at hu
      exact hg.blank hu

lemma guarded_quiescent (h : ∀ a p, s₀.pte a = .map p true → (s₀.pages p).isDirty = true) :
    Guarded (quiescent s₀) where
  writable hp := ⟨h _ _ hp, fun _ => List.not_mem_nil⟩
  ready hpc := by simp [quiescent] at hpc
  blank hpc := by simp [quiescent, Pc.loading] at hpc

/-! ### Mapped pages -/

/-- A page that an entry maps has been read. -/
lemma Guarded.valid_of_mapped (hg : Guarded m) (h : Sound e m) (hl : Loading e m)
    {a : VmaId × ℕ} {w : Bool} (hp : m.st.pte a = .map p w) :
    (m.st.pages p).pageValid = true := by
  by_contra hv
  obtain ⟨hu, j, hj, -⟩ := (h.charts.page p).entry (mapping_eq_some.mpr hp)
  obtain ⟨t, ht⟩ := hl.unread (p := p) (by simpa [State.unread, hv] using hu)
  exact Bool.false_ne_true (((hg.blank ht).2 j).symm.trans hj)

/-- A dirty page is in the radix tree of its file. -/
lemma Inv.rdx_of_dirty (h : Inv e m) (hu : (m.st.pages p).inUse = true)
    (hd : (m.st.pages p).isDirty = true) : (m.st.view e p).tree .rdx = true := by
  have hstage : ∀ {g}, At e p (m.Moved p) g (m.st.view e p) → (m.st.view e p).tree .rdx = true := by
    intro g hat
    rw [hat.rdx]
    cases g with
    | alone => exact absurd ((hat.isDirty rfl).symm.trans hd) (by simp)
    | _ => rfl
  by_cases hh : ∃ t, (m.pc t).Holds p
  · obtain ⟨t, hh⟩ := hh
    exact hstage ((h.page p).held hh).1
  · exact hstage (((h.page p).rest fun t ht => hh ⟨t, ht⟩).at_of_inUse hu)

/-- A page that an entry maps is the page of its file and block, and in the radix tree as long as
it is dirty. -/
lemma Sound.lookup_of_mapped (h : Sound e m) {vma : VmaId} {i : ℕ} {w : Bool}
    (hp : m.st.pte (vma, (m.st.vmas vma).addr i) = .map p w)
    (hr : (m.st.view e p).tree .rdx = true) : ∃ v, m.st.vmaPvd vma = some v ∧
      (m.st.pages p).pvd = some v ∧ (m.st.pages p).index = (m.st.vmas vma).vmPgoff + i ∧
      m.st.fmapRadixLookup e v ((m.st.vmas vma).vmPgoff + i) = some p := by
  have hhas := (h.charts.page p).has (mapping_eq_some.mpr hp)
  obtain ⟨v, hv, -⟩ := view_tree.mp hr
  have hpvd : m.st.vmaPvd vma = some v := hhas.pvd.symm.trans hv
  obtain ⟨j, hj, hi⟩ := hhas.place
  obtain rfl := VmArea.addr_injective _ hj
  exact ⟨v, hpvd, hv, hi, h.inv.placed.treeLookup_iff.mpr ⟨hr, hv, hi⟩⟩

/-! ### Every schedule -/

/-- A step at which nobody waits for the page that is allocated, a page that is mapped has a slot
for the area, and a release meets no writable entry. -/
def StepsRevoked (e : Env C) (m : Machine C) (l : Tid × Act C) (m' : Machine C) : Prop :=
  m.Revoked l.1 ∧ StepsInRoom e m l m'

/-- The invariants that the permissions rest on. -/
structure Secure (e : Env C) (m : Machine C) : Prop where
  sound : Sound e m
  loading : Loading e m
  guarded : Guarded m

lemma Secure.step (h : Secure e m) (hs : StepsRevoked e m l m') : Secure e m' := by
  obtain ⟨hrev, -, hu, hs⟩ := hs
  refine ⟨h.sound.step hu hs, h.loading.step hs, ?_⟩
  rcases steps_cases hs with ⟨k, pc', -, -, hk, rfl⟩ | ⟨c, s', pc', -, hk, rfl⟩
  · exact h.guarded.start hk
  · exact h.guarded.stepThread h.sound hrev hk

/-- What a start state has to satisfy: no page is in use that was not read, and what is writable is
dirty. -/
structure Fenced (e : Env C) (s : State C) : Prop where
  tidy : s.Tidy e
  read (p : PageId) : s.unread p = false
  writable {a : VmaId × ℕ} {p : PageId} : s.pte a = .map p true → (s.pages p).isDirty = true

lemma secure_quiescent (h : Fenced e s₀) : Secure e (quiescent s₀) :=
  ⟨sound_quiescent h.tidy, loading_quiescent h.read, guarded_quiescent fun _ _ => h.writable⟩

lemma fenced_initParams (e : Env C) (w : World C) : Fenced e (initParams e w) where
  tidy := tidy_initParams e w
  read _ := rfl
  writable hp := by simp [initParams] at hp

/-- In every schedule, an entry that a user can write through maps a page that has been read, is
dirty, and is what the radix tree of the file of the area has for the block of the entry. When no
thread holds the page, it is in the dirty queue where an evictor will find it. So no write goes to
a page that is taken for clean or that the cache has lost, as long as nobody claims a page that a
fault waits for, no page is mapped by more areas than it has slots, and a file is released after its
entries have lost their permission. -/
theorem writable_page_is_cached (e : Env C) (s₀ : State C) (h₀ : Fenced e s₀)
    (ls : List (Tid × Act C)) (m : Machine C) (hr : Run (StepsRevoked e) (quiescent s₀) ls m)
    (vma : VmaId) (i : ℕ) (p : PageId)
    (hp : m.st.pte (vma, (m.st.vmas vma).addr i) = .map p true) :
    (m.st.pages p).pageValid = true ∧ (m.st.pages p).isDirty = true ∧
      (∃ v, m.st.vmaPvd vma = some v ∧
        m.st.fmapRadixLookup e v ((m.st.vmas vma).vmPgoff + i) = some p) ∧
      ((∀ t, p ∉ (m.pc t).locks) →
        p ∈ (m.st.queues (dirtyQueue ((m.st.vmas vma).vmPgoff + i))).buffer) := by
  have h : Secure e m := hr.invariant (fun _ _ _ hm hs => hm.step hs) (secure_quiescent h₀)
  have hd := (h.guarded.writable hp).1
  have hu := ((h.sound.charts.page p).entry (mapping_eq_some.mpr hp)).1
  obtain ⟨v, hv, -, hi, hl⟩ := h.sound.lookup_of_mapped hp (h.sound.inv.rdx_of_dirty hu hd)
  refine ⟨h.guarded.valid_of_mapped h.sound h.loading hp, hd, ⟨v, hv, hl⟩, fun hno => ?_⟩
  have hun : ∀ t, ¬ (m.pc t).Holds p := fun t hh =>
    hh.elim (hno t) fun hf => h.sound.charts.unmapped_of_fresh hf hp
  have hat := ((h.sound.inv.page p).rest hun).at_of_inUse hu
  rw [← hi]
  refine (view_dirty e _ _).mp (hat.dirty.trans ?_)
  rw [show (m.st.view e p).page.isDirty = true from hd]
  rfl

/-! ### A write fault alone -/

/-- Without releases there is nothing to revoke. -/
lemma run_revoked (hr : Run (StepsUnclaimed e) (quiescent s₀) ls m)
    (hk : ∀ l ∈ ls, ∀ v, l.2 ≠ .start (.sync .release v)) :
    Run (StepsRevoked e) (quiescent s₀) ls m ∧ ∀ t a x, m.pc t = .sync a x → a.cb = .fsync := by
  induction hr with
  | nil => exact ⟨.nil, fun t a x hpc => by simp [quiescent] at hpc⟩
  | @snoc as l m₁ m₂ _ hs ih =>
    obtain ⟨hrun, hcb⟩ := ih fun l hl => hk l (List.mem_append_left _ hl)
    have hrev : m₁.Revoked l.1 := fun v p h pgs hpc => by simpa using hcb _ _ _ hpc
    refine ⟨hrun.snoc ⟨hrev, hs.inRoom⟩, fun t a x hpc => ?_⟩
    by_cases ht : t = l.1
    · subst ht
      rcases steps_cases hs.2 with ⟨k, pc', hl, -, hst, rfl⟩ | ⟨c, s', pc', -, hst, rfl⟩
      · rw [put_pc_self] at hpc
        subst hpc
        rcases start_inv hst with ⟨_, _, _, _, _, h⟩ | ⟨_, _, _, _, _, _, _, _, h⟩ | ⟨_, _, h⟩ |
          ⟨_, _, _, h⟩ | ⟨cb, v, rfl, h⟩
        case inr.inr.inr.inr =>
          cases h
          cases cb with
          | fsync => rfl
          | release => exact absurd hl (hk l (by simp) v)
        all_goals exact absurd h (by simp)
      · rw [put_pc_self] at hpc
        subst hpc
        -- a thread stays in its call
        have hf := (frame_stepThread hst).resolve_right (by simp)
        cases hold : m₁.pc l.1 with
        | sync b y =>
          rw [hold] at hf
          obtain rfl : a = b := by simpa [Pc.frame] using hf
          exact hcb _ _ _ hold
        | purge ret y => cases ret <;> simp [hold, Pc.frame] at hf
        | _ => simp [hold, Pc.frame] at hf
    · rcases steps_cases hs.2 with ⟨k, pc', -, -, -, rfl⟩ | ⟨c, s', pc', -, -, rfl⟩
      all_goals
        rw [put_pc_of_ne ht] at hpc
        exact hcb _ _ _ hpc

theorem writable_page_is_cached_written :
    ∃ m, Run (StepsRevoked onePageEnv) (quiescent (initParams onePageEnv smallWorld))
        writtenPage m ∧ m.st.pte (0, (m.st.vmas 0).addr 0) = .map 0 true ∧
      (m.st.pages 0).isDirty = true ∧
      0 ∈ (m.st.queues (dirtyQueue ((m.st.vmas 0).vmPgoff + 0))).buffer := by
  have h : ((nextAll onePageEnv (quiescent (initParams onePageEnv smallWorld)) writtenPage).map
      fun m => ((m.pc (.user 1)).isIdle, m.st.pte (0, (m.st.vmas 0).addr 0))) =
        some (true, .map 0 true) := by decide +kernel
  obtain ⟨m, hm, hp⟩ := Option.map_eq_some_iff.mp h
  obtain ⟨hidle, hpte⟩ := Prod.mk.inj hp
  obtain ⟨hr, hothers⟩ := run_alone (t := .user 1) (run_nextAll hm) (by decide)
  have hrun := (run_revoked hr (by simp [writtenPage, steps])).1
  have hno : ∀ t, 0 ∉ (m.pc t).locks := by
    intro t
    by_cases ht : t = .user 1
    · rw [ht]
      cases hpc : m.pc (.user 1) with
      | idle => simp [Pc.locks]
      | _ => simp [Pc.isIdle, hpc] at hidle
    · simp [hothers t ht, Pc.locks]
  obtain ⟨-, hd, -, hq⟩ := writable_page_is_cached _ _ (fenced_initParams _ _) _ m hrun 0 0 0 hpte
  exact ⟨m, hrun, hpte, hd, hq hno⟩

end Machine

end FastMap
