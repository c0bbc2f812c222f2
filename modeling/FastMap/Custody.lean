import FastMap.Locks

/-!
# Custody of the pages of a file

What purges, and faults of other files, do to the pages of a pvd: a fault never touches one, and a
purge touches one only while it holds its lock. Pages of the pvd come from nowhere, so what is said
here about them holds whatever the other files do to each other.
-/

namespace FastMap

variable {C : Type*}

/-- The page caches a block of the pvd. -/
def TaggedPage.OwnedBy (t : TaggedPage C) (v : PvdId) : Prop := t.inUse = true ∧ t.pvd = some v

namespace State

variable {e : Env C} {s s' s'' : State C} {v : PvdId} {p : PageId}

/-! ### Steps that leave the pages of the pvd alone -/

/-- The fields of a page that say whose it is and whether it is locked. -/
def core (t : TaggedPage C) : Bool × Option PvdId × Pgoff × Bool :=
  (t.inUse, t.pvd, t.index, t.locked)

/-- The pages of the pvd are the same, and its radix trees get no new entries. Free lists and other
trees are given only pages of others, and no page comes into use but `n`. -/
structure Untouched (v : PvdId) (n : Option PageId) (s s' : State C) : Prop where
  page {p : PageId} : (s.pages p).OwnedBy v → core (s'.pages p) = core (s.pages p)
  back {p : PageId} : (s'.pages p).OwnedBy v → (s.pages p).OwnedBy v
  used {p : PageId} : n ≠ some p → (s'.pages p).inUse = true →
    (s.pages p).inUse = true ∧ (s'.pages p).pvd = (s.pages p).pvd
  tree {cpu : ℕ} {i : Pgoff} {p : PageId} : (s'.trees ⟨.rdx, v, cpu⟩).lookup i = some p →
    (s.trees ⟨.rdx, v, cpu⟩).lookup i = some p
  other {w : PvdId} {cpu : ℕ} {i : Pgoff} {p : PageId} : w ≠ v →
    (s'.trees ⟨.rdx, w, cpu⟩).lookup i = some p →
      (s.trees ⟨.rdx, w, cpu⟩).lookup i = some p ∨ ¬ (s'.pages p).OwnedBy v
  free {cpu : ℕ} {p : PageId} : p ∈ s'.fl cpu → p ∈ s.fl cpu ∨ ¬ (s'.pages p).OwnedBy v

variable {n : Option PageId}

lemma ownedBy_of_core {t t' : TaggedPage C} (h : core t' = core t) :
    t'.OwnedBy v ↔ t.OwnedBy v := by
  simp only [core, Prod.mk.injEq] at h
  simp only [TaggedPage.OwnedBy, h.1, h.2.1]

namespace Untouched

lemma refl (v : PvdId) (n : Option PageId) (s : State C) : Untouched v n s s :=
  ⟨fun _ => rfl, id, fun _ h => ⟨h, rfl⟩, id, fun _ h => Or.inl h, Or.inl⟩

lemma trans (h : Untouched v n s s') (h' : Untouched v n s' s'') : Untouched v n s s'' where
  page hp := by
    have hcore := h.page hp
    exact (h'.page ((ownedBy_of_core hcore).mpr hp)).trans hcore
  back hp := h.back (h'.back hp)
  used hn hu := by
    obtain ⟨hu', hv'⟩ := h'.used hn hu
    obtain ⟨hu, hv⟩ := h.used hn hu'
    exact ⟨hu, hv'.trans hv⟩
  tree hl := h.tree (h'.tree hl)
  other hw hl := by
    rcases h'.other hw hl with hl | hno
    · rcases h.other hw hl with hl | hno
      · exact Or.inl hl
      · exact Or.inr fun ho => hno (h'.back ho)
    · exact Or.inr hno
  free hf := by
    rcases h'.free hf with hf | hno
    · rcases h.free hf with hf | hno
      · exact Or.inl hf
      · exact Or.inr fun ho => hno (h'.back ho)
    · exact Or.inr hno

lemma foldl {α : Type*} {f : State C → α → State C} (hf : ∀ s a, Untouched v n s (f s a))
    (l : List α) (s : State C) : Untouched v n s (l.foldl f s) := by
  induction l generalizing s with
  | nil => exact refl v n s
  | cons a l ih => exact (hf s a).trans (ih (f s a))

end Untouched

/-- Nothing of this has changed. -/
lemma untouched_of_eq (hp : ∀ p, core (s'.pages p) = core (s.pages p)) (ht : s'.trees = s.trees)
    (hf : s'.fl = s.fl) : Untouched v n s s' where
  page _ := hp _
  back := (ownedBy_of_core (hp _)).mp
  used {p} _ hu := by
    have hc := hp p
    simp only [core, Prod.mk.injEq] at hc
    exact ⟨hc.1 ▸ hu, hc.2.1⟩
  tree hl := by rwa [ht] at hl
  other _ hl := Or.inl (by rwa [ht] at hl)
  free hl := Or.inl (by rwa [hf] at hl)

/-- Assignment to other fields of any page. -/
lemma untouched_of_field {t : TaggedPage C} (hp : s'.pages = Function.update s.pages p t)
    (hc : core t = core (s.pages p)) (ht : s'.trees = s.trees) (hf : s'.fl = s.fl) :
    Untouched v n s s' := by
  refine untouched_of_eq (fun q => ?_) ht hf
  by_cases hq : q = p
  · rw [hp, hq, Function.update_self, hc]
  · rw [hp, Function.update_of_ne hq]

/-- Assignment to a page of others. -/
lemma untouched_of_other {t : TaggedPage C} (hp : s'.pages = Function.update s.pages p t)
    (hno : ¬ (s.pages p).OwnedBy v) (hno' : ¬ t.OwnedBy v)
    (hu : n ≠ some p → t.inUse = true → (s.pages p).inUse = true ∧ t.pvd = (s.pages p).pvd)
    (ht : s'.trees = s.trees) (hf : s'.fl = s.fl) : Untouched v n s s' where
  page {q} hq := by
    have hne : q ≠ p := by
      rintro rfl
      exact hno hq
    rw [hp, Function.update_of_ne hne]
  back {q} hq := by
    have hne : q ≠ p := by
      rintro rfl
      rw [hp, Function.update_self] at hq
      exact hno' hq
    rwa [hp, Function.update_of_ne hne] at hq
  used {q} hn hq := by
    by_cases hqp : q = p
    · subst hqp
      rw [hp, Function.update_self] at hq ⊢
      exact hu hn hq
    · rw [hp, Function.update_of_ne hqp] at hq ⊢
      exact ⟨hq, rfl⟩
  tree hl := by rwa [ht] at hl
  other _ hl := Or.inl (by rwa [ht] at hl)
  free hl := Or.inl (by rwa [hf] at hl)

lemma untouched_remove (s : State C) (q : Queue) (p : PageId) : Untouched v n s (s.remove q p) :=
  untouched_of_field (p := p) rfl rfl rfl rfl

lemma untouched_rotate (s : State C) (q : Queue) (p : PageId) : Untouched v n s (s.rotate q p) :=
  untouched_of_eq (fun _ => rfl) rfl rfl

lemma untouched_enqueue (s : State C) (q : Queue) (p : PageId) :
    Untouched v n s (s.enqueue q p).2 := by
  simp only [enqueue]
  split_ifs
  · exact untouched_of_eq (fun _ => rfl) rfl rfl
  · exact untouched_of_field (p := p) rfl rfl rfl rfl

lemma untouched_removeMappings (s : State C) (p : PageId) :
    Untouched v n s (s.removeMappings p) := by
  refine Untouched.foldl (fun s i => ?_) _ s
  dsimp only
  split_ifs
  · have hzap : Untouched v n s (s.zapPage p ((s.pages p).rmap i)) := by
      simp only [zapPage]
      split
      · split_ifs
        · exact untouched_of_eq (fun _ => rfl) rfl rfl
        · exact .refl v n s
      · exact .refl v n s
    exact hzap.trans (untouched_of_field (p := p) rfl rfl rfl rfl)
  · exact .refl v n s

lemma untouched_trylockTp (hno : ¬ (s.pages p).OwnedBy v) (i : Pgoff) :
    Untouched v n s (s.trylockTp p i).2 := by
  simp only [trylockTp]
  split_ifs
  · exact .refl v n s
  · exact .refl v n s
  · exact .refl v n s
  · exact untouched_of_other (p := p) rfl hno hno (fun _ hu => ⟨hu, rfl⟩) rfl rfl

lemma untouched_unlockTp (hno : ¬ (s.pages p).OwnedBy v) : Untouched v n s (s.unlockTp p) :=
  untouched_of_other (p := p) rfl hno hno (fun _ hu => ⟨hu, rfl⟩) rfl rfl

lemma not_ownedBy_freeClear (s : State C) (p : PageId) :
    ¬ ((s.freeClear p).pages p).OwnedBy v := by
  simp [freeClear, modifyPage, TaggedPage.OwnedBy]

/-- A page that is freed is nobody's. -/
lemma not_ownedBy_freePageLock (s : State C) (p : PageId) :
    ¬ ((s.freePageLock p).pages p).OwnedBy v := by
  simp [freePageLock, freeLink, unlockTp, freeClear, modifyPage, TaggedPage.OwnedBy]

lemma untouched_freePageLock (hno : ¬ (s.pages p).OwnedBy v) :
    Untouched v n s (s.freePageLock p) := by
  have hclear : Untouched v n s (s.freeClear p) :=
    untouched_of_other (p := p) rfl hno (by simp [TaggedPage.OwnedBy])
      (fun _ hu => absurd hu Bool.false_ne_true) rfl rfl
  have hunlock := hclear.trans (untouched_unlockTp (not_ownedBy_freeClear s p))
  refine hunlock.trans ⟨fun _ => rfl, id, fun _ hu => ⟨hu, rfl⟩, id, fun _ hl => Or.inl hl,
    fun {cpu q} hq => ?_⟩
  by_cases hqp : q = p
  · subst hqp
    exact Or.inr (not_ownedBy_freePageLock s q)
  · refine Or.inl ?_
    by_cases hcpu : cpu = (s.pages p).cpuid
    · subst hcpu
      simpa [freePageLock, freeLink, hqp] using hq
    · simpa [freePageLock, freeLink, hcpu] using hq

lemma untouched_treeInsert (hno : ¬ (s.pages p).OwnedBy v) {w : PvdId} (hw : w ≠ v) (i : Pgoff) :
    Untouched v n s (s.treeInsert e .rdx w i p) := by
  refine ⟨fun _ => rfl, id, fun _ hu => ⟨hu, rfl⟩, fun {cpu j q} hl => ?_,
    fun {w' cpu j q} hw' hl => ?_, Or.inl⟩
  · have hne : (⟨.rdx, v, cpu⟩ : TreeId) ≠ ⟨.rdx, w, i % e.ncpus⟩ := by
      intro heq
      exact hw (TreeId.mk.inj heq).2.1.symm
    simpa only [treeInsert, Function.update_of_ne hne] using hl
  · by_cases ht : (⟨.rdx, w', cpu⟩ : TreeId) = ⟨.rdx, w, i % e.ncpus⟩
    · simp only [treeInsert, ht, Function.update_self, KeyMap.lookup_insertNew] at hl
      split_ifs at hl with hji
      · cases hold : (s.trees ⟨.rdx, w, i % e.ncpus⟩).lookup i with
        | none =>
          rw [hold, Option.getD_none] at hl
          exact Or.inr (Option.some.inj hl ▸ hno)
        | some q' =>
          rw [hold, Option.getD_some] at hl
          rw [ht, hji]
          exact Or.inl (hold.trans hl)
      · rw [ht]
        exact Or.inl hl
    · simp only [treeInsert, Function.update_of_ne ht] at hl
      exact Or.inl hl

lemma lookup_treeErase {t u : TreeId} {i j : Pgoff}
    (h : ((s.treeErase t i).trees u).lookup j = some p) :
    (s.trees u).lookup j = some p ∧ ¬ (u = t ∧ j = i) := by
  by_cases hu : u = t
  · subst hu
    simp only [treeErase, Function.update_self, KeyMap.lookup_erase] at h
    split_ifs at h with hj
    exact ⟨h, fun hc => hj hc.2⟩
  · simp only [treeErase, Function.update_of_ne hu] at h
    exact ⟨h, fun hc => hu hc.1⟩

lemma untouched_treeErase (s : State C) (t : TreeId) (i : Pgoff) :
    Untouched v n s (s.treeErase t i) :=
  ⟨fun _ => rfl, id, fun _ hu => ⟨hu, rfl⟩, fun hl => (lookup_treeErase hl).1,
    fun _ hl => Or.inl (lookup_treeErase hl).1, Or.inl⟩

/-- The radix trees of the pvd hold its pages under their own indices, and the other trees and the
free lists hold none of them. -/
structure Own (e : Env C) (v : PvdId) (s : State C) : Prop where
  tree {cpu : ℕ} {i : Pgoff} {p : PageId} : (s.trees ⟨.rdx, v, cpu⟩).lookup i = some p →
    (s.pages p).OwnedBy v ∧ (s.pages p).index = i ∧ cpu = i % e.ncpus
  other {w : PvdId} {cpu : ℕ} {i : Pgoff} {p : PageId} : w ≠ v →
    (s.trees ⟨.rdx, w, cpu⟩).lookup i = some p → ¬ (s.pages p).OwnedBy v
  free {cpu : ℕ} {p : PageId} : p ∈ s.fl cpu → ¬ (s.pages p).OwnedBy v

lemma Own.untouched (h : s.Own e v) (hu : Untouched v n s s') : s'.Own e v where
  tree hl := by
    obtain ⟨ho, hi, hc⟩ := h.tree (hu.tree hl)
    have hcore := hu.page ho
    refine ⟨(ownedBy_of_core hcore).mpr ho, ?_, hc⟩
    simp only [core, Prod.mk.injEq] at hcore
    exact hcore.2.2.1.trans hi
  other hw hl := by
    rcases hu.other hw hl with hl | hno
    · exact fun ho => h.other hw hl (hu.back ho)
    · exact hno
  free hf := by
    rcases hu.free hf with hf | hno
    · exact fun ho => h.free hf (hu.back ho)
    · exact hno

/-- The pages that the loops of `alloc_page_lock` take are nobody's. -/
lemma Own.takeFree (h : s.Own e v) (cpus : List ℕ) : Untouched v n s (s.takeFree cpus).2 ∧
    ∀ p, (s.takeFree cpus).1 = some p → ¬ ((s.takeFree cpus).2.pages p).OwnedBy v := by
  induction cpus with
  | nil => exact ⟨.refl v n s, fun p hp => by cases hp⟩
  | cons cpu cpus ih =>
    simp only [State.takeFree]
    split
    · exact ih
    · rename_i p rest hfl
      have hfree : p ∈ s.fl cpu := hfl ▸ List.mem_cons_self
      have hno : ¬ (s.pages p).OwnedBy v := h.free hfree
      have hrest : Untouched v n s { s with fl := Function.update s.fl cpu rest } := by
        refine ⟨fun _ => rfl, id, fun _ hu => ⟨hu, rfl⟩, id, fun _ hl => Or.inl hl,
          fun {c q} hq => Or.inl ?_⟩
        by_cases hc : c = cpu
        · subst hc
          rw [hfl]
          exact List.mem_cons_of_mem p (by simpa using hq)
        · simpa [hc] using hq
      have hcpuid : Untouched v n { s with fl := Function.update s.fl cpu rest }
          (State.modifyPage { s with fl := Function.update s.fl cpu rest } p
            fun t => { t with cpuid := cpu }) :=
        untouched_of_field (p := p) rfl rfl rfl rfl
      have hfield := hrest.trans hcpuid
      refine ⟨hfield, fun q hq ho => ?_⟩
      obtain rfl := Option.some.inj hq
      exact hno (hfield.back ho)

lemma Own.scanNodes (h : s.Own e v) (nodes : List ℕ) (found : Option PageId)
    (hfound : ∀ p, found = some p → ¬ (s.pages p).OwnedBy v) :
    Untouched v n s (s.scanNodes e nodes found).2 ∧
      ∀ p, (s.scanNodes e nodes found).1 = some p →
        ¬ ((s.scanNodes e nodes found).2.pages p).OwnedBy v := by
  induction nodes generalizing s found with
  | nil => exact ⟨.refl v n s, hfound⟩
  | cons node nodes ih =>
    simp only [State.scanNodes]
    split
    · exact ih h found hfound
    · obtain ⟨hu, hno⟩ := h.takeFree (n := n) (e.cpumaskOfNode node)
      obtain ⟨hu', hno'⟩ := ih (h.untouched hu) _ hno
      exact ⟨hu.trans hu', hno'⟩

/-- The page that `alloc_page_lock` hands out becomes one of another pvd. -/
lemma Own.allocPageLock (h : s.Own e v) (node : ℕ) (i : Pgoff) {w : PvdId} (hw : w ≠ v) :
    Untouched v (s.allocPageLock e node i w).1 s (s.allocPageLock e node i w).2 ∧
      ∀ p, (s.allocPageLock e node i w).1 = some p →
        ¬ ((s.allocPageLock e node i w).2.pages p).OwnedBy v := by
  simp only [State.allocPageLock]
  split
  · rename_i s₁ hscan
    obtain ⟨hu, -⟩ := h.scanNodes (n := none) (e.numaDv node) none (by simp)
    rw [hscan] at hu
    exact ⟨hu, by simp⟩
  · rename_i p s₁ hscan
    obtain ⟨hu, hno⟩ := h.scanNodes (n := some p) (e.numaDv node) none (by simp)
    rw [hscan] at hu hno
    have hnew : ∀ t : TaggedPage C, t.pvd = some w → ¬ t.OwnedBy v := by
      intro t ht ho
      exact hw (Option.some.inj (ht.symm.trans ho.2))
    refine ⟨hu.trans (untouched_of_other (p := p) rfl (hno p rfl) (hnew _ rfl) ?_ rfl rfl), ?_⟩
    · intro hne
      exact absurd rfl hne
    · rintro q hq
      obtain rfl := Option.some.inj hq
      refine hnew _ ?_
      simp [modifyPage]

/-- No radix tree of the pvd holds the page. -/
def Out (v : PvdId) (s : State C) (p : PageId) : Prop :=
  ∀ cpu i, (s.trees ⟨.rdx, v, cpu⟩).lookup i ≠ some p

lemma Untouched.out (h : Untouched v n s s') (ho : s.Out v p) : s'.Out v p := by
  intro cpu i hl
  exact ho cpu i (h.tree hl)

end State

/-! ### The threads -/

/-- The page that a fault works on. -/
def GetPc.page? : GetPc → Option PageId
  | .lookup => none
  | .alloc => none
  | .fresh p => some p
  | .insert p => some p
  | .rollback p => some p
  | .enqueue p => some p
  | .io p => some p
  | .lock p => some p
  | .valid p => some p
  | .done p => some p
  | .map p => some p

/-- The pages that a purge has locked. -/
def PurgePc.pages : PurgePc → List PageId
  | .take _ _ pgs => pgs
  | .delete _ _ pgs p => pgs ++ [p]
  | .unmap _ _ pgs p => pgs ++ [p]
  | .free pgs => pgs

/-- Those of them that it has taken out of their radix trees. -/
def PurgePc.deleted : PurgePc → List PageId
  | .take _ _ pgs => pgs
  | .delete _ _ pgs _ => pgs
  | .unmap _ _ pgs p => pgs ++ [p]
  | .free pgs => pgs

def Pc.purged : Pc → List PageId
  | .purge _ x => x.pages
  | _ => []

def Pc.deleted : Pc → List PageId
  | .purge _ x => x.deleted
  | _ => []

/-- The thread is in a purge, or in a fault of another file, with a page that is not of the
pvd. -/
def Pc.Apart (v : PvdId) (s : State C) : Pc → Prop
  | .idle => True
  | .get r x => r.pvd ≠ v ∧ ∀ p, x.page? = some p → ¬ (s.pages p).OwnedBy v
  | .purge ret _ => ∀ r, ret = some r → r.pvd ≠ v
  | _ => False

/-- No page becomes one of the pvd. -/
lemma Pc.Apart.back {v : PvdId} {s s' : State C} {pc : Pc} (h : pc.Apart v s)
    (hback : ∀ p, (s'.pages p).OwnedBy v → (s.pages p).OwnedBy v) : pc.Apart v s' := by
  cases pc with
  | get r x => exact ⟨h.1, fun p hp ho => h.2 p hp (hback p ho)⟩
  | idle | mkwrite r p x | purge ret x | evict x | sync a x => exact h

namespace State

variable {e : Env C} {s s' : State C} {v : PvdId} {p : PageId} {n : Option PageId} {pc pc' : Pc}
  {r : Req} {ch : Choice C}

/-- The page that a step of a fault hands out. -/
def allocated (e : Env C) (s : State C) (ch : Choice C) : Pc → Option PageId
  | .get r .alloc => (s.allocPageLock e ch.node r.vmf.pgoff r.pvd).1
  | _ => none

lemma untouched_dmapDoPageIo (s : State C) (w : PvdId) (i : Pgoff) (p : PageId)
    (x : ReadResult C) : Untouched v n s (s.dmapDoPageIo w i p x) := by
  have hread : ∀ d, Untouched v n s (s.readPage d i p x) := by
    intro d
    cases x <;> exact untouched_of_field (p := p) rfl rfl rfl rfl
  have hfake : Untouched v n s (s.readOrFake w i p x) := by
    simp only [readOrFake]
    split
    · split_ifs
      · exact hread _
      · exact untouched_of_eq (fun _ => rfl) rfl rfl
    · exact hread _
  refine Untouched.trans ?_ (untouched_of_field (p := p) rfl rfl rfl rfl)
  split_ifs
  · exact .refl v n s
  · exact hfake

lemma untouched_dmapAddOrUpdateRmap {vmf : VmFault} {cpu : ℕ}
    (hs : s.dmapAddOrUpdateRmap vmf p cpu = .ok s') : Untouched v n s s' := by
  simp only [dmapAddOrUpdateRmap] at hs
  split at hs
  · rw [← Except.ok.inj hs]
    exact .refl v n s
  · split at hs
    · exact absurd hs (by simp)
    · split at hs
      · exact absurd hs (by simp)
      · rw [← Except.ok.inj hs]
        exact untouched_of_field (p := p) rfl rfl rfl rfl

lemma untouched_finishFault (hno : ¬ (s.pages p).OwnedBy v) (vmf : VmFault) :
    Untouched v n s (s.finishFault vmf p) := by
  have hpte : Untouched v n s (if s.pte (vmf.vma, vmf.address) = .none then
      s.setPte vmf.vma vmf.address (.map p false) else s) := by
    split_ifs
    · exact untouched_of_eq (fun _ => rfl) rfl rfl
    · exact .refl v n s
  exact hpte.trans (untouched_unlockTp fun ho => hno (hpte.back ho))

/-- A fault of another file touches no page of the pvd. -/
lemma Own.stepGet (h : s.Own e v) {x : GetPc} (ha : (Pc.get r x).Apart v s)
    (hs : s.stepGet e ch r x = .ok (s', pc')) :
    Untouched v (s.allocated e ch (.get r x)) s s' ∧ pc'.Apart v s' ∧ pc'.purged = [] := by
  obtain ⟨hr, hx⟩ := ha
  cases x with
  | lookup =>
    simp only [State.stepGet] at hs
    split at hs
    · obtain ⟨rfl, rfl⟩ := Prod.mk.inj (Except.ok.inj hs)
      exact ⟨.refl _ _ _, ⟨hr, by simp [GetPc.page?]⟩, rfl⟩
    · rename_i p hp
      obtain ⟨rfl, rfl⟩ := Prod.mk.inj (Except.ok.inj hs)
      refine ⟨.refl _ _ _, ⟨hr, fun q hq => ?_⟩, rfl⟩
      obtain rfl : p = q := Option.some.inj hq
      exact h.other hr hp
  | alloc =>
    obtain ⟨hu, hno⟩ := h.allocPageLock (e := e) ch.node r.vmf.pgoff hr
    simp only [State.stepGet] at hs
    simp only [allocated]
    split at hs
    · rename_i s₁ heq
      rw [heq] at hu ⊢
      obtain ⟨rfl, rfl⟩ := Prod.mk.inj (Except.ok.inj hs)
      refine ⟨hu, fun r' hr' => ?_, rfl⟩
      exact Option.some.inj hr' ▸ hr
    · rename_i p s₁ heq
      rw [heq] at hu hno ⊢
      obtain ⟨rfl, rfl⟩ := Prod.mk.inj (Except.ok.inj hs)
      refine ⟨hu, ⟨hr, fun q hq => ?_⟩, rfl⟩
      exact hno q hq
  | fresh p =>
    obtain ⟨rfl, rfl⟩ := Prod.mk.inj (Except.ok.inj hs)
    have hu := untouched_trylockTp (n := none) (hx p rfl) ulongMax
    exact ⟨hu, ⟨hr, fun q hq ho => hx q hq (hu.back ho)⟩, rfl⟩
  | insert p =>
    have hu := untouched_treeInsert (e := e) (n := none) (hx p rfl) hr r.vmf.pgoff
    simp only [State.stepGet, fmapRadixInsert] at hs
    split at hs
    all_goals
      rename_i heq
      obtain ⟨-, rfl⟩ := Prod.mk.inj heq
      obtain ⟨rfl, rfl⟩ := Prod.mk.inj (Except.ok.inj hs)
      exact ⟨hu, ⟨hr, fun q hq ho => hx q hq (hu.back ho)⟩, rfl⟩
  | rollback p =>
    obtain ⟨rfl, rfl⟩ := Prod.mk.inj (Except.ok.inj hs)
    exact ⟨untouched_freePageLock (hx p rfl), ⟨hr, by simp [GetPc.page?]⟩, rfl⟩
  | enqueue p =>
    obtain ⟨rfl, rfl⟩ := Prod.mk.inj (Except.ok.inj hs)
    have hu : Untouched v none s (s.insertPage p false) := untouched_enqueue s _ p
    exact ⟨hu, ⟨hr, fun q hq ho => hx q hq (hu.back ho)⟩, rfl⟩
  | io p =>
    obtain ⟨rfl, rfl⟩ := Prod.mk.inj (Except.ok.inj hs)
    have hu := untouched_dmapDoPageIo (v := v) (n := none) s r.pvd r.vmf.pgoff p ch.read
    exact ⟨hu, ⟨hr, fun q hq ho => hx q hq (hu.back ho)⟩, rfl⟩
  | lock p =>
    have hu := untouched_trylockTp (n := none) (hx p rfl) ulongMax
    simp only [State.stepGet] at hs
    split at hs
    · rename_i heq
      rw [heq] at hu
      obtain ⟨rfl, rfl⟩ := Prod.mk.inj (Except.ok.inj hs)
      exact ⟨hu, ⟨hr, fun q hq ho => hx q hq (hu.back ho)⟩, rfl⟩
    · rename_i heq
      rw [heq] at hu
      obtain ⟨rfl, rfl⟩ := Prod.mk.inj (Except.ok.inj hs)
      exact ⟨hu, ⟨hr, by simp [GetPc.page?]⟩, rfl⟩
  | valid p =>
    simp only [State.stepGet] at hs
    split_ifs at hs
    obtain ⟨rfl, rfl⟩ := Prod.mk.inj (Except.ok.inj hs)
    exact ⟨.refl _ _ _, ⟨hr, hx⟩, rfl⟩
  | done p =>
    simp only [State.stepGet] at hs
    obtain ⟨s₁, hd, hs⟩ := Except.map_eq_ok.mp hs
    obtain ⟨rfl, rfl⟩ := Prod.mk.inj hs
    have hu := untouched_dmapAddOrUpdateRmap (v := v) (n := none) hd
    exact ⟨hu, ⟨hr, fun q hq ho => hx q hq (hu.back ho)⟩, rfl⟩
  | map p =>
    obtain ⟨rfl, rfl⟩ := Prod.mk.inj (Except.ok.inj hs)
    exact ⟨untouched_finishFault (hx p rfl) r.vmf, trivial, rfl⟩

/-- The page is in no radix tree of the pvd once its own key is erased. -/
lemma Own.out_treeErase (h : s.Own e v) :
    (s.treeErase ⟨.rdx, v, (s.pages p).index % e.ncpus⟩ (s.pages p).index).Out v p := by
  intro cpu i hl
  obtain ⟨hl, hne⟩ := lookup_treeErase hl
  obtain ⟨-, rfl, rfl⟩ := h.tree hl
  exact hne ⟨rfl, rfl⟩

/-! ### Custody -/

/-- A page of the pvd that is held, by a thread or by the loop (`none`), is locked and held by
nobody else. What a holder has deleted is in no radix tree of the pvd. A page that the loop waits
for is not in use for anybody else. -/
structure Custody (e : Env C) (v : PvdId) (s : State C) (held gone : Option Tid → List PageId)
    (waits : Option PageId) : Prop where
  own : s.Own e v
  locked {x : Option Tid} {p : PageId} : p ∈ held x → (s.pages p).OwnedBy v →
    (s.pages p).locked = true
  once {x : Option Tid} {p : PageId} : (s.pages p).OwnedBy v → (held x).count p ≤ 1
  one {x y : Option Tid} {p : PageId} : (s.pages p).OwnedBy v → p ∈ held x → p ∈ held y → x = y
  gone {x : Option Tid} {p : PageId} : p ∈ gone x → (s.pages p).OwnedBy v → s.Out v p
  mine {p : PageId} : p ∈ held none → (s.pages p).OwnedBy v
  waits {p : PageId} : waits = some p →
    ((s.pages p).inUse = true → (s.pages p).pvd = some v) ∧ s.Out v p

variable {held gone : Option Tid → List PageId} {waits : Option PageId} {x : Option Tid}
  {l g : List PageId}

/-- A step that leaves the pages of the pvd alone. -/
lemma Custody.untouched (h : Custody e v s held gone waits) (hu : Untouched v n s s')
    (hn : ∀ q, n = some q → waits ≠ some q) (hl : l.Sublist (held x))
    (hg : ∀ q ∈ g, (s'.pages q).OwnedBy v → s'.Out v q) :
    Custody e v s' (Function.update held x l) (Function.update gone x g) waits := by
  have hsub : ∀ y, (Function.update held x l y).Sublist (held y) := by
    intro y
    by_cases hy : y = x
    · subst hy
      rw [Function.update_self]
      exact hl
    · rw [Function.update_of_ne hy]
  refine ⟨h.own.untouched hu, fun {y q} hq ho => ?_, fun {y q} ho => ?_, fun ho hq hq' => ?_,
    fun {y q} hq ho => ?_, fun hq => ?_, fun {q} hw => ?_⟩
  · have hcore := hu.page (hu.back ho)
    simp only [core, Prod.mk.injEq] at hcore
    rw [hcore.2.2.2]
    exact h.locked ((hsub y).subset hq) (hu.back ho)
  · exact ((hsub y).count_le q).trans (h.once (hu.back ho))
  · exact h.one (hu.back ho) ((hsub _).subset hq) ((hsub _).subset hq')
  · by_cases hy : y = x
    · subst hy
      rw [Function.update_self] at hq
      exact hg q hq ho
    · rw [Function.update_of_ne hy] at hq
      exact hu.out (h.gone hq (hu.back ho))
  · have ho := h.mine ((hsub _).subset hq)
    exact (ownedBy_of_core (hu.page ho)).mpr ho
  · obtain ⟨hv, hout⟩ := h.waits hw
    refine ⟨fun huse => ?_, hu.out hout⟩
    obtain ⟨huse', hpvd⟩ := hu.used (fun hnq => hn q hnq hw) huse
    exact hpvd.trans (hv huse')

/-- The loop waits for another page, or for none. -/
lemma Custody.await (h : Custody e v s held gone waits) {w : Option PageId}
    (hw : ∀ p, w = some p →
      ((s.pages p).inUse = true → (s.pages p).pvd = some v) ∧ s.Out v p) :
    Custody e v s held gone w :=
  { h with waits := fun {p} hp => hw p hp }

section setLocked

variable (s) (p : PageId) (b : Bool)

lemma fields_setLocked (q : PageId) :
    ((s.modifyPage p fun t => { t with locked := b }).pages q).inUse = (s.pages q).inUse ∧
    ((s.modifyPage p fun t => { t with locked := b }).pages q).pvd = (s.pages q).pvd ∧
    ((s.modifyPage p fun t => { t with locked := b }).pages q).index = (s.pages q).index := by
  by_cases hq : q = p <;> simp [modifyPage, hq]

lemma ownedBy_setLocked (q : PageId) :
    ((s.modifyPage p fun t => { t with locked := b }).pages q).OwnedBy v ↔
      (s.pages q).OwnedBy v := by
  obtain ⟨huse, hpvd, -⟩ := fields_setLocked s p b q
  rw [TaggedPage.OwnedBy, TaggedPage.OwnedBy, huse, hpvd]

variable {s}

/-- Locking or unlocking a page does not change whose it is. -/
lemma Own.setLocked (h : s.Own e v) : (s.modifyPage p fun t => { t with locked := b }).Own e v where
  tree hl := by
    rw [ownedBy_setLocked, (fields_setLocked s p b _).2.2]
    exact h.tree hl
  other hw hl := by
    rw [ownedBy_setLocked]
    exact h.other hw hl
  free hf := by
    rw [ownedBy_setLocked]
    exact h.free hf

end setLocked

/-- A page that was not locked comes into the hands of a holder. -/
lemma Custody.lock (h : Custody e v s held gone waits) (hp : (s.pages p).locked = false)
    (hx : x = none → (s.pages p).OwnedBy v) (hg : ∀ q ∈ g, (s.pages q).OwnedBy v → s.Out v q) :
    Custody e v (s.modifyPage p fun t => { t with locked := true })
      (Function.update held x (held x ++ [p])) (Function.update gone x g) waits := by
  set s' := s.modifyPage p fun t => { t with locked := true } with hs'
  have hown : ∀ q, (s'.pages q).OwnedBy v ↔ (s.pages q).OwnedBy v := ownedBy_setLocked s p true
  -- nobody has held the page, if it is one of the pvd
  have hfree : (s.pages p).OwnedBy v → ∀ y, p ∉ held y := by
    intro ho y hy
    exact Bool.false_ne_true (hp.symm.trans (h.locked hy ho))
  have hcase : ∀ {y q}, q ∈ Function.update held x (held x ++ [p]) y →
      (y = x ∧ q = p) ∨ q ∈ held y := by
    intro y q hq
    by_cases hy : y = x
    · subst hy
      rw [Function.update_self, List.mem_append, List.mem_singleton] at hq
      exact hq.symm.imp_left fun hqp => ⟨rfl, hqp⟩
    · rw [Function.update_of_ne hy] at hq
      exact Or.inr hq
  refine ⟨h.own.setLocked p true, fun {y q} hq ho => ?_, fun {y q} ho => ?_,
    fun {y z q} ho hq hq' => ?_, fun {y q} hq ho => ?_, fun {q} hq => ?_, fun {q} hw => ?_⟩
  · by_cases hqp : q = p
    · simp [hs', modifyPage, hqp]
    · have hmem := (hcase hq).resolve_left fun hc => hqp hc.2
      simpa [hs', modifyPage, hqp] using h.locked hmem ((hown q).mp ho)
  · rw [hown] at ho
    by_cases hy : y = x
    · subst hy
      rw [Function.update_self, List.count_append]
      by_cases hqp : q = p
      · subst hqp
        have hzero := List.count_eq_zero.mpr (hfree ho y)
        simp [hzero]
      · have hle := h.once (x := y) ho
        simpa [List.count_singleton, Ne.symm hqp] using hle
    · rw [Function.update_of_ne hy]
      exact h.once ho
  · rw [hown] at ho
    rcases hcase hq with ⟨rfl, rfl⟩ | hmem <;> rcases hcase hq' with ⟨rfl, hqp⟩ | hmem'
    · rfl
    · exact absurd hmem' (hfree ho z)
    · subst hqp
      exact absurd hmem (hfree ho y)
    · exact h.one ho hmem hmem'
  · rw [hown] at ho
    by_cases hy : y = x
    · subst hy
      rw [Function.update_self] at hq
      exact hg q hq ho
    · rw [Function.update_of_ne hy] at hq
      exact h.gone hq ho
  · rw [hown]
    rcases hcase hq with ⟨hx', rfl⟩ | hq
    · exact hx hx'.symm
    · exact h.mine hq
  · obtain ⟨huse, hpvd, -⟩ := fields_setLocked s p true q
    rw [huse, hpvd]
    exact h.waits hw

/-- A holder frees a page that it has deleted. -/
lemma Custody.free (h : Custody e v s held gone waits) (hx : held x = p :: l) (hp : p ∈ gone x)
    (hg : ∀ q ∈ g, q ∈ gone x) :
    Custody e v (s.freePageLock p) (Function.update held x l) (Function.update gone x g) waits := by
  by_cases ho : (s.pages p).OwnedBy v
  · set s' := s.freePageLock p with hs'
    have hout := h.gone hp ho
    have hother : ∀ {q}, q ≠ p → s'.pages q = s.pages q := by
      intro q hq
      simp [hs', freePageLock, freeLink, unlockTp, freeClear, modifyPage, hq]
    have hno : ¬ (s'.pages p).OwnedBy v := not_ownedBy_freePageLock s p
    have hne : ∀ {q}, (s'.pages q).OwnedBy v → q ≠ p ∧ (s.pages q).OwnedBy v := by
      intro q hq
      have hqp : q ≠ p := by
        rintro rfl
        exact hno hq
      exact ⟨hqp, hother hqp ▸ hq⟩
    have hsub : ∀ y, (Function.update held x l y).Sublist (held y) := by
      intro y
      by_cases hy : y = x
      · subst hy
        rw [Function.update_self, hx]
        exact List.sublist_cons_self p l
      · rw [Function.update_of_ne hy]
    -- the page was held once, and by this holder only
    have hgone : ∀ y, p ∉ Function.update held x l y := by
      intro y hq
      have hy : y = x := h.one ho ((hsub y).subset hq) (hx ▸ List.mem_cons_self)
      subst hy
      rw [Function.update_self] at hq
      have hcount := h.once (x := y) ho
      rw [hx, List.count_cons_self] at hcount
      have hpos := List.count_pos_iff.mpr hq
      omega
    refine ⟨⟨fun {cpu i q} hl => ?_, fun {w cpu i q} hw hl hq => ?_, fun {cpu q} hf hq => ?_⟩,
      fun {y q} hq hq' => ?_, fun {y q} hq => ?_, fun {y z q} hq hy hz => ?_,
      fun {y q} hq hq' => ?_, fun {q} hq => ?_, fun {q} hw => ?_⟩
    · have hqp : q ≠ p := by
        rintro rfl
        exact hout cpu i hl
      rw [hother hqp]
      exact h.own.tree hl
    · exact h.own.other hw hl (hne hq).2
    · obtain ⟨hqp, hq⟩ := hne hq
      suffices hfree : q ∈ s.fl cpu from h.own.free hfree hq
      by_cases hcpu : cpu = (s.pages p).cpuid
      · subst hcpu
        simpa [hs', freePageLock, freeLink, hqp, unlockTp, freeClear, modifyPage] using hf
      · simpa [hs', freePageLock, freeLink, hcpu, unlockTp, freeClear, modifyPage] using hf
    · obtain ⟨hqp, hq'⟩ := hne hq'
      rw [hother hqp]
      exact h.locked ((hsub y).subset hq) hq'
    · exact ((hsub y).count_le q).trans (h.once (hne hq).2)
    · exact h.one (hne hq).2 ((hsub y).subset hy) ((hsub z).subset hz)
    · refine h.gone (x := y) ?_ (hne hq').2
      by_cases hy : y = x
      · subst hy
        rw [Function.update_self] at hq
        exact hg q hq
      · rwa [Function.update_of_ne hy] at hq
    · have hqp : q ≠ p := by
        rintro rfl
        exact hgone none hq
      rw [hother hqp]
      exact h.mine ((hsub none).subset hq)
    · refine ⟨fun huse => ?_, (h.waits hw).2⟩
      by_cases hqp : q = p
      · subst hqp
        simp [hs', freePageLock, freeLink, unlockTp, freeClear, modifyPage] at huse
      · rw [hother hqp] at huse ⊢
        exact (h.waits hw).1 huse
  · have hu := untouched_freePageLock (n := none) ho
    refine h.untouched hu (by simp) ?_ fun q hq hq' => ?_
    · rw [hx]
      exact List.sublist_cons_self p l
    · exact hu.out (h.gone (hg q hq) (hu.back hq'))

/-- The loop gives a page back that it does not free. -/
lemma Custody.unlock (h : Custody e v s held gone waits) (hx : held none = [p]) :
    Custody e v (s.unlockTp p) (Function.update held none []) (Function.update gone none [])
      waits := by
  have ho : (s.pages p).OwnedBy v := h.mine (hx ▸ List.mem_singleton_self p)
  set s' := s.unlockTp p with hs'
  have hother : ∀ {q}, q ≠ p → s'.pages q = s.pages q := by
    intro q hq
    simp [hs', unlockTp, modifyPage, hq]
  have hown : ∀ q, (s'.pages q).OwnedBy v ↔ (s.pages q).OwnedBy v := ownedBy_setLocked s p false
  have hsub : ∀ {l : Option Tid → List PageId} {y q}, q ∈ Function.update l none [] y →
      y ≠ none ∧ q ∈ l y := by
    intro l y q hq
    by_cases hy : y = none
    · subst hy
      rw [Function.update_self] at hq
      exact absurd hq List.not_mem_nil
    · rw [Function.update_of_ne hy] at hq
      exact ⟨hy, hq⟩
  refine ⟨h.own.setLocked p false, fun {y q} hq hq' => ?_, fun {y q} hq => ?_,
    fun hq hy hz => ?_, fun {y q} hq hq' => ?_, fun hq => ?_, fun {q} hw => ?_⟩
  · obtain ⟨hy, hq⟩ := hsub hq
    have hqp : q ≠ p := by
      rintro rfl
      exact hy (h.one ho hq (hx ▸ List.mem_singleton_self q))
    rw [hother hqp]
    exact h.locked hq ((hown q).mp hq')
  · rw [hown] at hq
    by_cases hy : y = none
    · subst hy
      simp
    · rw [Function.update_of_ne hy]
      exact h.once hq
  · rw [hown] at hq
    exact h.one hq (hsub hy).2 (hsub hz).2
  · rw [hown] at hq'
    exact h.gone (hsub hq).2 hq'
  · exact absurd rfl (hsub hq).1
  · obtain ⟨huse, hpvd, -⟩ := fields_setLocked s p false q
    rw [hs', unlockTp, huse, hpvd]
    exact h.waits hw

/-- A page that `trylock_tp` locks was in use and not locked. -/
lemma trylockTp_zero {i : Pgoff} (h : s.trylockTp p i = (0, s')) :
    (s.pages p).inUse = true ∧ (s.pages p).locked = false ∧
      s' = s.modifyPage p fun t => { t with locked := true } := by
  simp only [trylockTp] at h
  split_ifs at h with hu hi hl
  · simp at h
  · simp at h
  · simp at h
  · exact ⟨by simpa using hu, by simpa using hl, (Prod.mk.inj h).2.symm⟩

lemma trylockTp_fail {i : Pgoff} {z : ℤ} (h : s.trylockTp p i = (z, s')) (hz : z ≠ 0) : s' = s := by
  simp only [trylockTp] at h
  split_ifs at h
  · exact (Prod.mk.inj h).2.symm
  · exact (Prod.mk.inj h).2.symm
  · exact (Prod.mk.inj h).2.symm
  · exact absurd (Prod.mk.inj h).1.symm hz

/-- A purge takes a page by locking it. -/
lemma dequeueIf_deq {qid : ℕ} {a : Option PageId} (h : s.dequeueIf (.clean qid) deq = (a, s')) :
    (a = none ∧ Untouched v none s s') ∨ ∃ p, a = some p ∧ (s.pages p).locked = false ∧
      Untouched v none (s.modifyPage p fun t => { t with locked := true }) s' := by
  simp only [dequeueIf] at h
  split_ifs at h
  · obtain ⟨rfl, rfl⟩ := Prod.mk.inj h
    exact Or.inl ⟨rfl, .refl _ _ _⟩
  · split at h
    · obtain ⟨rfl, rfl⟩ := Prod.mk.inj h
      exact Or.inl ⟨rfl, .refl _ _ _⟩
    · rename_i p rest hb
      -- the condition fails without effect, or locks the page
      have hdeq : (deq s p = (false, s)) ∨ (s.pages p).locked = false ∧
          deq s p = (true, s.modifyPage p fun t => { t with locked := true }) := by
        simp only [deq]
        split
        · exact Or.inl rfl
        · split_ifs
          · exact Or.inl rfl
          · cases ht : s.trylockTp p ulongMax with
            | mk z s₁ =>
              by_cases hz : z = 0
              · subst hz
                obtain ⟨-, hl, rfl⟩ := trylockTp_zero ht
                exact Or.inr ⟨hl, rfl⟩
              · rw [trylockTp_fail ht hz]
                exact Or.inl (by simp [hz])
      rcases hdeq with hd | ⟨hl, hd⟩
      · rw [hd] at h
        obtain ⟨rfl, rfl⟩ := Prod.mk.inj h
        exact Or.inl ⟨rfl, untouched_rotate s _ p⟩
      · rw [hd] at h
        obtain ⟨rfl, rfl⟩ := Prod.mk.inj h
        exact Or.inr ⟨p, rfl, hl, untouched_remove _ _ p⟩

/-- A step of a purge by thread `t`. -/
lemma Custody.stepPurge {t : Tid} {ret : Option Req} {y : PurgePc}
    (h : Custody e v s held gone waits) (hh : held (some t) = y.pages)
    (hgo : gone (some t) = y.deleted) (hs : s.stepPurge e ret y = .ok (s', pc')) :
    Custody e v s' (Function.update held (some t) pc'.purged)
      (Function.update gone (some t) pc'.deleted) waits := by
  have hold : ∀ q ∈ y.deleted, (s.pages q).OwnedBy v → s.Out v q := by
    intro q hq
    exact h.gone (hgo ▸ hq)
  -- a step that leaves the pages of the pvd alone, and adds none to those of the purge
  have hkeep : Untouched v none s s' → pc'.purged.Sublist y.pages →
      (∀ q ∈ pc'.deleted, (s'.pages q).OwnedBy v → s'.Out v q) →
      Custody e v s' (Function.update held (some t) pc'.purged)
        (Function.update gone (some t) pc'.deleted) waits := by
    intro hu hl hd
    exact h.untouched hu (by simp) (hh ▸ hl) hd
  cases y with
  | take qid k pgs =>
    cases k with
    | zero =>
      obtain ⟨rfl, rfl⟩ := Prod.mk.inj (Except.ok.inj hs)
      exact hkeep (.refl _ _ _) (List.Sublist.refl _) hold
    | succ k =>
      simp only [State.stepPurge] at hs
      cases hd : s.dequeueIf (.clean qid) deq with
      | mk a s₁ =>
        rcases dequeueIf_deq (v := v) hd with ⟨rfl, hu⟩ | ⟨p, rfl, hl, hu⟩
        · simp only [hd] at hs
          obtain ⟨rfl, rfl⟩ := Prod.mk.inj (Except.ok.inj hs)
          exact hkeep hu (List.Sublist.refl _) fun q hq ho => hu.out (hold q hq (hu.back ho))
        · simp only [hd] at hs
          obtain ⟨rfl, rfl⟩ := Prod.mk.inj (Except.ok.inj hs)
          have hlock := h.lock (x := some t) (g := pgs) hl (by simp) hold
          have hrem := hlock.untouched (x := some t) (l := pgs ++ [p]) (g := pgs) hu (by simp) ?_ ?_
          · simpa [Pc.purged, Pc.deleted, PurgePc.pages, PurgePc.deleted] using hrem
          · rw [Function.update_self, hh]
            exact List.Sublist.refl _
          · intro q hq ho
            exact hu.out (hlock.gone (x := some t) (by simpa using hq) (hu.back ho))
  | delete qid k pgs p =>
    simp only [State.stepPurge] at hs
    split at hs
    · exact absurd hs (by simp)
    · rename_i w hw
      obtain ⟨rfl, rfl⟩ := Prod.mk.inj (Except.ok.inj hs)
      have hu := untouched_treeErase (v := v) (n := none) s
        ⟨.rdx, w, (s.pages p).index % e.ncpus⟩ (s.pages p).index
      refine hkeep hu (List.Sublist.refl _) fun q hq ho => ?_
      rcases List.mem_append.mp hq with hq | hq
      · exact hu.out (hold q hq (hu.back ho))
      · obtain rfl := List.mem_singleton.mp hq
        obtain rfl : w = v := Option.some.inj (hw.symm.trans (hu.back ho).2)
        exact h.own.out_treeErase
  | unmap qid k pgs p =>
    obtain ⟨rfl, rfl⟩ := Prod.mk.inj (Except.ok.inj hs)
    have hu := untouched_removeMappings (v := v) (n := none) s p
    exact hkeep hu (List.Sublist.refl _) fun q hq ho => hu.out (hold q hq (hu.back ho))
  | free pgs =>
    cases pgs with
    | nil =>
      obtain ⟨rfl, rfl⟩ := Prod.mk.inj (Except.ok.inj hs)
      have hnil : (purgeReturn ret).purged = [] ∧ (purgeReturn ret).deleted = [] := by
        cases ret <;> exact ⟨rfl, rfl⟩
      refine hkeep (.refl _ _ _) ?_ ?_
      · rw [hnil.1]
        exact List.nil_sublist _
      · rw [hnil.2]
        simp
    | cons p pgs =>
      obtain ⟨rfl, rfl⟩ := Prod.mk.inj (Except.ok.inj hs)
      refine h.free hh (hgo ▸ List.mem_cons_self) fun q hq => ?_
      rw [hgo]
      exact List.mem_cons_of_mem p hq

lemma back_freePageLock {q : PageId} (ho : ((s.freePageLock p).pages q).OwnedBy v) :
    (s.pages q).OwnedBy v := by
  have hqp : q ≠ p := by
    rintro rfl
    exact not_ownedBy_freePageLock s q ho
  simpa [freePageLock, freeLink, unlockTp, freeClear, modifyPage, hqp] using ho

lemma back_lock {q : PageId}
    (ho : ((s.modifyPage p fun t => { t with locked := true }).pages q).OwnedBy v) :
    (s.pages q).OwnedBy v := by
  by_cases hq : q = p
  · subst hq
    simpa [modifyPage, TaggedPage.OwnedBy] using ho
  · simpa [modifyPage, hq] using ho

/-- A purge gives the pvd no page. -/
lemma back_stepPurge {ret : Option Req} {y : PurgePc} (hs : s.stepPurge e ret y = .ok (s', pc'))
    {q : PageId} (ho : (s'.pages q).OwnedBy v) : (s.pages q).OwnedBy v := by
  cases y with
  | take qid k pgs =>
    cases k with
    | zero =>
      obtain ⟨rfl, -⟩ := Prod.mk.inj (Except.ok.inj hs)
      exact ho
    | succ k =>
      simp only [stepPurge] at hs
      cases hd : s.dequeueIf (.clean qid) deq with
      | mk a s₁ =>
        rcases dequeueIf_deq (v := v) hd with ⟨rfl, hu⟩ | ⟨p, rfl, -, hu⟩
        · simp only [hd] at hs
          obtain ⟨rfl, -⟩ := Prod.mk.inj (Except.ok.inj hs)
          exact hu.back ho
        · simp only [hd] at hs
          obtain ⟨rfl, -⟩ := Prod.mk.inj (Except.ok.inj hs)
          exact back_lock (hu.back ho)
  | delete qid k pgs p =>
    simp only [stepPurge] at hs
    split at hs
    · exact absurd hs (by simp)
    · obtain ⟨rfl, -⟩ := Prod.mk.inj (Except.ok.inj hs)
      exact ho
  | unmap qid k pgs p =>
    obtain ⟨rfl, -⟩ := Prod.mk.inj (Except.ok.inj hs)
    exact (untouched_removeMappings (n := none) s p).back ho
  | free pgs =>
    cases pgs with
    | nil =>
      obtain ⟨rfl, -⟩ := Prod.mk.inj (Except.ok.inj hs)
      exact ho
    | cons p pgs =>
      obtain ⟨rfl, -⟩ := Prod.mk.inj (Except.ok.inj hs)
      exact back_freePageLock ho

/-- The thread stays in the purge, or returns to the fault that has made it. -/
lemma apart_stepPurge {ret : Option Req} {y : PurgePc} (ha : (Pc.purge ret y).Apart v s)
    (hs : s.stepPurge e ret y = .ok (s', pc')) : pc'.Apart v s' := by
  have hret : ∀ y', (Pc.purge ret y').Apart v s' := fun _ => ha
  cases y with
  | take qid k pgs =>
    cases k with
    | zero =>
      rw [← (Prod.mk.inj (Except.ok.inj hs)).2]
      exact hret _
    | succ k =>
      simp only [stepPurge] at hs
      split at hs
      all_goals
        rw [← (Prod.mk.inj (Except.ok.inj hs)).2]
        exact hret _
  | delete qid k pgs p =>
    simp only [stepPurge] at hs
    split at hs
    · exact absurd hs (by simp)
    · rw [← (Prod.mk.inj (Except.ok.inj hs)).2]
      exact hret _
  | unmap qid k pgs p =>
    rw [← (Prod.mk.inj (Except.ok.inj hs)).2]
    exact hret _
  | free pgs =>
    cases pgs with
    | nil =>
      rw [← (Prod.mk.inj (Except.ok.inj hs)).2]
      cases ret with
      | none => exact trivial
      | some r => exact ⟨ha r rfl, by simp [GetPc.page?]⟩
    | cons p pgs =>
      rw [← (Prod.mk.inj (Except.ok.inj hs)).2]
      exact hret _

end State

end FastMap
