import FastMap.Descriptors
import FastMap.Entries

/-!
# Unmapping an area

`munmap` takes slots and page table entries away from pages and changes nothing else. A slot that
`__pve_release` takes away is removed together with the entry it records, so what is left of the
page tables stays recorded.
-/

namespace FastMap

variable {C : Type*}

namespace PageView

/-- Slots and page table entries of the page are gone, and nothing else has changed. An entry that
is left is recorded if it was recorded before. -/
structure Sheds (x y : PageView C) : Prop where
  same : y = { x with page := { x.page with rmap := y.page.rmap }, pte := y.pte }
  slot {j : Fin maxRmapsPerPage} : (y.page.rmap j).valid = true → y.page.rmap j = x.page.rmap j
  entry {a : VmaId × ℕ} {w : Bool} : y.pte a = some w →
    x.pte a = some w ∧ (x.page.covers a → y.page.covers a)

variable {x y z : PageView C} {A : Areas}

lemma Sheds.refl (x : PageView C) : x.Sheds x := ⟨rfl, fun _ => rfl, fun h => ⟨h, id⟩⟩

lemma Sheds.trans (h : x.Sheds y) (h' : y.Sheds z) : x.Sheds z where
  same := by
    have hz := h'.same
    rw [h.same] at hz
    exact hz
  slot hv := by
    have hy := h'.slot hv
    rw [hy] at hv ⊢
    exact h.slot hv
  entry hz := by
    obtain ⟨hy, hc'⟩ := h'.entry hz
    obtain ⟨hx, hc⟩ := h.entry hy
    exact ⟨hx, fun hcov => hc' (hc hcov)⟩

lemma Tracked.sheds (ht : x.Tracked A) (h : x.Sheds y) : y.Tracked A := by
  have hpage : y.page = { x.page with rmap := y.page.rmap } := congrArg PageView.page h.same
  constructor
  · intro a w hy
    obtain ⟨hx, hc⟩ := h.entry hy
    obtain ⟨hu, hcov, hd⟩ := ht.entry hx
    refine ⟨?_, hc hcov, fun hw => ?_⟩
    · rw [hpage]
      exact hu
    · rw [hpage]
      exact hd hw
  · intro j hu hv
    have hj := h.slot hv
    rw [hj] at hv ⊢
    rw [hpage] at hu ⊢
    have hhas := ht.slot hu hv
    exact ⟨hhas.live, hhas.pvd, hhas.place⟩

end PageView

namespace State

variable {e : Env C} {s s' s'' : State C} {p : PageId} {A : Areas}

/-- All pages have at most lost slots and entries. -/
structure Sheds (e : Env C) (s s' : State C) : Prop where
  placed : s'.Placed e
  view (q : PageId) : (s.view e q).Sheds (s'.view e q)
  outside_eq : s'.outside = { s.outside with infos := s'.infos }
  pvd (i : InfoId) : (s'.infos i).pvd = (s.infos i).pvd

namespace Sheds

lemma trans (h : Sheds e s s') (h' : Sheds e s' s'') : Sheds e s s'' where
  placed := h'.placed
  view q := (h.view q).trans (h'.view q)
  outside_eq := by rw [h'.outside_eq, h.outside_eq]
  pvd i := (h'.pvd i).trans (h.pvd i)

/-- Changes outside the view of the pages. -/
lemma of_view (hp : s'.Placed e) (hv : s'.view e = s.view e)
    (ho : s'.outside = { s.outside with infos := s'.infos })
    (hi : ∀ i, (s'.infos i).pvd = (s.infos i).pvd) : Sheds e s s' :=
  ⟨hp, fun q => by rw [hv]; exact .refl _, ho, hi⟩

lemma pages_eq (h : Sheds e s s') (q : PageId) :
    s'.pages q = { s.pages q with rmap := (s'.pages q).rmap } :=
  congrArg PageView.page (h.view q).same

lemma quiet (h : Sheds e s s') (hq : s.Quiet e) : s'.Quiet e := by
  refine ⟨h.placed, fun q => ?_⟩
  rw [(h.view q).same]
  exact (hq.page q).of_fields rfl rfl rfl rfl rfl rfl rfl rfl (hq.page q).unlocked

lemma tracks (h : Sheds e s s') (ht : s.Tracks e A) : s'.Tracks e A :=
  fun q => (ht q).sheds (h.view q)

end Sheds

lemma Placed.sheds_releaseSlot (h : s.Placed e) (i : PageId × Fin maxRmapsPerPage) :
    Sheds e s (s.releaseSlot i) := by
  obtain ⟨p, j⟩ := i
  set r := (s.pages p).rmap j with hr
  have hset := h.moves_modifyPage p
    (f := fun t => { t with rmap := Function.update t.rmap j { r with valid := false } }) rfl rfl
  have hzap := hset.placed.moves_zapPage (p := p) r
  rw [hset.view_self] at hzap
  have hm := hset.trans hzap
  refine ⟨hm.placed, fun q => ?_, ?_, fun _ => ?_⟩
  · by_cases hq : q = p
    · subst hq
      have hv : (s.releaseSlot (q, j)).view e q = _ := hm.view_self
      rw [hv]
      refine ⟨rfl, fun {k} hk => ?_, fun {a w} ha => ?_⟩
      · have hkj : k ≠ j := by
          rintro rfl
          simp at hk
        exact Function.update_of_ne hkj _ _
      · have hne : a ≠ (r.vma, r.vaddr) := by
          rintro rfl
          simp at ha
        refine ⟨by simpa [Function.update_of_ne hne] using ha, ?_⟩
        rintro ⟨k, hk, rfl⟩
        have hkj : k ≠ j := by
          rintro rfl
          exact hne rfl
        have hsame : Function.update (s.pages q).rmap j { r with valid := false } k =
            (s.pages q).rmap k := Function.update_of_ne hkj _ _
        exact ⟨k, (congrArg PrVmaRmap.valid hsame).trans hk,
          congrArg (fun r : PrVmaRmap => (r.vma, r.vaddr)) hsame⟩
    · have hv : (s.releaseSlot (p, j)).view e q = _ := hm.view_of_ne hq
      rw [hv]
      exact .refl _
  · simp only [releaseSlot, zapPage]
    split
    · split_ifs <;> rfl
    · rfl
  · simp only [releaseSlot, zapPage]
    split
    · split_ifs <;> rfl
    · rfl

lemma Placed.sheds_pveRelease (h : s.Placed e) (x : PveId) : Sheds e s (s.pveRelease e x) := by
  have hloop : ∀ (l : List (PageId × Fin maxRmapsPerPage)) (t : State C), Sheds e s t →
      Sheds e s (l.foldl releaseSlot t) := by
    intro l
    induction l with
    | nil => exact fun _ ht => ht
    | cons i l ih => exact fun t ht => ih _ (ht.trans (ht.placed.sheds_releaseSlot i))
  refine hloop _ _ (.of_view { h with } rfl rfl fun _ => rfl)

/-- `perma_vma_close`. -/
lemma Placed.sheds_permaVmaClose (h : s.Placed e) {vma : VmaId} {r : Option PveId}
    (hs : s.permaVmaClose e vma = .ok (r, s')) : Sheds e s s' := by
  simp only [permaVmaClose] at hs
  split at hs
  · exact absurd hs (by simp)
  · rename_i x hx
    set t := s.modifyPve x fun t => { t with refcount := t.refcount - 1 } with ht
    have hkeep : Sheds e s t := .of_view { h with } rfl rfl fun _ => rfl
    split_ifs at hs with hz
    · obtain ⟨-, rfl⟩ := Prod.mk.inj (Except.ok.inj hs)
      have hrel := hkeep.trans (hkeep.placed.sheds_pveRelease x)
      refine hrel.trans (.of_view { hrel.placed with } rfl rfl fun i => ?_)
      by_cases hi : i = (s.vmas vma).info
      · subst hi
        simp
      · simp [hi]
    · obtain ⟨-, rfl⟩ := Prod.mk.inj (Except.ok.inj hs)
      exact hkeep

/-- When the last area of the entry is closed, no slot is left that was on a list of the entry. -/
lemma not_listed_of_permaVmaClose {vma : VmaId} {r : Option PveId} {x : PveId}
    (hs : s.permaVmaClose e vma = .ok (r, s')) (hx : (s.infos (s.vmas vma).info).pve = some x)
    (hone : (s.pves x).refcount = 1) {j : Fin maxRmapsPerPage} {cpu : ℕ}
    (hu : (s'.pages p).inUse = true) (hv : ((s'.pages p).rmap j).valid = true)
    (hcpu : cpu < e.ncpus) : (p, j) ∉ (s.pves x).pcpuMapped cpu := by
  simp only [permaVmaClose, hx] at hs
  set t := s.modifyPve x fun t => { t with refcount := t.refcount - 1 } with ht
  have hz : (t.pves x).refcount = 0 := by simp [ht, modifyPve, hone]
  rw [if_pos hz] at hs
  obtain ⟨-, rfl⟩ := Prod.mk.inj (Except.ok.inj hs)
  have hnot := not_mem_of_pveRelease (s := t) (x := x) hu hv hcpu
  simpa [ht, modifyPve] using hnot

end State

namespace Vfs

open State

variable {e : Env C} {s s' : Vfs C}

/-- `munmap`: the kernel removes the page table entries of the area and calls `perma_vma_close`. -/
def munmap (e : Env C) (s : Vfs C) (vma : VmaId) : Except Halt (Vfs C) :=
  if vma ∉ s.areas then .error .notIssued
  else
    let st := { s.st with pte := fun a => if a.1 = vma then .none else s.st.pte a }
    match st.permaVmaClose e vma with
    | .error x => .error x
    | .ok (_, st) => .ok { s with st := st, areas := s.areas.filter (· ≠ vma) }

/-- The entry of the area counts no other area, and all slots of the area are on its lists. -/
def Unmappable (e : Env C) (s : Vfs C) (vma : VmaId) : Prop :=
  ∃ x, (s.st.infos (s.st.vmas vma).info).pve = some x ∧ (s.st.pves x).refcount = 1 ∧
    ∀ p j, (s.st.pages p).inUse = true → ((s.st.pages p).rmap j).valid = true →
      ((s.st.pages p).rmap j).vma = vma → ∃ cpu < e.ncpus, (p, j) ∈ (s.st.pves x).pcpuMapped cpu

/-- The buffer when the page table entries of an area are gone. -/
def zapArea (s : State C) (vma : VmaId) : State C :=
  { s with pte := fun a => if a.1 = vma then .none else s.pte a }

lemma munmap_inv {vma : VmaId} (hs : s.munmap e vma = .ok s') :
    ∃ r, (zapArea s.st vma).permaVmaClose e vma = .ok (r, s'.st) ∧
      s' = { s with st := s'.st, areas := s.areas.filter (· ≠ vma) } := by
  simp only [munmap] at hs
  split_ifs at hs
  split at hs
  · exact absurd hs (by simp)
  · rename_i r st hc
    obtain rfl := Except.ok.inj hs
    exact ⟨r, hc, rfl⟩

lemma Ok.sheds_munmap (h : s.Ok e) {vma : VmaId} (hs : s.munmap e vma = .ok s') :
    Sheds e s.st s'.st := by
  obtain ⟨r, hc, -⟩ := munmap_inv hs
  have hzap : Sheds e s.st (zapArea s.st vma) := by
    refine ⟨{ h.quiet.placed with }, fun q => ⟨rfl, fun _ => rfl, fun {a w} ha => ?_⟩, rfl,
      fun _ => rfl⟩
    have hpte := mapping_eq_some.mp ha
    simp only [zapArea] at hpte
    split_ifs at hpte
    exact ⟨mapping_eq_some.mpr hpte, id⟩
  exact hzap.trans (hzap.placed.sheds_permaVmaClose hc)

/-- The area that is unmapped has no slot left. -/
lemma Ok.munmap (h : s.Ok e) {vma : VmaId} (hu : s.Unmappable e vma)
    (hs : s.munmap e vma = .ok s') : s'.Ok e := by
  have hsh := h.sheds_munmap hs
  obtain ⟨r, hc, hs'⟩ := munmap_inv hs
  obtain ⟨x, hx, hone, hlisted⟩ := hu
  set st := s'.st with hst
  have hpvds : st.pvds = s.st.pvds := congrArg Outside.pvds hsh.outside_eq
  have hvmas : st.vmas = s.st.vmas := congrArg Outside.vmas hsh.outside_eq
  have hmem : ∀ {u}, u ∈ s.areas.filter (· ≠ vma) → u ∈ s.areas :=
    fun hu => (List.mem_filter.mp hu).1
  rw [hs']
  constructor
  · exact hsh.quiet h.quiet
  · intro p
    have htr := hsh.tracks h.tracks p
    refine ⟨htr.entry, fun {j} hin hv => ?_⟩
    obtain ⟨hlive, hpv, hplace⟩ := htr.slot hin hv
    have hne : ((st.pages p).rmap j).vma ≠ vma := by
      intro heq
      have hold : (st.pages p).rmap j = (s.st.pages p).rmap j := (hsh.view p).slot hv
      have hin' : (s.st.pages p).inUse = true :=
        (congrArg TaggedPage.inUse (hsh.pages_eq p)).symm.trans hin
      obtain ⟨cpu, hcpu, hl⟩ := hlisted p j hin' (hold ▸ hv) (hold ▸ heq)
      exact not_listed_of_permaVmaClose hc hx hone hin hv hcpu hl
    refine ⟨?_, ?_, ?_⟩
    · exact List.mem_filter.mpr ⟨hlive, decide_eq_true hne⟩
    · simp only [mapped, vmaPvd, hvmas, hsh.pvd]
      exact hpv
    · simp only [mapped, hvmas]
      exact hplace
  · intro u hm
    rw [show st.vmas = s.st.vmas from hvmas]
    exact h.area_open (hmem hm)
  · intro i v hi hp
    exact h.info_pvd hi ((hsh.pvd i).symm.trans hp)
  · intro ino v hcache
    rw [show st.pvds = s.st.pvds from hpvds]
    exact h.cache_pvd hcache
  · intro i j v ht hi hiv hj hjv
    rw [show st.pvds = s.st.pvds from hpvds] at ht
    exact h.raw_one ht hi ((hsh.pvd i).symm.trans hiv) hj ((hsh.pvd j).symm.trans hjv)
  · intro p v hin hp
    have hpage := hsh.pages_eq p
    refine h.page_pvd (p := p) ?_ ?_
    · exact (congrArg TaggedPage.inUse hpage).symm.trans hin
    · exact (congrArg TaggedPage.pvd hpage).symm.trans hp

end Vfs

end FastMap
