import FastMap.Lib.Run
import FastMap.Linkage

/-!
# Moved areas

`perma_mremap` gives an area that has moved an entry of its own: for every slot on the lists of the
old entry it records the new address in a free slot of the same page, and puts that slot on a list
of the new entry. The new slot is written field by field over whatever words it holds, and the
address is shifted in the arithmetic of words. The last section takes the fields of the words apart
again: as long as no address wraps around, this is the `perma_mremap` of the page buffer.
-/

namespace FastMap

/-! ### Page-aligned words -/

/-- The word is a multiple of `PAGE_SIZE`. -/
def PageAligned (x : BitVec 64) : Prop := x &&& ~~~0xFFF#64 = x

instance (x : BitVec 64) : Decidable (PageAligned x) :=
  inferInstanceAs (Decidable (x &&& ~~~0xFFF#64 = x))

lemma pageAligned_iff {x : BitVec 64} : PageAligned x ↔ x.toNat % 4096 = 0 := by
  have hlow : (x &&& 0xFFF#64).toNat = x.toNat % 4096 := by
    rw [BitVec.toNat_and]
    exact Nat.and_two_pow_sub_one_eq_mod x.toNat 12
  constructor
  · intro h
    rw [← hlow, ← h, BitVec.and_assoc, show ~~~0xFFF#64 &&& 0xFFF#64 = 0#64 by decide,
      BitVec.and_zero]
    rfl
  · intro h
    have hzero : x &&& 0xFFF#64 = 0#64 := by
      apply BitVec.eq_of_toNat_eq
      rw [hlow, h]
      rfl
    calc x &&& ~~~0xFFF#64 = (x &&& 0xFFF#64) ||| (x &&& ~~~0xFFF#64) := by
          rw [hzero, BitVec.zero_or]
      _ = x &&& BitVec.allOnes 64 := by
          rw [← BitVec.and_or_distrib_left,
            show 0xFFF#64 ||| ~~~0xFFF#64 = BitVec.allOnes 64 by decide]
      _ = x := BitVec.and_allOnes

lemma PageAligned.add {x y : BitVec 64} (hx : PageAligned x) (hy : PageAligned y) :
    PageAligned (x + y) := by
  rw [pageAligned_iff] at *
  rw [BitVec.toNat_add]
  omega

lemma PageAligned.sub {x y : BitVec 64} (hx : PageAligned x) (hy : PageAligned y) :
    PageAligned (x - y) := by
  rw [pageAligned_iff] at *
  rw [BitVec.toNat_sub]
  omega

lemma pageAligned_getVaddr (w : Pvr) : PageAligned w.getVaddr := by
  rw [PageAligned, Pvr.getVaddr, BitVec.and_assoc, BitVec.and_self]

/-! ### The call -/

namespace Pvr

/-- The assignments to the new slot under `rmap_lock`. -/
def claim (p : Pvr) (i : Fin maxRmapsPerPage) : Pvr := p.mkValid.setIdx (BitVec.ofNat 64 i)

/-- The assignments that follow, up to the one of the processor. -/
def move (p : Pvr) (vaddr vma : BitVec 64) : Pvr :=
  ((p.mkValid.setVaddr vaddr).setVma vma).setCpu 0#64

/-- All assignments to the new slot. -/
lemma records_setCpu_move (p : Pvr) (i : Fin maxRmapsPerPage) {vaddr vma : BitVec 64} {cpu : ℕ}
    (ha : PageAligned vaddr) (hv : vma &&& ~~~0x01#64 = vma) (hcpu : cpu < 128) :
    (((p.claim i).move vaddr vma).setCpu (BitVec.ofNat 64 cpu)).Records i vaddr vma cpu := by
  apply Records.of_vaddrWord (p := p)
  · change ((p.claim i).mkValid.setVma vma).isValid = true
    rw [isValid_setVma _ hv, isValid_mkValid]
  · exact getVma_setVma _ hv
  · exact ha
  · exact hcpu
  · -- the two words do not share assignments
    rfl

end Pvr

/-- The new area. -/
structure MovedArea where
  vma : BitVec 64
  vmStart : BitVec 64
  vmEnd : BitVec 64
  deriving DecidableEq, Repr

/-- The area and the entries are at page boundaries, and a pointer to an area is even. -/
structure MovedArea.Aligned (area : MovedArea) (oldStart : BitVec 64) : Prop where
  new : PageAligned area.vmStart
  old : PageAligned oldStart
  vma : area.vma &&& ~~~0x01#64 = area.vma

/-- The slots and lists, the ranges of the entries, and the entry of the descriptor of the area. -/
structure PveTable where
  rmaps : Rmaps
  vmStart : PveId → BitVec 64
  vmEnd : PveId → BitVec 64
  pve : PveId

/-- The address in the new area; `diff` is computed so that it does not wrap. -/
def MovedArea.shift (area : MovedArea) (oldStart vaddr : BitVec 64) : BitVec 64 :=
  if oldStart < area.vmStart then vaddr + (area.vmStart - oldStart)
  else vaddr - (oldStart - area.vmStart)

namespace Rmaps

/-- One iteration for a slot `a` of the old entry, on processor `cpu`: the first slot of its page
that is not valid becomes the new one. -/
def copyRmap (area : MovedArea) (oldStart : BitVec 64) (newPve : PveId) (cpu : ℕ) (m : Rmaps)
    (a : RmapSlot) : Except Halt Rmaps :=
  match (List.finRange maxRmapsPerPage).find? fun i => !(m.words (a.1, i)).isValid with
  | none => .error .nullDeref
  | some i =>
    let m := m.modify (a.1, i) fun w => w.claim i
    let m := m.modify (a.1, i) fun w => w.move (area.shift oldStart (m.words a).getVaddr) area.vma
    let m := m.listAddTail (a.1, i) newPve cpu
    .ok (m.modify (a.1, i) fun w => w.setCpu (BitVec.ofNat 64 cpu))

/-- The loop over a list of the old entry. -/
def copyList (area : MovedArea) (oldStart : BitVec 64) (newPve : PveId) (cpu : ℕ)
    (l : List RmapSlot) (m : Rmaps) : Except Halt Rmaps :=
  l.foldlM (copyRmap area oldStart newPve cpu) m

end Rmaps

/-- `perma_mremap`; `newPve` is the entry that `kmem_cache_alloc` hands out, and `myCpu` gives the
processor on which each list of the old entry is walked. -/
def PveTable.permaMremap (ncpus : ℕ) (area : MovedArea) (newPve : PveId) (myCpu : ℕ → ℕ)
    (s : PveTable) : Except Halt PveTable :=
  let oldStart := s.vmStart s.pve
  let copy := (List.range ncpus).foldlM (fun m c =>
    Rmaps.copyList area oldStart newPve (myCpu c) (m.mapped s.pve c) m) s.rmaps
  copy.map fun m =>
    { rmaps := m
      vmStart := Function.update s.vmStart newPve area.vmStart
      vmEnd := Function.update s.vmEnd newPve area.vmEnd
      pve := newPve }

namespace Rmaps

/-! ### What one iteration does -/

variable {m m' : Rmaps} {area : MovedArea} {oldStart : BitVec 64} {newPve : PveId} {cpu : ℕ}
  {a : RmapSlot}

/-- A free slot of the page of `a` has become the slot `b` of the new area. -/
structure Copies (area : MovedArea) (oldStart : BitVec 64) (newPve : PveId) (cpu : ℕ)
    (a b : RmapSlot) (m m' : Rmaps) : Prop where
  page : b.1 = a.1
  free : (m.words b).isValid = false
  records : (m'.words b).Records b.2 (area.shift oldStart (m.words a).getVaddr) area.vma cpu
  others {c : RmapSlot} : c ≠ b → m'.words c = m.words c
  mapped : m'.mapped = (m.listAddTail b newPve cpu).mapped

lemma pageAligned_shift {vaddr : BitVec 64} (hnew : PageAligned area.vmStart)
    (hold : PageAligned oldStart) (ha : PageAligned vaddr) :
    PageAligned (area.shift oldStart vaddr) := by
  unfold MovedArea.shift
  split_ifs
  · exact ha.add (hnew.sub hold)
  · exact ha.sub (hold.sub hnew)

/-- The place of an address in its area is kept, whichever way the area has moved. -/
lemma shift_sub (area : MovedArea) (oldStart vaddr : BitVec 64) :
    area.shift oldStart vaddr - area.vmStart = vaddr - oldStart := by
  unfold MovedArea.shift
  split_ifs <;> ring

lemma copyRmap_copies (hnew : PageAligned area.vmStart) (hold : PageAligned oldStart)
    (hvma : area.vma &&& ~~~0x01#64 = area.vma) (hcpu : cpu < 128)
    (ha : (m.words a).isValid = true) (hfree : ∃ i, (m.words (a.1, i)).isValid = false) :
    ∃ m' b, m.copyRmap area oldStart newPve cpu a = .ok m' ∧
      Copies area oldStart newPve cpu a b m m' := by
  cases hi : (List.finRange maxRmapsPerPage).find? fun i => !(m.words (a.1, i)).isValid with
  | none =>
    obtain ⟨i, hinv⟩ := hfree
    have := List.find?_eq_none.mp hi i (List.mem_finRange i)
    simp [hinv] at this
  | some i =>
    have hinv : (m.words (a.1, i)).isValid = false := by simpa using List.find?_some hi
    have hne : a ≠ (a.1, i) := by
      intro heq
      rw [← heq, ha] at hinv
      exact absurd hinv (by simp)
    refine ⟨_, (a.1, i), by rw [copyRmap, hi], ?_⟩
    refine ⟨rfl, hinv, ?_, ?_, rfl⟩
    · have hrec := Pvr.records_setCpu_move (m.words (a.1, i)) i
        (pageAligned_shift hnew hold (pageAligned_getVaddr (m.words a))) hvma hcpu
      simpa [Rmaps.modify, listAddTail, Function.update_of_ne hne] using hrec
    · intro c hc
      simp [Rmaps.modify, listAddTail, hc]

/-! ### What the loops do -/

/-- The slots of an entry after one more slot on one of its lists. -/
lemma slots_listAddTail {ncpus : ℕ} (hcpu : cpu < ncpus) (m : Rmaps) (b : RmapSlot) (x : PveId) :
    ((m.listAddTail b x cpu).slots ncpus x).Perm (b :: m.slots ncpus x) := by
  have hlists : ∀ (l : List ℕ) (f : ℕ → List RmapSlot), l.Nodup → cpu ∈ l →
      (l.flatMap (Function.update f cpu (f cpu ++ [b]))).Perm (b :: l.flatMap f) := by
    intro l f
    induction l with
    | nil => simp
    | cons c l ih =>
      intro hl hmem
      obtain ⟨hc, hl⟩ := List.nodup_cons.mp hl
      rw [List.flatMap_cons, List.flatMap_cons]
      by_cases hcc : c = cpu
      · subst hcc
        have hrest : l.flatMap (Function.update f c (f c ++ [b])) = l.flatMap f := by
          apply List.flatMap_congr
          intro d hd
          rw [Function.update_of_ne]
          rintro rfl
          exact hc hd
        rw [Function.update_self, hrest, List.append_assoc]
        exact List.perm_middle
      · rw [Function.update_of_ne hcc]
        have hmem' := (List.mem_cons.mp hmem).resolve_left (Ne.symm hcc)
        exact ((ih hl hmem').append_left (f c)).trans List.perm_middle
  unfold slots listAddTail
  simp only [Function.update_self]
  exact hlists _ _ List.nodup_range (List.mem_range.mpr hcpu)

variable {ncpus : ℕ} {base : PageId → BitVec 64}

/-- The owner of a slot and the place in the area that it maps its page to. -/
def place (base : PageId → BitVec 64) (start : BitVec 64) (m : Rmaps) (a : RmapSlot) :
    BitVec 64 × BitVec 64 :=
  ((m.words a).getOwner (slotAddr base a), (m.words a).getVaddr - start)

/-- The pairs over all lists of an entry. -/
def places (ncpus : ℕ) (base : PageId → BitVec 64) (start : BitVec 64) (m : Rmaps) (x : PveId) :
    Multiset (BitVec 64 × BitVec 64) :=
  (m.slots ncpus x).map (m.place base start)

/-- The loops have copied the slots `done`. -/
structure Copied (ncpus : ℕ) (base : PageId → BitVec 64) (area : MovedArea) (oldStart : BitVec 64)
    (newPve : PveId) (m₀ : Rmaps) (done : List RmapSlot) (m : Rmaps) : Prop where
  kept {c : RmapSlot} : (m₀.words c).isValid = true → m.words c = m₀.words c
  page {c : RmapSlot} : c.1 ∉ done.map Prod.fst → m.words c = m₀.words c
  lists {x : PveId} : x ≠ newPve → m.mapped x = m₀.mapped x
  new {c : ℕ} {b : RmapSlot} : b ∈ m.mapped newPve c → c < ncpus ∧
    ∃ vaddr, (m.words b).Records b.2 vaddr area.vma c
  places_eq : m.places ncpus base area.vmStart newPve = done.map (m₀.place base oldStart)

variable {m₀ : Rmaps} {done : List RmapSlot}

lemma Copied.step (h : Copied ncpus base area oldStart newPve m₀ done m) (hcpu : cpu < ncpus)
    (ha : (m₀.words a).isValid = true) (hidx : (m₀.words a).getIdx = BitVec.ofNat 64 a.2)
    (hpage : a.1 ∉ done.map Prod.fst) {b : RmapSlot}
    (hc : Copies area oldStart newPve cpu a b m m') :
    Copied ncpus base area oldStart newPve m₀ (done ++ [a]) m' := by
  have hfree : (m₀.words b).isValid = false := by
    rw [← h.page (hc.page ▸ hpage)]
    exact hc.free
  -- a slot on a list of the new entry is valid, so it is not the slot taken now
  have hne : ∀ {c d}, d ∈ m.mapped newPve c → d ≠ b := by
    rintro c d hd rfl
    obtain ⟨-, vaddr, hrec⟩ := h.new hd
    exact Bool.false_ne_true (hc.free.symm.trans hrec.valid)
  have hmapped : ∀ c, m'.mapped newPve c =
      if c = cpu then m.mapped newPve c ++ [b] else m.mapped newPve c := by
    intro c
    rw [hc.mapped]
    simp only [listAddTail, Function.update_self, Function.update_apply]
    split_ifs with heq
    · rw [heq]
    · rfl
  constructor
  · intro c hv
    rw [hc.others, h.kept hv]
    rintro rfl
    exact Bool.false_ne_true (hfree.symm.trans hv)
  · intro c hn
    have hcb : c ≠ b := by
      rintro rfl
      exact hn (by simp [hc.page])
    rw [hc.others hcb]
    apply h.page
    intro hmem
    exact hn (by simpa using Or.inl (by simpa using hmem))
  · intro x hx
    rw [hc.mapped, ← h.lists hx]
    simp [listAddTail, hx]
  · intro c d hd
    rw [hmapped] at hd
    have hold : d ∈ m.mapped newPve c →
        c < ncpus ∧ ∃ vaddr, (m'.words d).Records d.2 vaddr area.vma c := by
      intro hd
      obtain ⟨hlt, vaddr, hrec⟩ := h.new hd
      exact ⟨hlt, vaddr, by rwa [hc.others (hne hd)]⟩
    split_ifs at hd with heq
    · rcases List.mem_append.mp hd with hd | hd
      · exact hold hd
      · obtain rfl := List.mem_singleton.mp hd
        subst heq
        exact ⟨hcpu, _, hc.records⟩
    · exact hold hd
  · have hslots : (m'.slots ncpus newPve).Perm (b :: m.slots ncpus newPve) := by
      have hsame : m'.slots ncpus newPve = (m.listAddTail b newPve cpu).slots ncpus newPve := by
        unfold slots
        rw [hc.mapped]
      rw [hsame]
      exact slots_listAddTail hcpu m b newPve
    have hplace : ∀ d ∈ m.slots ncpus newPve,
        m'.place base area.vmStart d = m.place base area.vmStart d := by
      intro d hd
      obtain ⟨c, -, hd⟩ := List.mem_flatMap.mp hd
      unfold place
      rw [hc.others (hne hd)]
    have hnew : m'.place base area.vmStart b = m₀.place base oldStart a := by
      unfold place
      rw [slotAddr, hc.records.getOwner, hc.records.vaddr_eq, shift_sub, h.kept ha, slotAddr,
        Pvr.getOwner, hidx, BitVec.add_sub_cancel, hc.page]
    have hold : ((m.slots ncpus newPve).map (m.place base area.vmStart)).Perm
        (done.map (m₀.place base oldStart)) := Multiset.coe_eq_coe.mp h.places_eq
    apply Multiset.coe_eq_coe.mpr
    calc (m'.slots ncpus newPve).map (m'.place base area.vmStart)
        |>.Perm ((b :: m.slots ncpus newPve).map (m'.place base area.vmStart)) := hslots.map _
      _ = m₀.place base oldStart a :: (m.slots ncpus newPve).map (m.place base area.vmStart) := by
          rw [List.map_cons, hnew, List.map_congr_left hplace]
      _ |>.Perm (m₀.place base oldStart a :: done.map (m₀.place base oldStart)) := hold.cons _
      _ |>.Perm ((done ++ [a]).map (m₀.place base oldStart)) := by
          rw [List.map_append]
          exact (List.perm_append_singleton _ _).symm

/-- A slot of the old entry that can be copied. -/
structure Copyable (m₀ : Rmaps) (a : RmapSlot) : Prop where
  valid : (m₀.words a).isValid = true
  idx_eq : (m₀.words a).getIdx = BitVec.ofNat 64 a.2
  free : ∃ i, (m₀.words (a.1, i)).isValid = false

lemma Copied.copyRmap (h : Copied ncpus base area oldStart newPve m₀ done m)
    (hal : MovedArea.Aligned area oldStart) (hcpus : ncpus ≤ 128) (hcpu : cpu < ncpus)
    (ha : Copyable m₀ a) (hpage : a.1 ∉ done.map Prod.fst) :
    ∃ m' b, m.copyRmap area oldStart newPve cpu a = .ok m' ∧
      Copies area oldStart newPve cpu a b m m' ∧
      Copied ncpus base area oldStart newPve m₀ (done ++ [a]) m' := by
  have hvalid : (m.words a).isValid = true := by
    rw [h.kept ha.valid]
    exact ha.valid
  have hfree : ∃ i, (m.words (a.1, i)).isValid = false := by
    obtain ⟨i, hi⟩ := ha.free
    exact ⟨i, by rw [h.page (c := (a.1, i)) hpage]; exact hi⟩
  obtain ⟨m', b, hrun, hc⟩ :=
    copyRmap_copies hal.new hal.old hal.vma (hcpu.trans_le hcpus) hvalid hfree
  exact ⟨m', b, hrun, hc, h.step hcpu ha.valid ha.idx_eq hpage hc⟩

lemma Copied.copyList {l : List RmapSlot} (h : Copied ncpus base area oldStart newPve m₀ done m)
    (hal : MovedArea.Aligned area oldStart) (hcpus : ncpus ≤ 128) (hcpu : cpu < ncpus)
    (hl : ∀ a ∈ l, Copyable m₀ a) (hnodup : ((done ++ l).map Prod.fst).Nodup) :
    ∃ m', copyList area oldStart newPve cpu l m = .ok m' ∧
      Copied ncpus base area oldStart newPve m₀ (done ++ l) m' := by
  induction l generalizing m done with
  | nil => exact ⟨m, rfl, by simpa using h⟩
  | cons a l ih =>
    have hpage : a.1 ∉ done.map Prod.fst := by
      rw [List.map_append, List.map_cons] at hnodup
      intro hmem
      exact List.disjoint_of_nodup_append hnodup hmem List.mem_cons_self
    obtain ⟨m₁, b, hrun, -, h₁⟩ := h.copyRmap hal hcpus hcpu (hl a (by simp)) hpage
    obtain ⟨m', hrun', h'⟩ := ih h₁ (fun c hc => hl c (List.mem_cons_of_mem a hc))
      (by simpa using hnodup)
    refine ⟨m', ?_, by simpa using h'⟩
    rw [Rmaps.copyList, List.foldlM_cons, hrun]
    exact hrun'

/-- The lists of the old entry stay as they are while the loops run. -/
lemma Copied.mapped_old (h : Copied ncpus base area oldStart newPve m₀ done m) {x : PveId}
    (hempty : ∀ c, m₀.mapped newPve c = []) (hdone : ∀ a ∈ done, ∃ c, a ∈ m₀.mapped x c) {c : ℕ}
    (hc : c < ncpus) : m.mapped x c = m₀.mapped x c := by
  by_cases hx : x = newPve
  · -- an old entry that is also the new one has no slots
    subst hx
    have hnil : done = [] := by
      apply List.eq_nil_iff_forall_not_mem.mpr
      intro a ha
      obtain ⟨c, hmem⟩ := hdone a ha
      simp [hempty c] at hmem
    have hslots : m.slots ncpus x = [] := by
      have := h.places_eq
      simpa [hnil, places] using this
    rw [hempty c]
    exact List.flatMap_eq_nil_iff.mp hslots c (List.mem_range.mpr hc)
  · rw [h.lists hx]

/-- The next list of the old entry. -/
lemma Copied.nextList {x : PveId} {ds cs : List ℕ} {c : ℕ}
    (h : Copied ncpus base area oldStart newPve m₀ (ds.flatMap (m₀.mapped x)) m)
    (hal : MovedArea.Aligned area oldStart) (hcpus : ncpus ≤ 128) (hcpu : cpu < ncpus)
    (hempty : ∀ c, m₀.mapped newPve c = []) (hc : c < ncpus)
    (hl : ∀ a ∈ m₀.mapped x c, Copyable m₀ a)
    (hnodup : (((ds ++ c :: cs).flatMap (m₀.mapped x)).map Prod.fst).Nodup) :
    m.mapped x c = m₀.mapped x c ∧
      ∃ m₁, Rmaps.copyList area oldStart newPve cpu (m₀.mapped x c) m = .ok m₁ ∧
        Copied ncpus base area oldStart newPve m₀ ((ds ++ [c]).flatMap (m₀.mapped x)) m₁ := by
  constructor
  · apply h.mapped_old hempty _ hc
    intro a ha
    obtain ⟨d, -, hd⟩ := List.mem_flatMap.mp ha
    exact ⟨d, hd⟩
  · have hfront : (((ds ++ [c]).flatMap (m₀.mapped x)).map Prod.fst).Nodup := by
      rw [List.append_cons, List.flatMap_append, List.map_append] at hnodup
      exact hnodup.of_append_left
    obtain ⟨m₁, hrun, h₁⟩ := h.copyList hal hcpus hcpu hl (by simpa using hfront)
    exact ⟨m₁, hrun, by simpa using h₁⟩

lemma Copied.copyLists {x : PveId} {myCpu : ℕ → ℕ} {cs ds : List ℕ}
    (h : Copied ncpus base area oldStart newPve m₀ (ds.flatMap (m₀.mapped x)) m)
    (hal : MovedArea.Aligned area oldStart) (hcpus : ncpus ≤ 128)
    (hmy : ∀ c < ncpus, myCpu c < ncpus) (hempty : ∀ c, m₀.mapped newPve c = [])
    (hcs : ∀ c ∈ cs, c < ncpus) (hl : ∀ c ∈ cs, ∀ a ∈ m₀.mapped x c, Copyable m₀ a)
    (hnodup : (((ds ++ cs).flatMap (m₀.mapped x)).map Prod.fst).Nodup) :
    ∃ m', cs.foldlM (fun m c => Rmaps.copyList area oldStart newPve (myCpu c) (m.mapped x c) m) m =
        Except.ok m' ∧
      Copied ncpus base area oldStart newPve m₀ ((ds ++ cs).flatMap (m₀.mapped x)) m' := by
  induction cs generalizing m ds with
  | nil => exact ⟨m, rfl, by simpa using h⟩
  | cons c cs ih =>
    have hc := hcs c (by simp)
    obtain ⟨hold, m₁, hrun, h₁⟩ :=
      h.nextList hal hcpus (hmy c hc) hempty hc (hl c (by simp)) hnodup
    obtain ⟨m', hrun', h'⟩ := ih h₁ (fun d hd => hcs d (List.mem_cons_of_mem c hd))
      (fun d hd => hl d (List.mem_cons_of_mem c hd)) (by simpa using hnodup)
    refine ⟨m', ?_, by simpa using h'⟩
    rw [List.foldlM_cons, hold, hrun]
    exact hrun'

end Rmaps

/-! ### The whole call -/

namespace PveTable

/-- What is known of the two entries when the call is made: the slots of the old one are valid and
know their place, no page has two of them, and each of their pages has a slot left. -/
structure Movable (ncpus : ℕ) (newPve : PveId) (s : PveTable) : Prop where
  slot {c : ℕ} {a : RmapSlot} : c < ncpus → a ∈ s.rmaps.mapped s.pve c → s.rmaps.Copyable a
  once : ((s.rmaps.slots ncpus s.pve).map Prod.fst).Nodup
  empty (c : ℕ) : s.rmaps.mapped newPve c = []

/-- At the start nothing has been copied. -/
lemma Movable.copied {ncpus : ℕ} {newPve : PveId} {s : PveTable} (hs : s.Movable ncpus newPve)
    (base : PageId → BitVec 64) (area : MovedArea) :
    Rmaps.Copied ncpus base area (s.vmStart s.pve) newPve s.rmaps
      (([] : List ℕ).flatMap (s.rmaps.mapped s.pve)) s.rmaps := by
  constructor
  · intro c _
    rfl
  · intro c _
    rfl
  · intro x _
    rfl
  · intro c b hb
    simp [hs.empty] at hb
  · simp [Rmaps.places, Rmaps.slots, hs.empty]

/-- The new entry maps what the old one maps. -/
structure Translates (ncpus : ℕ) (base : PageId → BitVec 64) (area : MovedArea) (newPve : PveId)
    (s s' : PveTable) : Prop where
  pve_eq : s'.pve = newPve
  places_eq : s'.rmaps.places ncpus base (s'.vmStart newPve) newPve =
    s.rmaps.places ncpus base (s.vmStart s.pve) s.pve
  /-- A new slot is valid, belongs to the new area, and is on the list that its words name. -/
  new (c : ℕ) (b : RmapSlot) : b ∈ s'.rmaps.mapped newPve c → (s'.rmaps.words b).isValid = true ∧
    (s'.rmaps.words b).getVma = area.vma ∧ (s'.rmaps.words b).getCpu.toNat = c
  kept (a : RmapSlot) : (s.rmaps.words a).isValid = true → s'.rmaps.words a = s.rmaps.words a
  lists (x : PveId) : x ≠ newPve → s'.rmaps.mapped x = s.rmaps.mapped x

/-- `perma_mremap` translates all mappings of the old entry, and leaves all other slots alone. -/
theorem permaMremap_translates (ncpus : ℕ) (hcpus : ncpus ≤ 128) (base : PageId → BitVec 64)
    (area : MovedArea) (newPve : PveId) (myCpu : ℕ → ℕ) (hmy : ∀ c < ncpus, myCpu c < ncpus)
    (s : PveTable) (hal : area.Aligned (s.vmStart s.pve)) (hs : s.Movable ncpus newPve) :
    ∃ s', s.permaMremap ncpus area newPve myCpu = .ok s' ∧
      Translates ncpus base area newPve s s' := by
  have hstart := hs.copied base area
  have hslot : ∀ c ∈ List.range ncpus, ∀ a ∈ s.rmaps.mapped s.pve c, s.rmaps.Copyable a := by
    intro c hc a ha
    exact hs.slot (List.mem_range.mp hc) ha
  obtain ⟨m', hrun, h⟩ := hstart.copyLists hal hcpus hmy hs.empty
    (fun c hc => List.mem_range.mp hc) hslot hs.once
  refine ⟨_, by rw [permaMremap, hrun]; rfl, rfl, ?_, ?_, ?_, ?_⟩
  · simp only [Function.update_self]
    rw [h.places_eq]
    rfl
  · intro c b hb
    obtain ⟨-, vaddr, hrec⟩ := h.new hb
    exact ⟨hrec.valid, hrec.vma_eq, hrec.cpu_eq⟩
  · intro a ha
    exact h.kept ha
  · intro x hx
    exact h.lists hx

/-- Two pages that an area maps, each on the list of another processor of entry `0`; the first slot
of both holds words of a mapping that is gone. -/
def twoMapped : PveTable where
  rmaps :=
    { words := fun a =>
        if a.1 < 2 ∧ a.2.val = 2 then
          ((Pvr.init (Fin.last 2)).record (Fin.last 2) (0x6000#64 + BitVec.ofNat 64 a.1 * 0x1000#64)
            0x1000#64).setCpu (BitVec.ofNat 64 a.1)
        else if a.2.val = 0 then ⟨0x5081#64, 0x3000#64⟩ else Pvr.init a.2
      mapped := fun x c => if x = 0 ∧ c < 2 then [(c, Fin.last 2)] else [] }
  vmStart _ := 0x4000#64
  vmEnd _ := 0x8000#64
  pve := 0

/-- The area moves down, and its pages go with it. -/
theorem twoMapped_translates :
    ∃ s', twoMapped.permaMremap 2 ⟨0x2000#64, 0x1000#64, 0x5000#64⟩ 1 id = .ok s' ∧
      Translates 2 (fun p => BitVec.ofNat 64 p * 0x100#64) ⟨0x2000#64, 0x1000#64, 0x5000#64⟩ 1
        twoMapped s' := by
  refine permaMremap_translates 2 (by decide) _ _ 1 id (fun c hc => hc) twoMapped ?_ ?_
  · exact ⟨by decide, by decide, by decide⟩
  · constructor
    · intro c a hc ha
      obtain rfl : a = (c, Fin.last 2) := by
        simp only [twoMapped] at ha
        split_ifs at ha with hif
        · exact List.mem_singleton.mp ha
        · exact absurd ha List.not_mem_nil
      interval_cases c
      · exact ⟨by decide, by decide, by decide⟩
      · exact ⟨by decide, by decide, by decide⟩
    · decide
    · intro c
      simp [twoMapped]

end PveTable

/-! ### The fields taken apart -/

section fields

variable {C : Type*} {s : State C} {m m' m₀ : Rmaps} {area : MovedArea} {oldStart : BitVec 64}
  {newPve : PveId} {cpu ncpus : ℕ} {a : RmapSlot} {base : PageId → BitVec 64}

/-- The shift on natural numbers. -/
def MovedArea.shiftNat (area : MovedArea) (oldStart vaddr : ℕ) : ℕ :=
  if oldStart < area.vmStart.toNat then vaddr + (area.vmStart.toNat - oldStart)
  else vaddr - (oldStart - area.vmStart.toNat)

/-- A slot maps an address that is not before its area, and the new area does not wrap around. -/
def Rmaps.Shifts (area : MovedArea) (oldStart : BitVec 64) (m : Rmaps) (a : RmapSlot) : Prop :=
  oldStart.toNat ≤ (m.words a).getVaddr.toNat ∧
    (m.words a).getVaddr.toNat - oldStart.toNat + area.vmStart.toNat < 2 ^ 64

lemma Rmaps.Shifts.toNat_shift (h : Rmaps.Shifts area oldStart m a) :
    (area.shift oldStart (m.words a).getVaddr).toNat =
      area.shiftNat oldStart.toNat (m.words a).getVaddr.toNat := by
  obtain ⟨hle, hlt⟩ := h
  unfold MovedArea.shift MovedArea.shiftNat
  by_cases hs : oldStart.toNat < area.vmStart.toNat
  · rw [if_pos (BitVec.lt_def.mpr hs), if_pos hs, BitVec.toNat_add, BitVec.toNat_sub_of_le]
    · exact Nat.mod_eq_of_lt (by omega)
    · exact BitVec.le_def.mpr hs.le
  · rw [if_neg (fun h => hs (BitVec.lt_def.mp h)), if_neg hs, BitVec.toNat_sub_of_le,
      BitVec.toNat_sub_of_le]
    · exact BitVec.le_def.mpr (not_lt.mp hs)
    · rw [BitVec.le_def, BitVec.toNat_sub_of_le (BitVec.le_def.mpr (not_lt.mp hs))]
      omega

namespace Rmaps

/-- An iteration leaves the valid slots alone. -/
lemma words_copyRmap (hm : m.copyRmap area oldStart newPve cpu a = .ok m') {b : RmapSlot}
    (hb : (m.words b).isValid = true) : m'.words b = m.words b := by
  unfold copyRmap at hm
  cases hi : (List.finRange maxRmapsPerPage).find? fun i => !(m.words (a.1, i)).isValid with
  | none => simp [hi] at hm
  | some i =>
    have hne : b ≠ (a.1, i) := by
      rintro rfl
      have hinv := List.find?_some hi
      simp [hb] at hinv
    simp only [hi] at hm
    rw [← Except.ok.inj hm]
    simp [modify, listAddTail, hne]

/-- An iteration on the words is the iteration on the fields. -/
lemma Unpacks.copyRmap (h : Unpacks m s) (hal : area.Aligned oldStart) (hcpu : cpu < 128)
    (ha : (m.words a).isValid = true) (hshift : Shifts area oldStart m a)
    (hm : m.copyRmap area oldStart newPve cpu a = .ok m') :
    ∃ s', State.copyRmap area.vma.toNat (area.shiftNat oldStart.toNat) newPve cpu s a = .ok s' ∧
      Unpacks m' s' := by
  have hfree : State.firstFreeEntry (s.pages a.1) =
      (List.finRange maxRmapsPerPage).find? fun i => !(m.words (a.1, i)).isValid := by
    unfold State.firstFreeEntry
    congr 1
    funext i
    rw [h.rmap]
    rfl
  unfold Rmaps.copyRmap at hm
  unfold State.copyRmap
  rw [hfree]
  cases hi : (List.finRange maxRmapsPerPage).find? fun i => !(m.words (a.1, i)).isValid with
  | none => simp [hi] at hm
  | some i =>
    have hne : a ≠ (a.1, i) := by
      intro heq
      have hinv := List.find?_some hi
      rw [← heq] at hinv
      simp [ha] at hinv
    have hrec := Pvr.records_setCpu_move (m.words (a.1, i)) i
      (pageAligned_shift hal.new hal.old (pageAligned_getVaddr (m.words a))) hal.vma hcpu
    have hvaddr : ((s.pages a.1).rmap a.2).vaddr = (m.words a).getVaddr.toNat := by
      rw [h.rmap]
      rfl
    simp only [hi] at hm
    obtain rfl := Except.ok.inj hm
    refine ⟨_, rfl, h.link (a := (a.1, i)) ?_ ?_ rfl⟩
    · rw [hvaddr, ← hshift.toNat_shift, ← hrec.unpack]
      simp [modify, listAddTail, Function.update_of_ne hne]
    · intro b hb
      simp [modify, listAddTail, hb]

lemma Unpacks.copyList {l : List RmapSlot} (h : Unpacks m s) (hal : area.Aligned oldStart)
    (hcpu : cpu < 128) (hl : ∀ a ∈ l, (m.words a).isValid = true ∧ Shifts area oldStart m a)
    (hm : Rmaps.copyList area oldStart newPve cpu l m = .ok m') :
    ∃ s', l.foldlM (State.copyRmap area.vma.toNat (area.shiftNat oldStart.toNat) newPve cpu) s =
      .ok s' ∧ Unpacks m' s' := by
  induction l generalizing m s with
  | nil =>
    obtain rfl : m = m' := Except.ok.inj hm
    exact ⟨s, rfl, h⟩
  | cons a l ih =>
    rw [Rmaps.copyList, List.foldlM_cons] at hm
    cases hrun : m.copyRmap area oldStart newPve cpu a with
    | error x =>
      rw [hrun] at hm
      exact absurd hm (by simp [bind, Except.bind])
    | ok m₁ =>
      rw [hrun] at hm
      obtain ⟨hvalid, hshift⟩ := hl a (by simp)
      obtain ⟨s₁, hs₁, h₁⟩ := h.copyRmap hal hcpu hvalid hshift hrun
      have hl₁ : ∀ b ∈ l, (m₁.words b).isValid = true ∧ Shifts area oldStart m₁ b := by
        intro b hb
        have hold := hl b (List.mem_cons_of_mem a hb)
        rw [Shifts, words_copyRmap hrun hold.1]
        exact hold
      obtain ⟨s', hs', h'⟩ := ih h₁ hl₁ hm
      refine ⟨s', ?_, h'⟩
      rw [List.foldlM_cons, hs₁]
      exact hs'

/-- The lists one after the other are one list. -/
lemma Copied.foldlM_copyLists {x : PveId} {cs ds : List ℕ}
    (h : Copied ncpus base area oldStart newPve m₀ (ds.flatMap (m₀.mapped x)) m)
    (hal : area.Aligned oldStart) (hcpus : ncpus ≤ 128) (hcpu : cpu < ncpus)
    (hempty : ∀ c, m₀.mapped newPve c = []) (hcs : ∀ c ∈ cs, c < ncpus)
    (hl : ∀ c ∈ cs, ∀ a ∈ m₀.mapped x c, Copyable m₀ a)
    (hnodup : (((ds ++ cs).flatMap (m₀.mapped x)).map Prod.fst).Nodup) :
    cs.foldlM (fun m c => Rmaps.copyList area oldStart newPve cpu (m.mapped x c) m) m =
      Rmaps.copyList area oldStart newPve cpu (cs.flatMap (m₀.mapped x)) m := by
  induction cs generalizing m ds with
  | nil => rfl
  | cons c cs ih =>
    obtain ⟨hold, m₁, hrun, h₁⟩ :=
      h.nextList hal hcpus hcpu hempty (hcs c (by simp)) (hl c (by simp)) hnodup
    have hrest := ih h₁ (fun d hd => hcs d (List.mem_cons_of_mem c hd))
      (fun d hd => hl d (List.mem_cons_of_mem c hd)) (by simpa using hnodup)
    rw [List.foldlM_cons, hold, List.flatMap_cons, hrun]
    rw [Rmaps.copyList, List.foldlM_append]
    rw [Rmaps.copyList] at hrun
    rw [hrun]
    exact hrest

end Rmaps

/-- What the loop of `perma_mremap` does not look at. -/
structure SameRanges (s s' : State C) : Prop where
  infos : s'.infos = s.infos
  vmas : s'.vmas = s.vmas
  range (x : PveId) : (s'.pves x).vmStart = (s.pves x).vmStart ∧
    (s'.pves x).vmEnd = (s.pves x).vmEnd

lemma sameRanges_copyRmap {s' : State C} {vma : VmaId} {shift : ℕ → ℕ}
    (hs : State.copyRmap vma shift newPve cpu s a = .ok s') : SameRanges s s' := by
  unfold State.copyRmap at hs
  cases hi : State.firstFreeEntry (s.pages a.1) with
  | none => simp [hi] at hs
  | some j =>
    simp only [hi] at hs
    obtain rfl := Except.ok.inj hs
    refine ⟨rfl, rfl, fun x => ?_⟩
    by_cases hx : x = newPve
    · subst hx
      simp [State.linkRmap, State.setRmap, State.modifyPage]
    · simp [State.linkRmap, State.setRmap, State.modifyPage, hx]

lemma sameRanges_foldlM {s' : State C} {vma : VmaId} {shift : ℕ → ℕ} {l : List RmapSlot}
    (hs : l.foldlM (State.copyRmap vma shift newPve cpu) s = .ok s') : SameRanges s s' := by
  induction l generalizing s with
  | nil =>
    obtain rfl : s = s' := Except.ok.inj hs
    exact ⟨rfl, rfl, fun _ => ⟨rfl, rfl⟩⟩
  | cons a l ih =>
    rw [List.foldlM_cons] at hs
    cases hrun : State.copyRmap vma shift newPve cpu s a with
    | error x =>
      rw [hrun] at hs
      exact absurd hs (by simp [bind, Except.bind])
    | ok s₁ =>
      rw [hrun] at hs
      have h₁ := sameRanges_copyRmap hrun
      have h₂ := ih hs
      exact ⟨h₂.infos.trans h₁.infos, h₂.vmas.trans h₁.vmas, fun x =>
        ⟨(h₂.range x).1.trans (h₁.range x).1, (h₂.range x).2.trans (h₁.range x).2⟩⟩

/-- The page buffer has these words, lists and entries, and the area has this entry. -/
structure PveTable.Unpacks (t : PveTable) (s : State C) (vma : VmaId) : Prop where
  rmaps : t.rmaps.Unpacks s
  range (x : PveId) : (s.pves x).vmStart = (t.vmStart x).toNat ∧
    (s.pves x).vmEnd = (t.vmEnd x).toNat
  pve : (s.infos (s.vmas vma).info).pve = some t.pve

/-- `perma_mremap` on the words is `perma_mremap` on the fields, on one processor. -/
lemma PveTable.Unpacks.permaMremap {e : Env C} {t t' : PveTable}
    (h : t.Unpacks s area.vma.toNat) (hcpus : e.ncpus ≤ 128) (hcpu : cpu < e.ncpus)
    (hstart : (s.vmas area.vma.toNat).vmStart = area.vmStart.toNat)
    (hend : (s.vmas area.vma.toNat).vmEnd = area.vmEnd.toNat)
    (hal : area.Aligned (t.vmStart t.pve)) (ht : t.Movable e.ncpus newPve)
    (hshift : ∀ a ∈ t.rmaps.slots e.ncpus t.pve, t.rmaps.Shifts area (t.vmStart t.pve) a)
    (hm : t.permaMremap e.ncpus area newPve (fun _ => cpu) = .ok t') :
    ∃ s', s.permaMremap e area.vma.toNat newPve cpu = .ok s' ∧ t'.Unpacks s' area.vma.toNat := by
  obtain ⟨m', hm', rfl⟩ := Except.map_eq_ok.mp hm
  -- the loops are one loop over the slots of the old entry
  have hflat := (ht.copied (fun _ => 0) area).foldlM_copyLists hal hcpus hcpu ht.empty
    (fun c hc => List.mem_range.mp hc) (fun c hc _ ha => ht.slot (List.mem_range.mp hc) ha) ht.once
  rw [hflat] at hm'
  set s₁ := s.modifyPve newPve fun p =>
    { p with vmStart := (s.vmas area.vma.toNat).vmStart, vmEnd := (s.vmas area.vma.toNat).vmEnd }
    with hs₁
  have hunp : t.rmaps.Unpacks s₁ := by
    refine ⟨h.rmaps.rmap, fun x c => ?_⟩
    rw [← h.rmaps.mapped]
    by_cases hx : x = newPve
    · subst hx
      simp [hs₁, State.modifyPve]
    · simp [hs₁, State.modifyPve, hx]
  have hvalid : ∀ a ∈ t.rmaps.slots e.ncpus t.pve, (t.rmaps.words a).isValid = true := by
    intro a ha
    obtain ⟨c, hc, ha⟩ := List.mem_flatMap.mp ha
    exact (ht.slot (List.mem_range.mp hc) ha).valid
  obtain ⟨s₂, hrun, h₂⟩ := hunp.copyList hal (hcpu.trans_le hcpus)
    (fun a ha => ⟨hvalid a ha, hshift a ha⟩) hm'
  have hsame := sameRanges_foldlM hrun
  have hslots : (List.range e.ncpus).flatMap (s.pves t.pve).pcpuMapped =
      t.rmaps.slots e.ncpus t.pve := List.flatMap_congr fun c _ => h.rmaps.mapped t.pve c
  let i := (s.vmas area.vma.toNat).info
  refine ⟨{ s₂ with infos := Function.update s₂.infos i { s₂.infos i with pve := some newPve } },
    ?_, ?_⟩
  · have hfun : (fun vaddr => if (s.pves t.pve).vmStart < (s.vmas area.vma.toNat).vmStart then
        vaddr + ((s.vmas area.vma.toNat).vmStart - (s.pves t.pve).vmStart)
        else vaddr - ((s.pves t.pve).vmStart - (s.vmas area.vma.toNat).vmStart)) =
        area.shiftNat (t.vmStart t.pve).toNat := by
      rw [(h.range t.pve).1, hstart]
      rfl
    simp only [State.permaMremap, h.pve, hfun, hslots, ← hs₁, hrun]
    rfl
  · refine ⟨⟨h₂.rmap, h₂.mapped⟩, fun x => ?_, ?_⟩
    · change (s₂.pves x).vmStart = _ ∧ (s₂.pves x).vmEnd = _
      rw [(hsame.range x).1, (hsame.range x).2]
      by_cases hx : x = newPve
      · subst hx
        simp [hs₁, State.modifyPve, hstart, hend]
      · simpa [hs₁, State.modifyPve, hx] using h.range x
    · change (Function.update s₂.infos i _ (s₂.vmas area.vma.toNat).info).pve = some newPve
      rw [hsame.vmas]
      change (Function.update s₂.infos i _ i).pve = some newPve
      rw [Function.update_self]

end fields

end FastMap
