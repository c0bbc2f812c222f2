import FastMap.Lib.Run
import FastMap.Linkage

/-!
# The slots of a shared page

A tagged page has `MAX_RMAPS_PER_PAGE` slots, and `dmap_add_or_update_rmap` takes one for every area
that maps the page. A slot becomes free when the mappings of the page are removed, or when the entry
of the area is released. This module counts the areas that need a slot from the history of the page
alone, and compares the count with the slots there are.
-/

namespace FastMap

/-- The areas of a machine, in any number: the entry of each one, and the address at which it maps a
page. -/
structure SlotAreas where
  pve : BitVec 64 → PveId
  addr : BitVec 64 → PageId → BitVec 64
  addr_aligned (v : BitVec 64) (p : PageId) : addr v p &&& ~~~0xFFF#64 = addr v p

/-- The calls that concern the slots of one tagged page. -/
inductive SlotOp where
  /-- `perma_vma_open` of an area of this entry. -/
  | open (x : PveId)
  /-- `perma_vma_close` of an area of this entry. -/
  | close (x : PveId)
  | fault (vma : BitVec 64) (cpu : ℕ)
  | removeMappings
  | drainPage
  deriving DecidableEq

/-- The pointer to an area is even, and the processor is online. -/
def SlotOp.Issued (ncpus : ℕ) : SlotOp → Prop
  | .fault vma cpu => vma &&& ~~~0x01#64 = vma ∧ cpu < ncpus
  | _ => True

/-- The entries: whether one is taken from `pve_alloc_cache`, and its `refcount`. -/
structure Slab where
  taken : PveId → Bool
  refcount : PveId → ℤ

namespace Slab

/-- Every entry is as `pve_init_once` makes it. -/
def init : Slab := ⟨fun _ => false, fun _ => 1⟩

/-- `perma_vma_open`. An entry that is taken again comes with the count that it was freed with. -/
def vmaOpen (s : Slab) (x : PveId) : Slab :=
  if s.taken x then { s with refcount := Function.update s.refcount x (s.refcount x + 1) }
  else { s with taken := Function.update s.taken x true }

/-- Whether `kref_put` calls `pve_release`. -/
def releases (s : Slab) (x : PveId) : Bool := s.refcount x == 1

/-- `perma_vma_close` -/
def vmaClose (s : Slab) (x : PveId) : Slab where
  taken := if s.releases x then Function.update s.taken x false else s.taken
  refcount := Function.update s.refcount x (s.refcount x - 1)

end Slab

/-- The words and lists of the slots, and the entries. -/
structure PageSlots where
  rmaps : Rmaps
  slab : Slab

namespace Rmaps

/-- `free_entry` after the loop of `dmap_add_or_update_rmap`. -/
def freeEntry (m : Rmaps) (p : PageId) : ℤ :=
  match ((List.finRange maxRmapsPerPage).filter fun i => !(m.words (p, i)).isValid).getLast? with
  | none => -1
  | some i => i

/-- The index that `dmap_add_or_update_rmap` writes to, unless it finds a slot of the area. -/
def slotWritten (m : Rmaps) (vma : BitVec 64) (p : PageId) : Option ℤ :=
  match (List.finRange maxRmapsPerPage).find? fun i =>
      (m.words (p, i)).isValid && (m.words (p, i)).getVma == vma with
  | some _ => none
  | none => some (m.freeEntry p)

end Rmaps

namespace PageSlots

def init : PageSlots := ⟨Rmaps.init, .init⟩

def exec (A : SlotAreas) (ncpus : ℕ) (p : PageId) (m : PageSlots) : SlotOp → Except Halt PageSlots
  | .open x => .ok { m with slab := m.slab.vmaOpen x }
  | .close x =>
    if m.slab.releases x then (m.rmaps.pveRelease ncpus x).map fun r => ⟨r, m.slab.vmaClose x⟩
    else .ok { m with slab := m.slab.vmaClose x }
  | .fault vma cpu =>
    (m.rmaps.dmapAddOrUpdateRmap vma (A.pve vma) (A.addr vma p) p cpu).map
      fun r => { m with rmaps := r }
  | .removeMappings => .ok { m with rmaps := m.rmaps.removeMappings p }
  | .drainPage => .ok { m with rmaps := m.rmaps.drainPage p }

def execAll (A : SlotAreas) (ncpus : ℕ) (p : PageId) (m : PageSlots) (ops : List SlotOp) :
    Except Halt PageSlots :=
  ops.foldlM (fun m op => m.exec A ncpus p op) m

/-- Every fault of the run writes a slot that the page has. -/
def InBounds (A : SlotAreas) (ncpus : ℕ) (p : PageId) (ops : List SlotOp) : Prop :=
  ∀ pre vma cpu, pre ++ [.fault vma cpu] <+: ops → ∀ m, init.execAll A ncpus p pre = .ok m →
    ∀ j ∈ m.rmaps.slotWritten vma p, 0 ≤ j ∧ j < (maxRmapsPerPage : ℤ)

end PageSlots

/-! ### The history of a page -/

/-- The areas that have faulted on the page since its mappings were last removed, and whose entry
has not been released since. -/
structure Mappers where
  vmas : Finset (BitVec 64)
  slab : Slab

namespace Mappers

def step (A : SlotAreas) (h : Mappers) : SlotOp → Mappers
  | .open x => { h with slab := h.slab.vmaOpen x }
  | .close x =>
    { vmas := if h.slab.releases x then h.vmas.filter (A.pve · ≠ x) else h.vmas
      slab := h.slab.vmaClose x }
  | .fault vma _ => { h with vmas := insert vma h.vmas }
  | .removeMappings => { h with vmas := ∅ }
  | .drainPage => { h with vmas := ∅ }

/-- The areas at the end of a sequence of calls. -/
def after (A : SlotAreas) (ops : List SlotOp) : Mappers := ops.foldl (step A) ⟨∅, .init⟩

lemma after_concat (A : SlotAreas) (ops : List SlotOp) (op : SlotOp) :
    after A (ops ++ [op]) = (after A ops).step A op := by
  rw [after, List.foldl_append]
  rfl

end Mappers

/-! ### One call on the slots -/

namespace Rmaps

variable {m m' : Rmaps} {vma vaddr : BitVec 64} {p : PageId} {x : PveId} {cpu ncpus : ℕ}

lemma freeEntry_of_free {i : Fin maxRmapsPerPage} (hi : (m.words (p, i)).isValid = false) :
    ∃ j : Fin maxRmapsPerPage, m.freeEntry p = j ∧ (m.words (p, j)).isValid = false := by
  unfold freeEntry
  cases hlast : ((List.finRange maxRmapsPerPage).filter
      fun i => !(m.words (p, i)).isValid).getLast? with
  | none =>
    rw [List.getLast?_eq_none_iff, List.filter_eq_nil_iff] at hlast
    exact absurd hi (by simpa using hlast i (List.mem_finRange i))
  | some j => exact ⟨j, rfl, by simpa using List.mem_of_mem_getLast? hlast⟩

lemma free_of_freeEntry (h : 0 ≤ m.freeEntry p) : ∃ i, (m.words (p, i)).isValid = false := by
  unfold freeEntry at h
  cases hlast : ((List.finRange maxRmapsPerPage).filter
      fun i => !(m.words (p, i)).isValid).getLast? with
  | none =>
    rw [hlast] at h
    exact absurd h (by decide)
  | some j => exact ⟨j, by simpa using List.mem_of_mem_getLast? hlast⟩

/-- Nothing is written if the page has a slot of the area. -/
lemma slotWritten_eq (m : Rmaps) (vma : BitVec 64) (p : PageId) :
    (m.slotWritten vma p = none ∧
      ∃ i, (m.words (p, i)).isValid = true ∧ (m.words (p, i)).getVma = vma) ∨
    (m.slotWritten vma p = some (m.freeEntry p) ∧
      ∀ i, (m.words (p, i)).isValid = true → (m.words (p, i)).getVma ≠ vma) := by
  unfold slotWritten
  cases hfind : (List.finRange maxRmapsPerPage).find? fun i =>
      (m.words (p, i)).isValid && (m.words (p, i)).getVma == vma with
  | some i => exact Or.inl ⟨rfl, i, by simpa using List.find?_some hfind⟩
  | none => exact Or.inr ⟨rfl, by simpa [List.find?_eq_none] using hfind⟩

/-- The call overruns the array exactly when it writes index `-1`. -/
lemma dmapAddOrUpdateRmap_overflow_iff :
    m.dmapAddOrUpdateRmap vma x vaddr p cpu = .error .rmapOverflow ↔
      m.slotWritten vma p = some (-1) := by
  unfold Rmaps.dmapAddOrUpdateRmap slotWritten freeEntry
  cases (List.finRange maxRmapsPerPage).find? fun i =>
      (m.words (p, i)).isValid && (m.words (p, i)).getVma == vma with
  | some i => simp
  | none =>
    cases ((List.finRange maxRmapsPerPage).filter
        fun i => !(m.words (p, i)).isValid).getLast? with
    | none => simp
    | some i => simp

/-- The areas that have a slot of the page after a fault. -/
lemma valid_dmapAddOrUpdateRmap (hv : vma &&& ~~~0x01#64 = vma)
    (ha : vaddr &&& ~~~0xFFF#64 = vaddr) (hcpu : cpu < 128)
    (hm : m.dmapAddOrUpdateRmap vma x vaddr p cpu = .ok m') :
    (∀ a, (m'.words a).isValid = true → a.1 = p ∨ (m.words a).isValid = true) ∧
    ∀ v, (∃ i, (m'.words (p, i)).isValid = true ∧ (m'.words (p, i)).getVma = v) ↔
      v = vma ∨ ∃ i, (m.words (p, i)).isValid = true ∧ (m.words (p, i)).getVma = v := by
  unfold Rmaps.dmapAddOrUpdateRmap at hm
  cases hfind : (List.finRange maxRmapsPerPage).find? fun i =>
      (m.words (p, i)).isValid && (m.words (p, i)).getVma == vma with
  | some i =>
    rw [hfind] at hm
    obtain rfl := Except.ok.inj hm
    have hi : (m.words (p, i)).isValid = true ∧ (m.words (p, i)).getVma = vma := by
      simpa using List.find?_some hfind
    refine ⟨fun a ha => Or.inr ha, ?_⟩
    intro v
    constructor
    · exact Or.inr
    · rintro (rfl | hex)
      · exact ⟨i, hi⟩
      · exact hex
  | none =>
    rw [hfind] at hm
    cases hlast : ((List.finRange maxRmapsPerPage).filter
        fun i => !(m.words (p, i)).isValid).getLast? with
    | none => simp [hlast] at hm
    | some i =>
      have hfree : (m.words (p, i)).isValid = false := by
        simpa using List.mem_of_mem_getLast? hlast
      simp only [hlast] at hm
      obtain rfl := Except.ok.inj hm
      set w := ((m.words (p, i)).record i vaddr vma).setCpu (BitVec.ofNat 64 cpu) with hw
      have hrec : w.Records i vaddr vma cpu :=
        Pvr.records_setCpu_record (m.words (p, i)) i ha hv hcpu
      have hwords : ∀ b, (((m.modify (p, i) fun w => w.record i vaddr vma).listAddTail (p, i) x
          cpu).modify (p, i) fun w => w.setCpu (BitVec.ofNat 64 cpu)).words b =
          if b = (p, i) then w else m.words b := by
        intro b
        by_cases hb : b = (p, i) <;> simp [Rmaps.modify, listAddTail, hw, hb]
      constructor
      · intro a hva
        rw [hwords] at hva
        split_ifs at hva with hai
        · exact Or.inl (congrArg Prod.fst hai)
        · exact Or.inr hva
      · intro v
        simp only [hwords]
        constructor
        · rintro ⟨j, hj, hjv⟩
          split_ifs at hj hjv with hji
          · exact Or.inl (hjv.symm.trans hrec.vma_eq)
          · exact Or.inr ⟨j, hj, hjv⟩
        · rintro (rfl | ⟨j, hj, hjv⟩)
          · exact ⟨i, by rw [if_pos rfl]; exact hrec.valid, by rw [if_pos rfl]; exact hrec.vma_eq⟩
          · have hji : (p, j) ≠ (p, i) := by
              intro heq
              rw [heq, hfree] at hj
              exact Bool.false_ne_true hj
            exact ⟨j, by rwa [if_neg hji], by rwa [if_neg hji]⟩

/-- No slot of a page is valid once its mappings have been removed. -/
lemma isValid_removeMappings {a : RmapSlot} (h : ((m.removeMappings p).words a).isValid = true) :
    a.1 ≠ p ∧ (m.words a).isValid = true := by
  obtain ⟨hne, hv⟩ := isValid_dropSlots p _ m a h
  refine ⟨?_, hv⟩
  intro hp
  exact hne a.2 (List.mem_finRange a.2) (Prod.ext hp rfl)

lemma isValid_drainPage {a : RmapSlot} (h : ((m.drainPage p).words a).isValid = true) :
    a.1 ≠ p ∧ (m.words a).isValid = true := by
  change (((m.removeMappings p).clearSlots p).words a).isValid = true at h
  rw [words_clearSlots] at h
  split_ifs at h with hp
  · rw [Pvr.isValid_clear] at h
    exact absurd h Bool.false_ne_true
  · exact isValid_removeMappings h

/-- A loop that makes slots invalid. -/
lemma words_foldl_mkInvalid (l : List RmapSlot) (m : Rmaps) (a : RmapSlot) :
    (a ∈ l → ((l.foldl (fun m b => m.modify b Pvr.mkInvalid) m).words a).isValid = false) ∧
    (a ∉ l → (l.foldl (fun m b => m.modify b Pvr.mkInvalid) m).words a = m.words a) := by
  induction l generalizing m with
  | nil => simp
  | cons b l ih =>
    obtain ⟨hin, hout⟩ := ih (m.modify b Pvr.mkInvalid)
    rw [List.foldl_cons]
    constructor
    · intro ha
      by_cases hal : a ∈ l
      · exact hin hal
      · obtain rfl := (List.mem_cons.mp ha).resolve_right hal
        rw [hout hal, words_modify_self, Pvr.isValid_mkInvalid]
    · intro ha
      rw [List.mem_cons, not_or] at ha
      rw [hout ha.2, words_modify_of_ne m _ ha.1]

/-- The slots on the lists of an entry are the valid ones of its areas. -/
lemma Inv.mem_slots_iff {A : MappedAreas} (h : Inv A ncpus m) {a : RmapSlot} :
    a ∈ m.slots ncpus x ↔ (m.words a).isValid = true ∧ A.pve (m.words a).getVma = x := by
  unfold slots
  rw [List.mem_flatMap]
  constructor
  · rintro ⟨cpu, -, hmem⟩
    have hcount := List.count_pos_iff.mpr hmem
    rw [h.count_eq] at hcount
    split_ifs at hcount with hif
    · exact ⟨hif.1, hif.2.1.symm⟩
    · exact absurd hcount (lt_irrefl 0)
  · rintro ⟨hv, rfl⟩
    refine ⟨(m.words a).getCpu.toNat, List.mem_range.mpr (h.cpu_lt hv), ?_⟩
    rw [← List.count_pos_iff, h.count_eq, if_pos ⟨hv, rfl, rfl⟩]
    exact Nat.one_pos

/-- The slots that a release leaves valid. -/
lemma Inv.pveRelease {A : MappedAreas} (h : Inv A ncpus m) (x : PveId) :
    ∃ m', m.pveRelease ncpus x = .ok m' ∧ Inv A ncpus m' ∧
      (∀ a, (m'.words a).isValid = true → m'.words a = m.words a) ∧
      ∀ a, (m'.words a).isValid = true ↔
        (m.words a).isValid = true ∧ A.pve (m.words a).getVma ≠ x := by
  obtain ⟨m', hm', hinv, -⟩ := h.releaseLoop x (le_refl (m.numMapped ncpus x))
  refine ⟨m', hm', hinv, ?_⟩
  rw [h.releaseLoop_eq x (le_refl _)] at hm'
  obtain rfl := Except.ok.inj hm'
  have hkept : ∀ a, a ∉ m.slots ncpus x → ((m.slots ncpus x).foldl
      (fun m b => m.modify b Pvr.mkInvalid) (m.emptied x)).words a = m.words a :=
    fun a => (words_foldl_mkInvalid _ (m.emptied x) a).2
  have hnot : ∀ a, (((m.slots ncpus x).foldl
      (fun m b => m.modify b Pvr.mkInvalid) (m.emptied x)).words a).isValid = true →
        a ∉ m.slots ncpus x := by
    intro a ha hmem
    rw [(words_foldl_mkInvalid _ (m.emptied x) a).1 hmem] at ha
    exact Bool.false_ne_true ha
  refine ⟨fun a ha => hkept a (hnot a ha), fun a => ⟨?_, ?_⟩⟩
  · intro ha
    have hm := hnot a ha
    rw [hkept a hm] at ha
    refine ⟨ha, ?_⟩
    intro hx
    exact hm (h.mem_slots_iff.mpr ⟨ha, hx⟩)
  · rintro ⟨ha, hx⟩
    rw [hkept a]
    · exact ha
    · intro hmem
      exact hx (h.mem_slots_iff.mp hmem).2

end Rmaps

/-! ### The slots follow the history -/

/-- A set of areas that a page has slots for. -/
def SlotAreas.only (A : SlotAreas) (vmas : Finset (BitVec 64)) (hcard : vmas.card ≤ maxRmapsPerPage)
    (hal : ∀ v ∈ vmas, v &&& ~~~0x01#64 = v) : MappedAreas where
  vmas := vmas
  card_le := hcard
  vma_aligned hv := hal _ hv
  pve := A.pve
  addr := A.addr
  addr_aligned := A.addr_aligned

namespace PageSlots

variable {A : SlotAreas} {ncpus : ℕ} {p : PageId} {m m' : PageSlots} {h : Mappers} {op : SlotOp}

/-- The valid slots of the page are those of the areas that the history gives, and no other page has
any. -/
structure Follows (A : SlotAreas) (ncpus : ℕ) (p : PageId) (m : PageSlots) (h : Mappers) :
    Prop where
  slab_eq : m.slab = h.slab
  card_le : h.vmas.card ≤ maxRmapsPerPage
  aligned : ∀ v ∈ h.vmas, v &&& ~~~0x01#64 = v
  inv : Rmaps.Inv (A.only h.vmas card_le aligned) ncpus m.rmaps
  page_eq {a : RmapSlot} : (m.rmaps.words a).isValid = true → a.1 = p
  mem_iff (v : BitVec 64) : v ∈ h.vmas ↔
    ∃ i, (m.rmaps.words (p, i)).isValid = true ∧ (m.rmaps.words (p, i)).getVma = v

/-- Only the areas of valid slots count. -/
lemma inv_only {V V' : Finset (BitVec 64)} {hV : V.card ≤ maxRmapsPerPage}
    {hV' : V'.card ≤ maxRmapsPerPage} {hal : ∀ v ∈ V, v &&& ~~~0x01#64 = v}
    {hal' : ∀ v ∈ V', v &&& ~~~0x01#64 = v} {r : Rmaps} (h : Rmaps.Inv (A.only V hV hal) ncpus r)
    (hmem : ∀ a, (r.words a).isValid = true → (r.words a).getVma ∈ V') :
    Rmaps.Inv (A.only V' hV' hal') ncpus r :=
  ⟨h.unique, fun {a} ha => hmem a ha, h.cpu_lt, h.idx_eq, h.count_eq⟩

/-- The slots of no area. -/
lemma follows_empty {V : Finset (BitVec 64)} {hV : V.card ≤ maxRmapsPerPage}
    {hal : ∀ v ∈ V, v &&& ~~~0x01#64 = v} (hinv : Rmaps.Inv (A.only V hV hal) ncpus m.rmaps)
    (hno : ∀ a, (m.rmaps.words a).isValid = false) :
    Follows A ncpus p m ⟨∅, m.slab⟩ := by
  have hfalse : ∀ {a}, (m.rmaps.words a).isValid = true → False := by
    intro a ha
    rw [hno a] at ha
    exact Bool.false_ne_true ha
  refine ⟨rfl, by simp, by simp, inv_only hinv fun a ha => (hfalse ha).elim,
    fun ha => (hfalse ha).elim, ?_⟩
  intro v
  constructor
  · intro hv
    exact absurd hv (Finset.notMem_empty v)
  · rintro ⟨i, hi, -⟩
    exact (hfalse hi).elim

lemma follows_init (A : SlotAreas) (ncpus : ℕ) (p : PageId) :
    Follows A ncpus p init (Mappers.after A []) := by
  have hinv : Rmaps.Inv (A.only ∅ (by simp) (by simp)) ncpus Rmaps.init := Rmaps.inv_init
  apply follows_empty hinv
  rintro ⟨q, i⟩
  change (Pvr.init i).isValid = false
  revert i
  decide

/-- The calls that take all slots of the page away. -/
lemma Follows.emptied (hf : Follows A ncpus p m h) {r : Rmaps}
    (hinv : Rmaps.Inv (A.only h.vmas hf.card_le hf.aligned) ncpus r)
    (hno : ∀ {a}, (r.words a).isValid = true → a.1 ≠ p ∧ (m.rmaps.words a).isValid = true) :
    Follows A ncpus p { m with rmaps := r } { h with vmas := ∅ } := by
  have hempty : Follows A ncpus p { m with rmaps := r } ⟨∅, m.slab⟩ := by
    apply follows_empty hinv
    intro a
    apply Bool.eq_false_iff.mpr
    intro ha
    exact (hno ha).1 (hf.page_eq (hno ha).2)
  rw [← hf.slab_eq]
  exact hempty

/-- A release takes the slots of the areas of its entry away. -/
lemma Follows.released (hf : Follows A ncpus p m h) (x : PveId) :
    ∃ r, m.rmaps.pveRelease ncpus x = .ok r ∧
      Follows A ncpus p ⟨r, m.slab⟩ ⟨h.vmas.filter (A.pve · ≠ x), h.slab⟩ := by
  obtain ⟨r, hr, hinv, hwords, hvalid⟩ := hf.inv.pveRelease x
  have hmem : ∀ v, v ∈ h.vmas.filter (A.pve · ≠ x) ↔
      ∃ i, (r.words (p, i)).isValid = true ∧ (r.words (p, i)).getVma = v := by
    intro v
    rw [Finset.mem_filter, hf.mem_iff]
    constructor
    · rintro ⟨⟨i, hi, rfl⟩, hx⟩
      have hi' := (hvalid (p, i)).mpr ⟨hi, hx⟩
      exact ⟨i, hi', by rw [hwords _ hi']⟩
    · rintro ⟨i, hi, rfl⟩
      obtain ⟨hi', hx⟩ := (hvalid (p, i)).mp hi
      rw [hwords _ hi]
      exact ⟨⟨i, hi', rfl⟩, hx⟩
  have hpage : ∀ {a}, (r.words a).isValid = true → a.1 = p :=
    fun ha => hf.page_eq ((hvalid _).mp ha).1
  refine ⟨r, hr, hf.slab_eq, (Finset.card_filter_le _ _).trans hf.card_le,
    fun v hv => hf.aligned v (Finset.mem_of_mem_filter v hv), inv_only hinv ?_, hpage, hmem⟩
  rintro ⟨q, i⟩ ha
  obtain rfl := hpage ha
  exact (hmem _).mpr ⟨i, ha, rfl⟩

lemma Follows.aligned_insert (hf : Follows A ncpus p m h) {vma : BitVec 64}
    (hv : vma &&& ~~~0x01#64 = vma) : ∀ v ∈ insert vma h.vmas, v &&& ~~~0x01#64 = v := by
  intro v hmem
  rcases Finset.mem_insert.mp hmem with rfl | hmem
  · exact hv
  · exact hf.aligned v hmem

/-- The slots do not change when one more area is considered. -/
lemma Follows.inv_insert (hf : Follows A ncpus p m h) {vma : BitVec 64}
    (hv : vma &&& ~~~0x01#64 = vma) (hcard : (insert vma h.vmas).card ≤ maxRmapsPerPage) :
    Rmaps.Inv (A.only (insert vma h.vmas) hcard (hf.aligned_insert hv)) ncpus m.rmaps := by
  apply inv_only hf.inv
  intro a ha
  exact Finset.mem_insert_of_mem (hf.inv.vma_mem ha)

/-- A fault of an area that the page has a slot for. -/
lemma Follows.fault (hf : Follows A ncpus p m h) (hcpus : ncpus ≤ 128) {vma : BitVec 64} {cpu : ℕ}
    (hv : vma &&& ~~~0x01#64 = vma) (hcpu : cpu < ncpus)
    (hcard : (insert vma h.vmas).card ≤ maxRmapsPerPage) :
    ∃ r, m.rmaps.dmapAddOrUpdateRmap vma (A.pve vma) (A.addr vma p) p cpu = .ok r ∧
      Follows A ncpus p { m with rmaps := r } { h with vmas := insert vma h.vmas } := by
  have hinv := hf.inv_insert hv hcard
  obtain ⟨r, hr, hinv'⟩ :=
    hinv.dmapAddOrUpdateRmap hcpus (Finset.mem_insert_self vma h.vmas) p hcpu
  obtain ⟨hpage, hvmas⟩ :=
    Rmaps.valid_dmapAddOrUpdateRmap hv (A.addr_aligned vma p) (hcpu.trans_le hcpus) hr
  refine ⟨r, hr, hf.slab_eq, hcard, hf.aligned_insert hv, hinv', ?_, ?_⟩
  · intro a ha
    exact (hpage a ha).elim id hf.page_eq
  · intro v
    rw [Finset.mem_insert, hf.mem_iff, hvmas]

/-- One call, as long as the page has a slot for every area of its history. -/
lemma Follows.exec (hf : Follows A ncpus p m h) (hcpus : ncpus ≤ 128) (hop : op.Issued ncpus)
    (hcard : (h.step A op).vmas.card ≤ maxRmapsPerPage) :
    ∃ m', m.exec A ncpus p op = .ok m' ∧ Follows A ncpus p m' (h.step A op) := by
  cases op with
  | «open» x =>
    refine ⟨_, rfl, ?_⟩
    exact ⟨by simp only [Mappers.step, hf.slab_eq], hf.card_le, hf.aligned, hf.inv, hf.page_eq,
      hf.mem_iff⟩
  | close x =>
    have hslab := hf.slab_eq
    cases hlast : h.slab.releases x with
    | true =>
      obtain ⟨r, hr, hf'⟩ := hf.released x
      refine ⟨⟨r, m.slab.vmaClose x⟩, ?_, ?_⟩
      · simp only [PageSlots.exec, hslab, hlast, if_true, hr]
        rfl
      · simp only [Mappers.step, hlast, if_true]
        exact ⟨by rw [hslab], hf'.card_le, hf'.aligned, hf'.inv, hf'.page_eq, hf'.mem_iff⟩
    | false =>
      refine ⟨{ m with slab := m.slab.vmaClose x }, ?_, ?_⟩
      · simp [PageSlots.exec, hslab, hlast]
      · simp only [Mappers.step, hlast]
        exact ⟨by rw [hslab], hf.card_le, hf.aligned, hf.inv, hf.page_eq, hf.mem_iff⟩
  | fault vma cpu =>
    obtain ⟨r, hr, hf'⟩ := hf.fault hcpus hop.1 hop.2 hcard
    exact ⟨{ m with rmaps := r }, by rw [PageSlots.exec, hr]; rfl, hf'⟩
  | removeMappings =>
    exact ⟨_, rfl, hf.emptied (hf.inv.removeMappings p) Rmaps.isValid_removeMappings⟩
  | drainPage => exact ⟨_, rfl, hf.emptied (hf.inv.drainPage p) Rmaps.isValid_drainPage⟩

/-! ### Runs -/

lemma execAll_concat (A : SlotAreas) (ncpus : ℕ) (p : PageId) (ops : List SlotOp) (op : SlotOp)
    (hm : init.execAll A ncpus p ops = .ok m) :
    init.execAll A ncpus p (ops ++ [op]) = m.exec A ncpus p op := by
  unfold PageSlots.execAll at hm ⊢
  rw [List.foldlM_append, hm]
  change (m.exec A ncpus p op >>= pure) = _
  exact bind_pure _

/-- A run whose histories all fit in the slots. -/
lemma follows_execAll (hcpus : ncpus ≤ 128) {ops : List SlotOp}
    (hops : ∀ op ∈ ops, op.Issued ncpus)
    (hcard : ∀ pre, pre <+: ops → (Mappers.after A pre).vmas.card ≤ maxRmapsPerPage) :
    ∃ m, init.execAll A ncpus p ops = .ok m ∧ Follows A ncpus p m (Mappers.after A ops) := by
  induction ops using List.reverseRecOn with
  | nil => exact ⟨init, rfl, follows_init A ncpus p⟩
  | append_singleton ops op ih =>
    obtain ⟨m, hm, hf⟩ := ih (fun op' h => hops op' (List.mem_append_left _ h))
      fun pre hpre => hcard pre (hpre.trans (List.prefix_append ops [op]))
    have hlast := hcard _ (List.prefix_refl (ops ++ [op]))
    rw [Mappers.after_concat] at hlast ⊢
    obtain ⟨m', hm', hf'⟩ := hf.exec hcpus (hops op (by simp)) hlast
    exact ⟨m', (execAll_concat A ncpus p ops op hm).trans hm', hf'⟩

/-- A fault with a slot left writes it. -/
lemma Follows.slotWritten (hf : Follows A ncpus p m h) {vma : BitVec 64}
    (hv : vma &&& ~~~0x01#64 = vma) (hcard : (insert vma h.vmas).card ≤ maxRmapsPerPage) :
    ∀ j ∈ m.rmaps.slotWritten vma p, 0 ≤ j ∧ j < (maxRmapsPerPage : ℤ) := by
  intro j hj
  rcases m.rmaps.slotWritten_eq vma p with ⟨heq, -⟩ | ⟨heq, hnone⟩
  · simp [heq] at hj
  · obtain rfl : m.rmaps.freeEntry p = j := by simpa [heq] using hj
    have hinv := hf.inv_insert hv hcard
    obtain ⟨i, hi⟩ := hinv.exists_free (Finset.mem_insert_self vma h.vmas) p hnone
    obtain ⟨k, hk, -⟩ := Rmaps.freeEntry_of_free hi
    rw [hk]
    exact ⟨Int.natCast_nonneg _, Int.ofNat_lt.mpr k.isLt⟩

/-- A fault that writes a slot leaves no more areas than there are slots. -/
lemma Follows.card_insert_le (hf : Follows A ncpus p m h) {vma : BitVec 64}
    (hj : ∀ j ∈ m.rmaps.slotWritten vma p, 0 ≤ j ∧ j < (maxRmapsPerPage : ℤ)) :
    (insert vma h.vmas).card ≤ maxRmapsPerPage := by
  rcases m.rmaps.slotWritten_eq vma p with ⟨-, hfound⟩ | ⟨heq, -⟩
  · rw [Finset.insert_eq_of_mem ((hf.mem_iff vma).mpr hfound)]
    exact hf.card_le
  · obtain ⟨i, hi⟩ := Rmaps.free_of_freeEntry (hj _ heq).1
    -- the areas take the slots other than the free one
    have hsub : h.vmas ⊆ (Finset.univ.erase i).image fun k => (m.rmaps.words (p, k)).getVma := by
      intro v hv
      obtain ⟨k, hk, hkv⟩ := (hf.mem_iff v).mp hv
      refine Finset.mem_image.mpr ⟨k, Finset.mem_erase.mpr ⟨?_, Finset.mem_univ k⟩, hkv⟩
      rintro rfl
      exact Bool.false_ne_true (hi.symm.trans hk)
    have hle := (Finset.card_le_card hsub).trans Finset.card_image_le
    rw [Finset.card_erase_of_mem (Finset.mem_univ i), Finset.card_univ, Fintype.card_fin] at hle
    have hins := Finset.card_insert_le vma h.vmas
    simp only [maxRmapsPerPage] at hle ⊢
    omega

/-- The other calls add no area. -/
lemma card_step_le (hcard : h.vmas.card ≤ maxRmapsPerPage)
    (hop : ∀ vma cpu, op ≠ .fault vma cpu) : (h.step A op).vmas.card ≤ maxRmapsPerPage := by
  cases op with
  | «open» x => exact hcard
  | close x =>
    simp only [Mappers.step]
    split_ifs
    · exact (Finset.card_filter_le _ _).trans hcard
    · exact hcard
  | fault vma cpu => exact absurd rfl (hop vma cpu)
  | removeMappings => exact Nat.zero_le _
  | drainPage => exact Nat.zero_le _

/-- With all indices in bounds, no history has more areas than there are slots. -/
lemma InBounds.card_le (hcpus : ncpus ≤ 128) {ops : List SlotOp}
    (hops : ∀ op ∈ ops, op.Issued ncpus) (hin : InBounds A ncpus p ops) {last : List SlotOp}
    (hlast : last <+: ops) :
    ∀ pre, pre <+: last → (Mappers.after A pre).vmas.card ≤ maxRmapsPerPage := by
  induction last using List.reverseRecOn with
  | nil =>
    intro pre hpre
    rw [List.prefix_nil.mp hpre]
    exact Nat.zero_le _
  | append_singleton last op ih =>
    have hle := ih ((List.prefix_append last [op]).trans hlast)
    intro pre hpre
    rcases List.prefix_concat_iff.mp hpre with rfl | hpre
    · -- all shorter histories fit, so the calls before the last one have returned
      obtain ⟨m, hm, hf⟩ := follows_execAll (p := p) hcpus
        (fun op' h => hops op' (hlast.subset (List.mem_append_left _ h))) hle
      rw [Mappers.after_concat]
      by_cases hfault : ∃ vma cpu, op = .fault vma cpu
      · obtain ⟨vma, cpu, rfl⟩ := hfault
        exact hf.card_insert_le (hin last vma cpu hlast m hm)
      · apply card_step_le hf.card_le
        intro vma cpu heq
        exact hfault ⟨vma, cpu, heq⟩
    · exact hle pre hpre

/-- Every slot that a run writes exists if and only if at no time more than `MAX_RMAPS_PER_PAGE`
areas have faulted on the page since its mappings were removed, with entries that have not been
released. -/
theorem inBounds_iff (A : SlotAreas) {ncpus : ℕ} (hcpus : ncpus ≤ 128) (p : PageId)
    (ops : List SlotOp) (hops : ∀ op ∈ ops, op.Issued ncpus) :
    InBounds A ncpus p ops ↔
      ∀ pre, pre <+: ops → (Mappers.after A pre).vmas.card ≤ maxRmapsPerPage := by
  constructor
  · intro hin
    exact hin.card_le hcpus hops (List.prefix_refl ops)
  · intro hcard pre vma cpu hpre m hm
    have hbefore : pre <+: ops := (List.prefix_append pre _).trans hpre
    obtain ⟨m', hm', hf⟩ := follows_execAll (p := p) hcpus
      (fun op h => hops op (hbefore.subset h)) fun pre' hpre' => hcard pre' (hpre'.trans hbefore)
    obtain rfl : m = m' := Except.ok.inj (hm.symm.trans hm')
    have hissued := hops (.fault vma cpu) (hpre.subset (by simp))
    have hlast := hcard _ hpre
    rw [Mappers.after_concat] at hlast
    exact hf.slotWritten hissued.1 hlast

lemma ownEntries_aligned : 0x3000#64 &&& ~~~0xFFF#64 = 0x3000#64 := by decide

/-- Each area has an entry of its own. -/
def ownEntries : SlotAreas where
  pve v := v.toNat
  addr _ _ := 0x3000#64
  addr_aligned _ _ := ownEntries_aligned

/-- A fourth area faults after the first one has been closed. -/
def closeBetween : List SlotOp :=
  [.open 2, .open 4, .open 6, .open 8, .fault 2#64 0, .fault 4#64 1, .fault 6#64 0, .close 2,
    .fault 8#64 1]

theorem inBounds_closeBetween : InBounds ownEntries 2 0 closeBetween := by
  have hcard : ∀ pre ∈ closeBetween.inits,
      (Mappers.after ownEntries pre).vmas.card ≤ maxRmapsPerPage := by decide +kernel
  have hiff := @inBounds_iff ownEntries 2 (by decide) 0 closeBetween
    (by simp [closeBetween, SlotOp.Issued])
  apply hiff.mpr
  intro pre hpre
  exact hcard pre ((List.mem_inits pre closeBetween).mpr hpre)

/-- Four areas map one page, and the slot of the fourth one is `rmap[-1]`. -/
theorem fourth_area : ¬ ∀ (A : SlotAreas) (ncpus : ℕ) (p : PageId) (ops : List SlotOp),
    ncpus ≤ 128 → (∀ op ∈ ops, op.Issued ncpus) → InBounds A ncpus p ops := by
  intro hall
  set pre : List SlotOp :=
    [.open 2, .open 4, .open 6, .open 8, .fault 2#64 0, .fault 4#64 1, .fault 6#64 0] with hpre
  have hin := hall ownEntries 2 0 (pre ++ [.fault 8#64 1]) (by decide)
    (by simp [hpre, SlotOp.Issued])
  have hlast : ((init.execAll ownEntries 2 0 pre).toOption.bind
      fun m => m.rmaps.slotWritten 8#64 0) = some (-1) := by decide +kernel
  obtain ⟨m, hm, hj⟩ := Option.bind_eq_some_iff.mp hlast
  have hbad := hin pre 8#64 1 (List.prefix_refl _) m (Except.toOption_eq_some.mp hm) (-1) hj
  exact absurd hbad.1 (by decide)

end PageSlots

end FastMap
