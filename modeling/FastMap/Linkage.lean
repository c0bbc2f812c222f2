import FastMap.RmapWords

/-!
# The lists of reverse mappings

A valid slot of a tagged page is on one list of the entry of its area, the one of the processor
that its words name. Faults put slots on the lists; `remove_mappings`, `drain_page` and
`__pve_release` take them off. This module follows the words and the lists through every sequence
of these calls.
-/

namespace FastMap

/-- A `struct pr_vma_rmap *`: a page and a position in its array `rmap`. -/
abbrev RmapSlot := PageId × Fin maxRmapsPerPage

/-- The areas that map pages, with the entry of each one and the address at which it maps a page. A
page has a slot for every one of them. -/
structure MappedAreas where
  vmas : Finset (BitVec 64)
  card_le : vmas.card ≤ maxRmapsPerPage
  vma_aligned {v : BitVec 64} : v ∈ vmas → v &&& ~~~0x01#64 = v
  pve : BitVec 64 → PveId
  addr : BitVec 64 → PageId → BitVec 64
  addr_aligned (v : BitVec 64) (p : PageId) : addr v p &&& ~~~0xFFF#64 = addr v p

/-- The words of all slots, and the lists `pcpu_mapped` of all entries. -/
structure Rmaps where
  words : RmapSlot → Pvr
  mapped : PveId → ℕ → List RmapSlot

namespace Rmaps

/-! ### The calls -/

def modify (m : Rmaps) (a : RmapSlot) (f : Pvr → Pvr) : Rmaps :=
  { m with words := Function.update m.words a (f (m.words a)) }

def listAddTail (m : Rmaps) (a : RmapSlot) (x : PveId) (cpu : ℕ) : Rmaps :=
  let l := m.mapped x
  { m with mapped := Function.update m.mapped x (Function.update l cpu (l cpu ++ [a])) }

/-- `list_del`: the slot leaves the list it is on. -/
def listDel (m : Rmaps) (a : RmapSlot) : Rmaps :=
  { m with mapped := fun x cpu => (m.mapped x cpu).erase a }

/-- `dmap_add_or_update_rmap` on processor `cpu`. With no slot left it writes `rmap[-1]`. -/
def dmapAddOrUpdateRmap (m : Rmaps) (vma : BitVec 64) (pve : PveId) (vaddr : BitVec 64)
    (p : PageId) (cpu : ℕ) : Except Halt Rmaps :=
  match (List.finRange maxRmapsPerPage).find? fun i =>
      (m.words (p, i)).isValid && (m.words (p, i)).getVma == vma with
  | some _ => .ok m
  | none =>
    match ((List.finRange maxRmapsPerPage).filter fun i => !(m.words (p, i)).isValid).getLast? with
    | none => .error .rmapOverflow
    | some i =>
      let m := m.modify (p, i) fun w => w.record i vaddr vma
      let m := m.listAddTail (p, i) pve cpu
      .ok (m.modify (p, i) fun w => w.setCpu (BitVec.ofNat 64 cpu))

/-- One iteration of the loops of `remove_mappings` and `drain_page`. -/
def dropSlot (m : Rmaps) (a : RmapSlot) : Rmaps :=
  if (m.words a).isValid then (m.modify a Pvr.mkInvalid).listDel a else m

def removeMappings (m : Rmaps) (p : PageId) : Rmaps :=
  (List.finRange maxRmapsPerPage).foldl (fun m i => m.dropSlot (p, i)) m

/-- The loop of `free_page_lock` over the slots. -/
def clearSlots (m : Rmaps) (p : PageId) : Rmaps :=
  (List.finRange maxRmapsPerPage).foldl (fun m i => m.modify (p, i) fun w => w.clear i) m

/-- `drain_page`, which ends with `free_page_lock`. -/
def drainPage (m : Rmaps) (p : PageId) : Rmaps :=
  ((List.finRange maxRmapsPerPage).foldl (fun m i => m.dropSlot (p, i)) m).clearSlots p

/-- `pop_one_pvr`, from the list of a processor on. -/
def popOnePvr (m : Rmaps) (x : PveId) : List ℕ → Option (RmapSlot × Rmaps)
  | [] => none
  | cpu :: cpus =>
    match m.mapped x cpu with
    | [] => m.popOnePvr x cpus
    | a :: _ => some (a, m.listDel a)

/-- The loop of `__pve_release`. Each iteration takes a slot off a list, so the number of slots on
the lists is enough fuel. -/
def releaseLoop (ncpus : ℕ) (x : PveId) : ℕ → Rmaps → Except Halt Rmaps
  | fuel, m =>
    match m.popOnePvr x (List.range ncpus) with
    | none => .ok m
    | some (a, m) =>
      match fuel with
      | 0 => .error .spin
      | fuel + 1 => releaseLoop ncpus x fuel (m.modify a Pvr.mkInvalid)

/-- The number of slots on the lists of an entry. -/
def numMapped (ncpus : ℕ) (m : Rmaps) (x : PveId) : ℕ :=
  ((List.range ncpus).map fun cpu => (m.mapped x cpu).length).sum

/-- `__pve_release` -/
def pveRelease (ncpus : ℕ) (m : Rmaps) (x : PveId) : Except Halt Rmaps :=
  releaseLoop ncpus x (m.numMapped ncpus x) m

/-- The slots as `clear_tagged_page_meta_data` leaves them, and empty lists. -/
def init : Rmaps := ⟨fun a => .init a.2, fun _ _ => []⟩

end Rmaps

/-- The calls that touch the slots or the lists. -/
inductive RmapOp where
  | fault (vma : BitVec 64) (p : PageId) (cpu : ℕ)
  | removeMappings (p : PageId)
  | drainPage (p : PageId)
  | pveRelease (x : PveId)
  deriving DecidableEq

/-- Faults are taken in the areas, on online processors. -/
def RmapOp.Issued (A : MappedAreas) (ncpus : ℕ) : RmapOp → Prop
  | .fault vma _ cpu => vma ∈ A.vmas ∧ cpu < ncpus
  | _ => True

namespace Rmaps

def exec (A : MappedAreas) (ncpus : ℕ) (m : Rmaps) : RmapOp → Except Halt Rmaps
  | .fault vma p cpu => m.dmapAddOrUpdateRmap vma (A.pve vma) (A.addr vma p) p cpu
  | .removeMappings p => .ok (m.removeMappings p)
  | .drainPage p => .ok (m.drainPage p)
  | .pveRelease x => m.pveRelease ncpus x

def execAll (A : MappedAreas) (ncpus : ℕ) (m : Rmaps) (ops : List RmapOp) : Except Halt Rmaps :=
  ops.foldlM (fun m op => m.exec A ncpus op) m

/-! ### The invariant -/

/-- The slot is on this list and on no other one, and is there once. -/
def OnlyOn (m : Rmaps) (a : RmapSlot) (x : PveId) (cpu : ℕ) : Prop :=
  ∀ x' cpu', (m.mapped x' cpu').count a = if x' = x ∧ cpu' = cpu then 1 else 0

/-- The fields of the valid slots, and the lists they are on. -/
structure Inv (A : MappedAreas) (ncpus : ℕ) (m : Rmaps) : Prop where
  unique {p : PageId} {i j : Fin maxRmapsPerPage} : (m.words (p, i)).isValid = true →
    (m.words (p, j)).isValid = true → (m.words (p, i)).getVma = (m.words (p, j)).getVma → i = j
  vma_mem {a : RmapSlot} : (m.words a).isValid = true → (m.words a).getVma ∈ A.vmas
  cpu_lt {a : RmapSlot} : (m.words a).isValid = true → (m.words a).getCpu.toNat < ncpus
  idx_eq {a : RmapSlot} : (m.words a).isValid = true → (m.words a).getIdx = BitVec.ofNat 64 a.2
  count_eq (a : RmapSlot) (x : PveId) (cpu : ℕ) : (m.mapped x cpu).count a =
    if (m.words a).isValid = true ∧ x = A.pve (m.words a).getVma ∧ cpu = (m.words a).getCpu.toNat
    then 1 else 0

variable {A : MappedAreas} {ncpus : ℕ} {m : Rmaps} {a : RmapSlot}

lemma inv_init : Inv A ncpus init := by
  have hvalid : ∀ a, (init.words a).isValid = false := by
    rintro ⟨p, i⟩
    change (Pvr.init i).isValid = false
    revert i
    decide
  constructor
  · intro p i j hi
    simp [hvalid] at hi
  · intro a ha
    simp [hvalid] at ha
  · intro a ha
    simp [hvalid] at ha
  · intro a ha
    simp [hvalid] at ha
  · intro a x cpu
    rw [hvalid]
    simp [init]

/-- Calls that add no slot: the slots that are valid are so already, and stay on their lists. -/
lemma Inv.of_fewer {m' : Rmaps} (h : Inv A ncpus m)
    (hw : ∀ b, (m'.words b).isValid = true → m'.words b = m.words b)
    (hc : ∀ b x cpu, (m'.mapped x cpu).count b =
      if (m'.words b).isValid = true then (m.mapped x cpu).count b else 0) : Inv A ncpus m' := by
  have hv : ∀ b, (m'.words b).isValid = true → (m.words b).isValid = true := by
    intro b hb
    rw [← hw b hb]
    exact hb
  constructor
  · intro p i j hi hj heq
    rw [hw _ hi, hw _ hj] at heq
    exact h.unique (hv _ hi) (hv _ hj) heq
  · intro b hb
    rw [hw b hb]
    exact h.vma_mem (hv b hb)
  · intro b hb
    rw [hw b hb]
    exact h.cpu_lt (hv b hb)
  · intro b hb
    rw [hw b hb]
    exact h.idx_eq (hv b hb)
  · intro b x cpu
    rw [hc]
    by_cases hb : (m'.words b).isValid = true
    · rw [if_pos hb, hw b hb, h.count_eq]
    · simp [hb]

lemma words_modify_of_ne {b : RmapSlot} (m : Rmaps) (f : Pvr → Pvr) (hb : b ≠ a) :
    (m.modify a f).words b = m.words b := Function.update_of_ne hb _ _

lemma words_modify_self (m : Rmaps) (f : Pvr → Pvr) :
    (m.modify a f).words a = f (m.words a) := Function.update_self _ _ _

lemma Inv.not_mem (h : Inv A ncpus m) (ha : (m.words a).isValid = false) (x : PveId) (cpu : ℕ) :
    a ∉ m.mapped x cpu := by
  rw [← List.count_eq_zero, h.count_eq, ha]
  simp

/-- Words of an invalid slot may change, as long as it stays invalid. -/
lemma Inv.modify (h : Inv A ncpus m) (ha : (m.words a).isValid = false) {f : Pvr → Pvr}
    (hf : (f (m.words a)).isValid = false) : Inv A ncpus (m.modify a f) := by
  apply h.of_fewer
  · intro b hb
    by_cases hba : b = a
    · subst hba
      simp [words_modify_self, hf] at hb
    · exact words_modify_of_ne m f hba
  · intro b x cpu
    by_cases hba : b = a
    · subst hba
      rw [words_modify_self, hf, if_neg Bool.false_ne_true]
      exact List.count_eq_zero.mpr (h.not_mem ha x cpu)
    · rw [words_modify_of_ne m f hba]
      by_cases hb : (m.words b).isValid = true
      · rw [if_pos hb]
        rfl
      · rw [if_neg hb]
        exact List.count_eq_zero.mpr (h.not_mem (by simpa using hb) x cpu)

/-- A slot becomes invalid and leaves its list. -/
lemma Inv.drop (h : Inv A ncpus m) (a : RmapSlot) :
    Inv A ncpus ((m.modify a Pvr.mkInvalid).listDel a) := by
  have hle : ∀ b x cpu, (m.mapped x cpu).count b ≤ 1 := by
    intro b x cpu
    rw [h.count_eq]
    split_ifs <;> simp
  apply h.of_fewer
  · intro b hb
    by_cases hba : b = a
    · subst hba
      simp [listDel, words_modify_self] at hb
    · exact words_modify_of_ne m _ hba
  · intro b x cpu
    change ((m.mapped x cpu).erase a).count b = _
    rw [List.count_erase]
    by_cases hba : b = a
    · subst hba
      have := hle b x cpu
      simp [listDel, words_modify_self]
      omega
    · have hne : (a == b) = false := by simpa using Ne.symm hba
      change _ = if ((m.modify a Pvr.mkInvalid).words b).isValid = true then _ else _
      rw [words_modify_of_ne m _ hba, hne]
      by_cases hb : (m.words b).isValid = true
      · simp [hb]
      · have := List.count_eq_zero.mpr (h.not_mem (by simpa using hb) x cpu)
        simp [hb, this]

/-! ### The calls keep the invariant -/

lemma Inv.dropSlot (h : Inv A ncpus m) (a : RmapSlot) : Inv A ncpus (m.dropSlot a) := by
  unfold Rmaps.dropSlot
  split_ifs
  · exact h.drop a
  · exact h

lemma isValid_dropSlot (m : Rmaps) (a b : RmapSlot) (hb : ((m.dropSlot a).words b).isValid = true) :
    b ≠ a ∧ (m.words b).isValid = true := by
  unfold Rmaps.dropSlot at hb
  split_ifs at hb with ha
  · by_cases hba : b = a
    · subst hba
      simp [listDel, words_modify_self] at hb
    · exact ⟨hba, by rwa [← words_modify_of_ne m Pvr.mkInvalid hba]⟩
  · refine ⟨?_, hb⟩
    rintro rfl
    exact ha hb

lemma isValid_dropSlots (p : PageId) (l : List (Fin maxRmapsPerPage)) (m : Rmaps) (b : RmapSlot)
    (hb : ((l.foldl (fun m i => m.dropSlot (p, i)) m).words b).isValid = true) :
    (∀ i ∈ l, b ≠ (p, i)) ∧ (m.words b).isValid = true := by
  induction l generalizing m with
  | nil => exact ⟨by simp, hb⟩
  | cons i l ih =>
    obtain ⟨hl, hb'⟩ := ih _ hb
    obtain ⟨hi, hm⟩ := isValid_dropSlot m _ b hb'
    refine ⟨?_, hm⟩
    intro j hj
    rcases List.mem_cons.mp hj with rfl | hj
    · exact hi
    · exact hl j hj

lemma Inv.dropSlots (h : Inv A ncpus m) (p : PageId) (l : List (Fin maxRmapsPerPage)) :
    Inv A ncpus (l.foldl (fun m i => m.dropSlot (p, i)) m) := by
  induction l generalizing m with
  | nil => exact h
  | cons i l ih => exact ih (h.dropSlot (p, i))

lemma Inv.removeMappings (h : Inv A ncpus m) (p : PageId) : Inv A ncpus (m.removeMappings p) :=
  h.dropSlots p _

/-- `free_page_lock` finds all slots of its page invalid. -/
lemma Inv.clearSlots (h : Inv A ncpus m) (p : PageId)
    (hp : ∀ i, (m.words (p, i)).isValid = false) : Inv A ncpus (m.clearSlots p) := by
  unfold Rmaps.clearSlots
  generalize List.finRange maxRmapsPerPage = l
  induction l generalizing m with
  | nil => exact h
  | cons i l ih =>
    apply ih (h.modify (hp i) (Pvr.isValid_clear _ i))
    intro j
    by_cases hj : j = i
    · subst hj
      rw [words_modify_self, Pvr.isValid_clear]
    · rw [words_modify_of_ne _ _ (by simp [hj])]
      exact hp j

lemma Inv.drainPage (h : Inv A ncpus m) (p : PageId) : Inv A ncpus (m.drainPage p) := by
  apply (h.dropSlots p _).clearSlots p
  intro i
  apply Bool.eq_false_iff.mpr
  intro hi
  exact (isValid_dropSlots p _ m _ hi).1 i (List.mem_finRange i) rfl

lemma popOnePvr_eq_none {x : PveId} {cpus : List ℕ} (h : m.popOnePvr x cpus = none) :
    ∀ cpu ∈ cpus, m.mapped x cpu = [] := by
  induction cpus with
  | nil => simp
  | cons cpu cpus ih =>
    cases hl : m.mapped x cpu with
    | nil =>
      simp only [popOnePvr, hl] at h
      intro c hc
      rcases List.mem_cons.mp hc with rfl | hc
      · exact hl
      · exact ih h c hc
    | cons a l => simp [popOnePvr, hl] at h

lemma popOnePvr_eq_some {m' : Rmaps} {x : PveId} {cpus : List ℕ}
    (h : m.popOnePvr x cpus = some (a, m')) :
    m' = m.listDel a ∧ ∃ cpu ∈ cpus, a ∈ m.mapped x cpu := by
  induction cpus with
  | nil => simp [popOnePvr] at h
  | cons cpu cpus ih =>
    cases hl : m.mapped x cpu with
    | nil =>
      simp only [popOnePvr, hl] at h
      obtain ⟨hm, c, hc, ha⟩ := ih h
      exact ⟨hm, c, List.mem_cons_of_mem _ hc, ha⟩
    | cons b l =>
      simp only [popOnePvr, hl, Option.some.injEq, Prod.mk.injEq] at h
      obtain ⟨rfl, rfl⟩ := h
      exact ⟨rfl, cpu, by simp, by simp [hl]⟩

/-- A slot that leaves a list makes the lists of the entry shorter. -/
lemma numMapped_listDel_lt {x : PveId} {cpu : ℕ} (hcpu : cpu < ncpus) (ha : a ∈ m.mapped x cpu) :
    (m.listDel a).numMapped ncpus x < m.numMapped ncpus x := by
  apply List.sum_lt_sum
  · intro c _
    exact List.length_erase_le
  · refine ⟨cpu, List.mem_range.mpr hcpu, ?_⟩
    have hpos := List.length_pos_of_mem ha
    change ((m.mapped x cpu).erase a).length < _
    rw [List.length_erase_of_mem ha]
    omega

/-- Only lists of online processors are used. -/
lemma Inv.mapped_eq_nil (h : Inv A ncpus m) (x : PveId) {cpu : ℕ} (hcpu : ncpus ≤ cpu) :
    m.mapped x cpu = [] := by
  apply List.eq_nil_iff_forall_not_mem.mpr
  intro a ha
  have hcount := List.count_pos_iff.mpr ha
  rw [h.count_eq] at hcount
  split_ifs at hcount with hon
  · have := h.cpu_lt hon.1
    omega
  · omega

lemma Inv.mapped_eq_nil_of_pop (h : Inv A ncpus m) {x : PveId}
    (hpop : m.popOnePvr x (List.range ncpus) = none) (cpu : ℕ) : m.mapped x cpu = [] := by
  rcases Nat.lt_or_ge cpu ncpus with hcpu | hcpu
  · exact popOnePvr_eq_none hpop cpu (List.mem_range.mpr hcpu)
  · exact h.mapped_eq_nil x hcpu

/-- The loop of `__pve_release` returns. What it leaves is shown for the last iteration, which finds
nothing, and from one iteration to the one before it. -/
lemma Inv.releaseLoop_rule {x : PveId} {Q : Rmaps → Rmaps → Prop}
    (hnil : ∀ {m}, Inv A ncpus m → m.popOnePvr x (List.range ncpus) = none → Q m m)
    (hstep : ∀ {m m' a cpu}, Inv A ncpus m → a ∈ m.mapped x cpu →
      m.popOnePvr x (List.range ncpus) = some (a, m.listDel a) →
        Q ((m.listDel a).modify a Pvr.mkInvalid) m' → Q m m')
    (h : Inv A ncpus m) {fuel : ℕ} (hfuel : m.numMapped ncpus x ≤ fuel) :
    ∃ m', releaseLoop ncpus x fuel m = .ok m' ∧ Q m m' := by
  induction fuel generalizing m with
  | zero =>
    cases hpop : m.popOnePvr x (List.range ncpus) with
    | none => exact ⟨m, by rw [Rmaps.releaseLoop, hpop], hnil h hpop⟩
    | some am =>
      obtain ⟨-, cpu, hcpu, ha⟩ := popOnePvr_eq_some hpop
      have := numMapped_listDel_lt (List.mem_range.mp hcpu) ha
      omega
  | succ fuel ih =>
    cases hpop : m.popOnePvr x (List.range ncpus) with
    | none => exact ⟨m, by rw [Rmaps.releaseLoop, hpop], hnil h hpop⟩
    | some am =>
      obtain ⟨a, m₁⟩ := am
      obtain ⟨rfl, cpu, hcpu, ha⟩ := popOnePvr_eq_some hpop
      have hlt := numMapped_listDel_lt (List.mem_range.mp hcpu) ha
      have hnum : ((m.listDel a).modify a Pvr.mkInvalid).numMapped ncpus x ≤ fuel :=
        Nat.le_of_lt_succ (hlt.trans_le hfuel)
      obtain ⟨m', hm', hq⟩ := ih (h.drop a) hnum
      refine ⟨m', ?_, hstep h ha hpop hq⟩
      rw [Rmaps.releaseLoop, hpop]
      exact hm'

/-- `__pve_release` returns, with empty lists. -/
lemma Inv.releaseLoop (h : Inv A ncpus m) (x : PveId) {fuel : ℕ}
    (hfuel : m.numMapped ncpus x ≤ fuel) :
    ∃ m', releaseLoop ncpus x fuel m = .ok m' ∧ Inv A ncpus m' ∧ ∀ cpu, m'.mapped x cpu = [] :=
  releaseLoop_rule (Q := fun _ m' => Inv A ncpus m' ∧ ∀ cpu, m'.mapped x cpu = [])
    (fun hm hpop => ⟨hm, hm.mapped_eq_nil_of_pop hpop⟩) (fun _ _ _ hq => hq) h hfuel

/-- With a slot for every area, a page that an area does not map has a slot left for it. -/
lemma Inv.exists_free (h : Inv A ncpus m) {vma : BitVec 64} (hv : vma ∈ A.vmas) (p : PageId)
    (hnone : ∀ i, (m.words (p, i)).isValid = true → (m.words (p, i)).getVma ≠ vma) :
    ∃ i, (m.words (p, i)).isValid = false := by
  by_contra hfull
  have hvalid : ∀ i, (m.words (p, i)).isValid = true := by
    intro i
    apply Bool.of_not_eq_false
    exact fun hi => hfull ⟨i, hi⟩
  have hinj : Function.Injective fun i => (m.words (p, i)).getVma :=
    fun i j hij => h.unique (hvalid i) (hvalid j) hij
  have hsub : Finset.univ.image (fun i => (m.words (p, i)).getVma) ⊆ A.vmas.erase vma := by
    intro v hv
    obtain ⟨i, -, rfl⟩ := Finset.mem_image.mp hv
    exact Finset.mem_erase.mpr ⟨hnone i (hvalid i), h.vma_mem (hvalid i)⟩
  have hcard := Finset.card_le_card hsub
  rw [Finset.card_image_of_injective _ hinj, Finset.card_erase_of_mem hv, Finset.card_univ,
    Fintype.card_fin] at hcard
  have hle := A.card_le
  simp only [maxRmapsPerPage] at hcard hle
  omega

/-- A free slot is recorded and put on a list. -/
lemma Inv.record (h : Inv A ncpus m) (hcpus : ncpus ≤ 128) {vma : BitVec 64} (hv : vma ∈ A.vmas)
    {p : PageId} {cpu : ℕ} (hcpu : cpu < ncpus) {i : Fin maxRmapsPerPage}
    (hi : (m.words (p, i)).isValid = false)
    (hnone : ∀ i, (m.words (p, i)).isValid = true → (m.words (p, i)).getVma ≠ vma) :
    Inv A ncpus (((m.modify (p, i) fun w => w.record i (A.addr vma p) vma).listAddTail (p, i)
      (A.pve vma) cpu).modify (p, i) fun w => w.setCpu (BitVec.ofNat 64 cpu)) := by
  have hrec := Pvr.records_setCpu_record (m.words (p, i)) i (A.addr_aligned vma p)
    (A.vma_aligned hv) (hcpu.trans_le hcpus)
  set w := ((m.words (p, i)).record i (A.addr vma p) vma).setCpu (BitVec.ofNat 64 cpu) with hw
  set m' := ((m.modify (p, i) fun w => w.record i (A.addr vma p) vma).listAddTail (p, i)
      (A.pve vma) cpu).modify (p, i) fun w => w.setCpu (BitVec.ofNat 64 cpu) with hm'
  have hself : m'.words (p, i) = w := by
    simp [hm', Rmaps.modify, listAddTail, hw]
  have hother : ∀ b, b ≠ (p, i) → m'.words b = m.words b := by
    intro b hb
    simp [hm', Rmaps.modify, listAddTail, hb]
  constructor
  · intro q j k hj hk heq
    by_cases hqj : (q, j) = (p, i) <;> by_cases hqk : (q, k) = (p, i)
    · exact (Prod.mk.inj hqj).2.trans (Prod.mk.inj hqk).2.symm
    · obtain ⟨rfl, rfl⟩ := Prod.mk.inj hqj
      rw [hself, hother _ hqk, hrec.vma_eq] at heq
      rw [hother _ hqk] at hk
      exact absurd heq.symm (hnone k hk)
    · obtain ⟨rfl, rfl⟩ := Prod.mk.inj hqk
      rw [hself, hother _ hqj, hrec.vma_eq] at heq
      rw [hother _ hqj] at hj
      exact absurd heq (hnone j hj)
    · rw [hother _ hqj] at hj heq
      rw [hother _ hqk] at hk heq
      exact h.unique hj hk heq
  · intro b hb
    by_cases hbi : b = (p, i)
    · rwa [hbi, hself, hrec.vma_eq]
    · rw [hother b hbi] at hb ⊢
      exact h.vma_mem hb
  · intro b hb
    by_cases hbi : b = (p, i)
    · rwa [hbi, hself, hrec.cpu_eq]
    · rw [hother b hbi] at hb ⊢
      exact h.cpu_lt hb
  · intro b hb
    by_cases hbi : b = (p, i)
    · rw [hbi, hself, hrec.idx_eq]
    · rw [hother b hbi] at hb ⊢
      exact h.idx_eq hb
  · intro b x c
    have hmapped : m'.mapped x c =
        if x = A.pve vma ∧ c = cpu then m.mapped x c ++ [(p, i)] else m.mapped x c := by
      simp only [hm', Rmaps.modify, listAddTail, Function.update_apply]
      split_ifs <;> simp_all
    rw [hmapped]
    by_cases hbi : b = (p, i)
    · have hzero := List.count_eq_zero.mpr (h.not_mem hi x c)
      rw [hbi, hself, hrec.valid, hrec.vma_eq, hrec.cpu_eq]
      split_ifs <;> simp_all
    · have hne : List.count b [(p, i)] = 0 := by simp [Ne.symm hbi]
      rw [hother b hbi, ← h.count_eq b x c]
      split_ifs
      · rw [List.count_append, hne, Nat.add_zero]
      · rfl

/-- A fault finds its area's slot or a free one. -/
lemma Inv.dmapAddOrUpdateRmap (h : Inv A ncpus m) (hcpus : ncpus ≤ 128) {vma : BitVec 64}
    (hv : vma ∈ A.vmas) (p : PageId) {cpu : ℕ} (hcpu : cpu < ncpus) :
    ∃ m', m.dmapAddOrUpdateRmap vma (A.pve vma) (A.addr vma p) p cpu = .ok m' ∧
      Inv A ncpus m' := by
  cases hfind : (List.finRange maxRmapsPerPage).find? fun i =>
      (m.words (p, i)).isValid && (m.words (p, i)).getVma == vma with
  | some i => exact ⟨m, by simp only [Rmaps.dmapAddOrUpdateRmap, hfind], h⟩
  | none =>
    have hnone : ∀ i, (m.words (p, i)).isValid = true → (m.words (p, i)).getVma ≠ vma := by
      simpa [List.find?_eq_none] using hfind
    obtain ⟨j, hj⟩ := h.exists_free hv p hnone
    cases hfree : ((List.finRange maxRmapsPerPage).filter
        fun i => !(m.words (p, i)).isValid).getLast? with
    | none =>
      rw [List.getLast?_eq_none_iff, List.filter_eq_nil_iff] at hfree
      exact absurd hj (by simpa using hfree j (List.mem_finRange j))
    | some i =>
      have hi : (m.words (p, i)).isValid = false := by
        simpa using List.mem_of_mem_getLast? hfree
      exact ⟨_, by simp only [Rmaps.dmapAddOrUpdateRmap, hfind, hfree],
        h.record hcpus hv hcpu hi hnone⟩

/-- Every call returns and keeps the invariant. -/
lemma Inv.exec (h : Inv A ncpus m) (hcpus : ncpus ≤ 128) {op : RmapOp}
    (hop : op.Issued A ncpus) : ∃ m', m.exec A ncpus op = .ok m' ∧ Inv A ncpus m' ∧
      ∀ x, op = .pveRelease x → ∀ cpu, m'.mapped x cpu = [] := by
  cases op with
  | fault vma p cpu =>
    obtain ⟨m', hm', hinv⟩ := h.dmapAddOrUpdateRmap hcpus hop.1 p hop.2
    exact ⟨m', hm', hinv, by simp⟩
  | removeMappings p => exact ⟨_, rfl, h.removeMappings p, by simp⟩
  | drainPage p => exact ⟨_, rfl, h.drainPage p, by simp⟩
  | pveRelease x =>
    obtain ⟨m', hm', hinv, hempty⟩ := h.releaseLoop x (le_refl _)
    refine ⟨m', hm', hinv, ?_⟩
    intro y hy
    obtain rfl := RmapOp.pveRelease.inj hy
    exact hempty

lemma Inv.execAll (hcpus : ncpus ≤ 128) {ops : List RmapOp} (hops : ∀ op ∈ ops, op.Issued A ncpus) :
    ∃ m, init.execAll A ncpus ops = .ok m ∧ Inv A ncpus m ∧
      ∀ x, ops.getLast? = some (.pveRelease x) → ∀ cpu, m.mapped x cpu = [] := by
  induction ops using List.reverseRecOn with
  | nil => exact ⟨init, rfl, inv_init, by simp⟩
  | append_singleton ops op ih =>
    obtain ⟨m, hm, hinv, -⟩ := ih fun op' h => hops op' (List.mem_append_left _ h)
    obtain ⟨m', hm', hinv', hempty⟩ := hinv.exec hcpus (hops op (by simp))
    refine ⟨m', ?_, hinv', ?_⟩
    · unfold Rmaps.execAll at hm ⊢
      rw [List.foldlM_append, hm]
      change (m.exec A ncpus op >>= pure) = _
      rw [hm']
      rfl
    · intro x hx
      apply hempty
      simpa using hx

/-! ### The linkage -/

/-- The address of a slot, for pages at the addresses `base`; `rmap` is the first field of a
tagged page. -/
def slotAddr (base : PageId → BitVec 64) (a : RmapSlot) : BitVec 64 :=
  base a.1 + BitVec.ofNat 64 a.2 * Pvr.size

/-- The slots and the lists agree. -/
structure Linked (A : MappedAreas) (base : PageId → BitVec 64) (m : Rmaps) : Prop where
  /-- A page has at most one valid slot for an area. -/
  unique (p : PageId) (i j : Fin maxRmapsPerPage) : (m.words (p, i)).isValid = true →
    (m.words (p, j)).isValid = true → (m.words (p, i)).getVma = (m.words (p, j)).getVma → i = j
  /-- A slot is valid if and only if it is on exactly one list, the one its words name. -/
  valid_iff (a : RmapSlot) : (m.words a).isValid = true ↔
    m.OnlyOn a (A.pve (m.words a).getVma) (m.words a).getCpu.toNat
  not_mem (a : RmapSlot) : (m.words a).isValid = false → ∀ x cpu, a ∉ m.mapped x cpu
  /-- `pvr_get_owner` of a slot on a list is the page it is in. -/
  owner (a : RmapSlot) (x : PveId) (cpu : ℕ) : a ∈ m.mapped x cpu →
    (m.words a).getOwner (slotAddr base a) = base a.1

lemma Inv.linked (h : Inv A ncpus m) (base : PageId → BitVec 64) : Linked A base m := by
  constructor
  · intro p i j
    exact h.unique
  · intro a
    constructor
    · intro ha x cpu
      rw [h.count_eq]
      simp [ha]
    · intro hon
      have hcount := hon (A.pve (m.words a).getVma) (m.words a).getCpu.toNat
      rw [h.count_eq] at hcount
      by_contra ha
      simp [ha] at hcount
  · intro a ha
    exact h.not_mem ha
  · intro a x cpu hmem
    have ha : (m.words a).isValid = true := by
      by_contra ha
      exact h.not_mem (Bool.eq_false_iff.mpr ha) x cpu hmem
    rw [Pvr.getOwner, h.idx_eq ha, slotAddr, BitVec.add_sub_cancel]

/-- After every sequence of faults, evictions and closes the slots and the lists agree, and the
lists of an entry that has just been released are empty. -/
theorem linked_execAll (A : MappedAreas) (base : PageId → BitVec 64) {ncpus : ℕ}
    (hcpus : ncpus ≤ 128) (ops : List RmapOp) (hops : ∀ op ∈ ops, op.Issued A ncpus) :
    ∃ m, init.execAll A ncpus ops = .ok m ∧ Linked A base m ∧
      ∀ x, ops.getLast? = some (.pveRelease x) → ∀ cpu, m.mapped x cpu = [] := by
  obtain ⟨m, hm, hinv, hempty⟩ := Inv.execAll hcpus hops
  exact ⟨m, hm, hinv.linked base, hempty⟩

/-- Two areas and two processors. -/
def twoAreas : MappedAreas where
  vmas := {0x1000#64, 0x2000#64}
  card_le := by decide
  vma_aligned h := by
    rcases Finset.mem_insert.mp h with rfl | h
    · decide
    · rw [Finset.mem_singleton.mp h]
      decide
  pve v := v.toNat
  addr _ _ := 0x3000#64
  addr_aligned _ _ := by decide

theorem linked_twoAreas :
    ∃ m, init.execAll twoAreas 2 [.fault 0x1000#64 0 0, .fault 0x2000#64 0 1, .removeMappings 0,
      .fault 0x1000#64 0 1, .drainPage 1, .pveRelease 0x1000] = .ok m ∧
      Linked twoAreas (fun p => BitVec.ofNat 64 p * 0x100#64) m ∧
      ∀ x, some (RmapOp.pveRelease 0x1000) = some (.pveRelease x) → ∀ cpu, m.mapped x cpu = [] :=
  linked_execAll twoAreas (fun p => BitVec.ofNat 64 p * 0x100#64) (by decide) _
    (by simp [RmapOp.Issued, twoAreas])

/-! ### The fields taken apart -/

variable {C : Type*}

/-- The slots and lists of the page buffer are those of these words. -/
structure Unpacks (m : Rmaps) (s : State C) : Prop where
  rmap (p : PageId) (i : Fin maxRmapsPerPage) : (s.pages p).rmap i = (m.words (p, i)).unpack
  mapped (x : PveId) (cpu : ℕ) : (s.pves x).pcpuMapped cpu = m.mapped x cpu

variable {s : State C} {e : Env C}

/-- A slot that becomes invalid and leaves its list. -/
lemma Unpacks.drop (h : Unpacks m s) (p : PageId) (i : Fin maxRmapsPerPage) :
    Unpacks ((m.modify (p, i) Pvr.mkInvalid).listDel (p, i))
      ((s.setRmap p i { (s.pages p).rmap i with valid := false }).unlinkRmap p i) := by
  constructor
  · intro q j
    by_cases hqj : (q, j) = (p, i)
    · obtain ⟨rfl, rfl⟩ := Prod.mk.inj hqj
      simp [State.unlinkRmap, State.setRmap, State.modifyPage, listDel, words_modify_self,
        Pvr.unpack_mkInvalid, h.rmap]
    · have hw : ((m.modify (p, i) Pvr.mkInvalid).listDel (p, i)).words (q, j) = m.words (q, j) :=
        words_modify_of_ne m _ hqj
      rw [hw, ← h.rmap]
      by_cases hq : q = p
      · subst hq
        have hj : j ≠ i := fun hj => hqj (by rw [hj])
        simp [State.unlinkRmap, State.setRmap, State.modifyPage, hj]
      · simp [State.unlinkRmap, State.setRmap, State.modifyPage, hq]
  · intro x cpu
    change ((s.pves x).pcpuMapped cpu).erase (p, i) = (m.mapped x cpu).erase (p, i)
    rw [h.mapped]

/-- Page table entries are no part of this. -/
lemma Unpacks.zapPage (h : Unpacks m s) (p : PageId) (r : PrVmaRmap) :
    Unpacks m (s.zapPage p r) := by
  unfold State.zapPage
  split
  · split_ifs
    · exact ⟨h.rmap, h.mapped⟩
    · exact h
  · exact h

lemma Unpacks.removeMappings (h : Unpacks m s) (p : PageId) :
    Unpacks (m.removeMappings p) (s.removeMappings p) := by
  unfold Rmaps.removeMappings State.removeMappings
  generalize List.finRange maxRmapsPerPage = l
  induction l generalizing m s with
  | nil => exact h
  | cons i l ih =>
    rw [List.foldl_cons, List.foldl_cons]
    apply ih
    have hvalid : ((s.pages p).rmap i).valid = (m.words (p, i)).isValid := by
      rw [h.rmap]
      rfl
    simp only [hvalid, dropSlot]
    split_ifs
    · have hz := h.zapPage p ((s.pages p).rmap i)
      have hsame : (s.pages p).rmap i = ((s.zapPage p ((s.pages p).rmap i)).pages p).rmap i :=
        (h.rmap p i).trans (hz.rmap p i).symm
      have hd := hz.drop p i
      rwa [← hsame] at hd
    · exact h

/-- A slot that becomes valid and goes to the tail of a list. -/
lemma Unpacks.link (h : Unpacks m s) {m' : Rmaps} {a : RmapSlot} {x : PveId} {cpu : ℕ}
    {r : PrVmaRmap} (hself : (m'.words a).unpack = r)
    (hother : ∀ b, b ≠ a → m'.words b = m.words b)
    (hmapped : m'.mapped = (m.listAddTail a x cpu).mapped) :
    Unpacks m' ((s.setRmap a.1 a.2 r).linkRmap x cpu a.1 a.2) := by
  constructor
  · intro q j
    by_cases hqj : (q, j) = a
    · subst hqj
      rw [hself]
      simp [State.linkRmap, State.setRmap, State.modifyPage]
    · rw [hother _ hqj, ← h.rmap]
      by_cases hq : q = a.1
      · subst hq
        have hj : j ≠ a.2 := fun hj => hqj (Prod.ext rfl hj)
        simp [State.linkRmap, State.setRmap, State.modifyPage, hj]
      · simp [State.linkRmap, State.setRmap, State.modifyPage, hq]
  · intro y c
    rw [hmapped]
    simp only [State.linkRmap, State.setRmap, State.modifyPage, listAddTail]
    by_cases hy : y = x
    · subst hy
      by_cases hc : c = cpu
      · subst hc
        simp [h.mapped]
      · simp [hc, h.mapped]
    · simp [hy, h.mapped]

/-- A fault on the words is the fault on the fields. -/
lemma Unpacks.dmapAddOrUpdateRmap (h : Unpacks m s) (hcpus : ncpus ≤ 128) {vma : BitVec 64}
    (hv : vma ∈ A.vmas) {p : PageId} {cpu : ℕ} (hcpu : cpu < ncpus) {m' : Rmaps} {vmf : VmFault}
    (hvma : vmf.vma = vma.toNat) (haddr : vmf.address = (A.addr vma p).toNat)
    (hpve : (s.infos (s.vmas vmf.vma).info).pve = some (A.pve vma))
    (hm : m.dmapAddOrUpdateRmap vma (A.pve vma) (A.addr vma p) p cpu = .ok m') :
    ∃ s', s.dmapAddOrUpdateRmap vmf p cpu = .ok s' ∧ Unpacks m' s' := by
  have hfind : State.findRmap (s.pages p) vmf.vma = (List.finRange maxRmapsPerPage).find?
      fun i => (m.words (p, i)).isValid && (m.words (p, i)).getVma == vma := by
    unfold State.findRmap
    congr 1
    funext i
    rw [h.rmap, hvma]
    congr 1
    simp only [Pvr.unpack]
    rw [Bool.eq_iff_iff, beq_iff_eq, beq_iff_eq, BitVec.toNat_inj]
  have hfree : State.freeEntry (s.pages p) = ((List.finRange maxRmapsPerPage).filter
      fun i => !(m.words (p, i)).isValid).getLast? := by
    unfold State.freeEntry
    congr 2
    funext i
    rw [h.rmap]
    rfl
  unfold Rmaps.dmapAddOrUpdateRmap at hm
  unfold State.dmapAddOrUpdateRmap
  rw [hfind, hfree]
  cases heq : (List.finRange maxRmapsPerPage).find?
      fun i => (m.words (p, i)).isValid && (m.words (p, i)).getVma == vma with
  | some i =>
    simp only [heq] at hm
    exact ⟨s, rfl, Except.ok.inj hm ▸ h⟩
  | none =>
    cases hlast : ((List.finRange maxRmapsPerPage).filter
        fun i => !(m.words (p, i)).isValid).getLast? with
    | none =>
      simp only [heq, hlast] at hm
      exact absurd hm (by simp)
    | some i =>
      simp only [heq, hlast] at hm
      obtain rfl := Except.ok.inj hm
      simp only [hpve]
      have hrec := Pvr.records_setCpu_record (m.words (p, i)) i (A.addr_aligned vma p)
        (A.vma_aligned hv) (hcpu.trans_le hcpus)
      refine ⟨_, rfl, h.link (a := (p, i)) ?_ ?_ rfl⟩
      · simp only [Rmaps.modify, listAddTail, Function.update_self, hrec.unpack, hvma, haddr]
      · intro b hb
        simp [Rmaps.modify, listAddTail, hb]

/-- The words that the loop of `free_page_lock` leaves. -/
lemma words_clearSlots (m : Rmaps) (p : PageId) (b : RmapSlot) :
    (m.clearSlots p).words b = if b.1 = p then (m.words b).clear b.2 else m.words b := by
  have hloop : ∀ (l : List (Fin maxRmapsPerPage)) (m : Rmaps), l.Nodup →
      (l.foldl (fun m i => m.modify (p, i) fun w => w.clear i) m).words b =
        if b.1 = p ∧ b.2 ∈ l then (m.words b).clear b.2 else m.words b := by
    intro l
    induction l with
    | nil => simp
    | cons i l ih =>
      intro m hl
      obtain ⟨hi, hl⟩ := List.nodup_cons.mp hl
      rw [List.foldl_cons, ih _ hl]
      by_cases hb : b = (p, i)
      · subst hb
        simp [hi, words_modify_self]
      · have hb' : b.1 = p → b.2 ≠ i := fun h h' => hb (Prod.ext h h')
        rw [words_modify_of_ne _ _ hb]
        by_cases hp : b.1 = p
        · simp [hp, hb' hp]
        · simp [hp]
  rw [clearSlots, hloop _ m (List.nodup_finRange _)]
  simp

lemma mapped_clearSlots (m : Rmaps) (p : PageId) : (m.clearSlots p).mapped = m.mapped := by
  unfold clearSlots
  generalize List.finRange maxRmapsPerPage = l
  induction l generalizing m with
  | nil => rfl
  | cons i l ih => exact ih _

lemma Unpacks.freeClear (h : Unpacks m s) (p : PageId) :
    Unpacks (m.clearSlots p) (s.freeClear p) := by
  constructor
  · intro q j
    rw [words_clearSlots]
    by_cases hq : q = p
    · subst hq
      simp [State.freeClear, State.modifyPage, Pvr.unpack_clear]
    · simpa [State.freeClear, State.modifyPage, hq] using h.rmap q j
  · intro x cpu
    rw [mapped_clearSlots]
    exact h.mapped x cpu

/-- An iteration of `__pve_release`. -/
lemma Unpacks.releaseSlot (h : Unpacks m s) (a : RmapSlot) :
    Unpacks (m.modify a Pvr.mkInvalid) (s.releaseSlot a) := by
  apply Unpacks.zapPage
  constructor
  · intro q j
    by_cases hqj : (q, j) = a
    · subst hqj
      rw [words_modify_self, Pvr.unpack_mkInvalid, ← h.rmap]
      simp [State.setRmap, State.modifyPage]
    · rw [words_modify_of_ne _ _ hqj, ← h.rmap]
      by_cases hq : q = a.1
      · subst hq
        have hj : j ≠ a.2 := fun hj => hqj (Prod.ext rfl hj)
        simp [State.setRmap, State.modifyPage, hj]
      · simp [State.setRmap, State.modifyPage, hq]
  · intro x cpu
    exact h.mapped x cpu

/-- The slots on the lists of an entry, in the order in which `__pve_release` takes them. -/
def slots (ncpus : ℕ) (m : Rmaps) (x : PveId) : List RmapSlot :=
  (List.range ncpus).flatMap (m.mapped x)

/-- The words and lists with the lists of an entry empty. -/
def emptied (m : Rmaps) (x : PveId) : Rmaps :=
  { m with mapped := fun y cpu => if y = x then [] else m.mapped y cpu }

/-- A slot is on only one of the lists. -/
lemma Inv.eq_of_mem (h : Inv A ncpus m) {x y : PveId} {c d : ℕ} (hc : a ∈ m.mapped x c)
    (hd : a ∈ m.mapped y d) : x = y ∧ c = d := by
  have hon : ∀ {z e}, a ∈ m.mapped z e →
      z = A.pve (m.words a).getVma ∧ e = (m.words a).getCpu.toNat := by
    intro z e hmem
    have hcount := List.count_pos_iff.mpr hmem
    rw [h.count_eq] at hcount
    split_ifs at hcount with hif
    · exact hif.2
    · omega
  exact ⟨(hon hc).1.trans (hon hd).1.symm, (hon hc).2.trans (hon hd).2.symm⟩

/-- `pop_one_pvr` takes the first slot. -/
lemma Inv.flatMap_of_pop (h : Inv A ncpus m) {m' : Rmaps} {x : PveId} {cpus : List ℕ}
    (hcpus : cpus.Nodup) (hpop : m.popOnePvr x cpus = some (a, m')) :
    cpus.flatMap (m.mapped x) = a :: cpus.flatMap ((m.listDel a).mapped x) := by
  induction cpus with
  | nil => simp [popOnePvr] at hpop
  | cons cpu cpus ih =>
    obtain ⟨hcpu, hnodup⟩ := List.nodup_cons.mp hcpus
    cases hl : m.mapped x cpu with
    | nil =>
      simp only [popOnePvr, hl] at hpop
      have hl' : (m.listDel a).mapped x cpu = [] := by
        change (m.mapped x cpu).erase a = []
        rw [hl]
        rfl
      rw [List.flatMap_cons, List.flatMap_cons, hl, hl']
      exact ih hnodup hpop
    | cons b l =>
      simp only [popOnePvr, hl, Option.some.injEq, Prod.mk.injEq] at hpop
      obtain ⟨rfl, -⟩ := hpop
      have hl' : (m.listDel b).mapped x cpu = l := by
        change (m.mapped x cpu).erase b = l
        rw [hl, List.erase_cons_head]
      have hrest : ∀ c ∈ cpus, (m.listDel b).mapped x c = m.mapped x c := by
        intro c hc
        apply List.erase_of_not_mem
        intro hmem
        have hb : b ∈ m.mapped x cpu := by simp [hl]
        obtain ⟨-, rfl⟩ := h.eq_of_mem hmem hb
        exact hcpu hc
      rw [List.flatMap_cons, List.flatMap_cons, hl, hl', List.flatMap_congr hrest]
      rfl

lemma Inv.release_nil (h : Inv A ncpus m) {x : PveId}
    (hpop : m.popOnePvr x (List.range ncpus) = none) :
    (m.slots ncpus x).foldl (fun m a => m.modify a Pvr.mkInvalid) (m.emptied x) = m := by
  have hslots : m.slots ncpus x = [] := by
    simp [slots, h.mapped_eq_nil_of_pop hpop]
  have hempty : m.emptied x = m := by
    have hmapped : (fun y cpu => if y = x then [] else m.mapped y cpu) = m.mapped := by
      funext y cpu
      split_ifs with hy
      · rw [hy, h.mapped_eq_nil_of_pop hpop]
      · rfl
    simp [emptied, hmapped]
  rw [hslots, hempty]
  rfl

/-- Taking a slot off an entry's lists is not seen once they are empty. -/
lemma Inv.emptied_listDel (h : Inv A ncpus m) {x : PveId} {cpu : ℕ} (ha : a ∈ m.mapped x cpu) :
    (m.listDel a).emptied x = m.emptied x := by
  simp only [emptied, listDel, mk.injEq, true_and]
  funext y c
  split_ifs with hy
  · rfl
  · apply List.erase_of_not_mem
    intro hmem
    exact hy (h.eq_of_mem hmem ha).1

/-- `__pve_release` empties the lists of its entry and makes the slots on them invalid. -/
lemma Inv.releaseLoop_eq (h : Inv A ncpus m) (x : PveId) {fuel : ℕ}
    (hfuel : m.numMapped ncpus x ≤ fuel) :
    Rmaps.releaseLoop ncpus x fuel m =
      .ok ((m.slots ncpus x).foldl (fun m a => m.modify a Pvr.mkInvalid) (m.emptied x)) := by
  let Q : Rmaps → Rmaps → Prop := fun m m' =>
    (m.slots ncpus x).foldl (fun m a => m.modify a Pvr.mkInvalid) (m.emptied x) = m'
  have hstep : ∀ {m m' a cpu}, Inv A ncpus m → a ∈ m.mapped x cpu →
      m.popOnePvr x (List.range ncpus) = some (a, m.listDel a) →
        Q ((m.listDel a).modify a Pvr.mkInvalid) m' → Q m m' := by
    intro m m' a cpu hm ha hpop hq
    have hslots : m.slots ncpus x = a :: (m.listDel a).slots ncpus x :=
      hm.flatMap_of_pop List.nodup_range hpop
    simp only [Q]
    rw [hslots, List.foldl_cons, ← hm.emptied_listDel ha]
    exact hq
  obtain ⟨m', hm', hq⟩ := releaseLoop_rule (fun hm hpop => hm.release_nil hpop) hstep h hfuel
  rw [hm', ← hq]

lemma Unpacks.pveRelease (h : Unpacks m s) (hinv : Inv A e.ncpus m) (x : PveId) {m' : Rmaps}
    (hm : m.pveRelease e.ncpus x = .ok m') : Unpacks m' (s.pveRelease e x) := by
  rw [Rmaps.pveRelease, hinv.releaseLoop_eq x (le_refl _)] at hm
  obtain rfl := Except.ok.inj hm
  have hslots : (List.range e.ncpus).flatMap (s.pves x).pcpuMapped = m.slots e.ncpus x :=
    List.flatMap_congr fun cpu _ => h.mapped x cpu
  have hempty : Unpacks (m.emptied x) (s.modifyPve x fun t =>
      { t with pcpuMapped := fun cpu => if cpu < e.ncpus then [] else t.pcpuMapped cpu }) := by
    refine ⟨h.rmap, ?_⟩
    intro y cpu
    by_cases hy : y = x
    · subst hy
      simp only [State.modifyPve, Function.update_self, emptied, if_pos]
      split_ifs with hcpu
      · rfl
      · rw [h.mapped, hinv.mapped_eq_nil y (Nat.le_of_not_lt hcpu)]
    · simpa [State.modifyPve, emptied, hy] using h.mapped y cpu
  simp only [State.pveRelease, hslots]
  generalize m.slots e.ncpus x = l
  generalize m.emptied x = m₁ at hempty ⊢
  generalize (s.modifyPve x _) = s₁ at hempty ⊢
  induction l generalizing m₁ s₁ with
  | nil => exact hempty
  | cons a l ih => exact ih _ _ (hempty.releaseSlot a)

end Rmaps

end FastMap
