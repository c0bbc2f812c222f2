import FastMap.ReadWrite

/-!
# The input of a fault

How many pages `perma_getpage` asks for, and what it makes of the outcome of the read. The number
of pages is an `int` that is computed from sizes of 64 bits and from an offset that the user
chooses. The outcome of the read is returned by three functions in three ways, and nobody looks at
it.
-/

namespace FastMap

namespace State

variable {C : Type*}

/-! ### `num_pages` -/

def pagesPerPgfault : ℤ := 1

/-- `num_pages` for a fault on a page of file `v`. -/
def faultPages (s : State C) (v : PvdId) (vmf : VmFault) : ℤ :=
  numPages vmf.pgoff (int32 (s.devPages (s.pvds v).bk))

/-- The size, modulo `2 ^ 32`, reaches up to the page after the offset, or it is the offset or the
one after it, or it is negative as an `int`. -/
def SizeFits (n pgoff : ℕ) : Prop :=
  2 ^ 31 ≤ n % 2 ^ 32 ∨ pgoff < n % 2 ^ 32 ∨ pgoff % 2 ^ 32 = n % 2 ^ 32 ∨
    (pgoff + 1) % 2 ^ 32 = n % 2 ^ 32

lemma int32_natCast_of_lt {n : ℕ} (h : n % 2 ^ 32 < 2 ^ 31) : int32 n = (n % 2 ^ 32 : ℕ) := by
  rw [int32, Int.bmod_def]
  omega

lemma int32_natCast_of_le {n : ℕ} (h : 2 ^ 31 ≤ n % 2 ^ 32) :
    int32 n = (n % 2 ^ 32 : ℕ) - 2 ^ 32 := by
  rw [int32, Int.bmod_def]
  omega

lemma int32_eq_iff {z k : ℤ} (h₁ : -2 ^ 31 ≤ k) (h₂ : k < 2 ^ 31) :
    int32 z = k ↔ z % 2 ^ 32 = k % 2 ^ 32 := by
  rw [int32, Int.bmod_def]
  split_ifs <;> omega

lemma numPages_eq_one_iff {n pgoff : ℕ} (hoff : pgoff < 2 ^ 63) :
    numPages pgoff (int32 n) = 1 ↔ SizeFits n pgoff := by
  have hmod : (pgoff + 1) % ulongSize = pgoff + 1 := by
    apply Nat.mod_eq_of_lt
    simp only [ulongSize]
    omega
  rw [SizeFits, numPages, hmod]
  by_cases hneg : 2 ^ 31 ≤ n % 2 ^ 32
  · -- a negative size is huge as an `unsigned long`
    refine iff_of_true ?_ (Or.inl hneg)
    rw [int32_natCast_of_le hneg]
    have hbig : pgoff + 1 ≤ ((((n % 2 ^ 32 : ℕ) : ℤ) - 2 ^ 32) % ulongSize).toNat := by
      simp only [ulongSize]
      omega
    rw [if_pos hbig]
    rfl
  · rw [not_le] at hneg
    rw [int32_natCast_of_lt hneg]
    have hsize : (((n % 2 ^ 32 : ℕ) : ℤ) % ulongSize).toNat = n % 2 ^ 32 := by
      simp only [ulongSize]
      omega
    rw [hsize]
    by_cases hle : pgoff + 1 ≤ n % 2 ^ 32
    · rw [if_pos hle]
      exact iff_of_true rfl (Or.inr (Or.inl hle))
    · rw [if_neg hle]
      have hzero := int32_eq_iff (z := ((n % 2 ^ 32 : ℕ) : ℤ) - pgoff) (k := 0) (by norm_num)
        (by norm_num)
      have hone := int32_eq_iff (z := ((n % 2 ^ 32 : ℕ) : ℤ) - pgoff) (k := 1) (by norm_num)
        (by norm_num)
      generalize int32 (((n % 2 ^ 32 : ℕ) : ℤ) - pgoff) = k at hzero hone
      split_ifs with hk
      · have := hzero.mp hk
        omega
      · rw [hone]
        have : ¬ (((n % 2 ^ 32 : ℕ) : ℤ) - pgoff) % 2 ^ 32 = 0 % 2 ^ 32 := fun h => hk (hzero.mpr h)
        omega

/-- The address of the fault is outside its area. -/
def OutsideArea (s : State C) (vmf : VmFault) : Prop :=
  vmf.address < (s.vmas vmf.vma).vmStart ∨ (s.vmas vmf.vma).vmEnd ≤ vmf.address

/-- `perma_getpage` fails, or asks for a number of pages that its arrays can hold. -/
def CountInRange (e : Env C) (s : State C) (v : PvdId) (vmf : VmFault) : Prop :=
  (∀ f, s.permaGetpage e vmf f = .error .efault) ∨
    1 ≤ s.faultPages v vmf ∧ s.faultPages v vmf ≤ pagesPerPgfault

theorem countInRange_iff (e : Env C) (s : State C) (v : PvdId) (vmf : VmFault)
    (hv : s.vmaPvd vmf.vma = some v) (hoff : vmf.pgoff < 2 ^ 63) :
    s.CountInRange e v vmf ↔ s.OutsideArea vmf ∨ SizeFits (s.devPages (s.pvds v).bk) vmf.pgoff := by
  have hcount : (1 ≤ s.faultPages v vmf ∧ s.faultPages v vmf ≤ pagesPerPgfault) ↔
      SizeFits (s.devPages (s.pvds v).bk) vmf.pgoff := by
    rw [← numPages_eq_one_iff hoff, faultPages, pagesPerPgfault]
    omega
  rw [CountInRange, hcount]
  by_cases hout : s.OutsideArea vmf
  · refine iff_of_true (Or.inl fun f => ?_) (Or.inl hout)
    simp only [permaGetpage, hv]
    exact if_pos hout
  · -- a fault that gives up after no attempt
    have hno : ¬ ∀ f, s.permaGetpage e vmf f = .error .efault := by
      intro hall
      have h := hall ⟨[], 0, .full⟩
      simp only [permaGetpage, hv, findPage] at h
      rw [OutsideArea] at hout
      rw [if_neg hout] at h
      split_ifs at h
      · exact absurd h (by simp)
      · exact absurd h (by simp)
    simp only [hno, hout, false_or]

/-- A file of 8 pages. -/
theorem countInRange_smallWorld :
    (initParams smallEnv smallWorld).CountInRange smallEnv 0
      ((initParams smallEnv smallWorld).vmFault 0 7) := by
  refine (countInRange_iff _ _ 0 _ rfl (by decide)).mpr (Or.inr ?_)
  exact Or.inr (Or.inl (by decide))

/-- A file of 3 pages that is mapped as if it had 8. The fault on page 5 asks for -2 pages. -/
theorem countInRange_fails_past_end :
    ¬ ∀ (e : Env ℕ) (s : State ℕ) (v : PvdId) (vmf : VmFault), s.vmaPvd vmf.vma = some v →
      vmf.pgoff < 2 ^ 63 → ¬ s.OutsideArea vmf → s.CountInRange e v vmf := by
  intro hall
  set w : World ℕ := { smallWorld with devPages := fun _ => 3 } with hw
  have h := hall smallEnv (initParams smallEnv w) 0 ((initParams smallEnv w).vmFault 0 5) rfl
    (by decide) (by rw [OutsideArea]; decide)
  rcases h with h | h
  · have := congrArg (Except.map fun _ => ()) (h ⟨[], 0, .full⟩)
    exact absurd this (by decide)
  · exact absurd h (by decide)

/-! ### A miss -/

variable {e : Env C} {s s' : State C} {p : PageId} {v : PvdId} {off : Pgoff}

lemma outside_tryPurgePagesFast (e : Env C) (s : State C) (qid : ℕ) :
    (s.tryPurgePagesFast e qid).outside = s.outside := by
  have hcollect : ∀ (n : ℕ) (pgs : List PageId) (s : State C),
      (purgeCollect e qid n pgs s).2.outside = s.outside := by
    intro n
    induction n with
    | zero => exact fun _ _ => rfl
    | succ n ih =>
      intro pgs s
      have hone := outside_purgeOne e s qid
      simp only [purgeCollect]
      split
      · rename_i t ht
        rw [ih, ← hone, ht]
      · rename_i q t ht
        rw [ih, ← hone, ht]
  simp only [tryPurgePagesFast]
  rw [foldl_outside fun s p => outside_freePageLock (s := s) (p := p)]
  exact hcollect _ _ s

lemma pageValid_allocPageLock {node : ℕ} (h : s.allocPageLock e node off v = (some p, s')) :
    (s'.pages p).pageValid = false := by
  simp only [allocPageLock] at h
  split at h
  · simp at h
  · obtain ⟨hp, rfl⟩ := Prod.mk.inj h
    obtain rfl := Option.some_injective _ hp
    simp [modifyPage]

/-- What a page is, apart from the mappings and the place in a queue. -/
lemma pages_insertPage (s : State C) (p : PageId) :
    ((s.insertPage p false).pages p).content = (s.pages p).content ∧
      ((s.insertPage p false).pages p).pageValid = (s.pages p).pageValid ∧
      (s.insertPage p false).trees = s.trees := by
  simp only [insertPage, enqueue, Bool.false_eq_true, if_false]
  split_ifs
  · exact ⟨rfl, rfl, rfl⟩
  · simp [setBufferId, modifyPage, modifyQueue]

lemma pages_dmapDoPageIo (off : Pgoff) (r : ReadResult C) (hp : (s.pages p).pageValid = false) :
    ((s.dmapDoPageIo v off p r).pages p).content = s.loaded v off r (s.pages p).content ∧
      ((s.dmapDoPageIo v off p r).pages p).pageValid = true ∧
      (s.dmapDoPageIo v off p r).trees = s.trees := by
  simp only [dmapDoPageIo, hp, Bool.false_eq_true, if_false, readOrFake, loaded, readAs]
  cases (s.pvds v).type with
  | file => simp [readPage, setContent, modifyPage]
  | blkd =>
    cases s.bitmap ((s.pvds v).bk, off) with
    | true => simp [readPage, setContent, modifyPage]
    | false => simp [modifyPage]

lemma pages_dmapAddOrUpdateRmap {vmf : VmFault} {cpu : ℕ}
    (hs : s.dmapAddOrUpdateRmap vmf p cpu = .ok s') :
    (s'.pages p).content = (s.pages p).content ∧ (s'.pages p).pageValid = (s.pages p).pageValid ∧
      s'.trees = s.trees := by
  simp only [dmapAddOrUpdateRmap] at hs
  split at hs
  · obtain rfl := Except.ok.inj hs
    exact ⟨rfl, rfl, rfl⟩
  · split at hs
    · simp at hs
    · split at hs
      · simp at hs
      · obtain rfl := Except.ok.inj hs
        simp [linkRmap, setRmap, modifyPage]

/-- A page that a fault has brought into the cache, before it is read. -/
structure Missed (e : Env C) (s s' : State C) (v : PvdId) (off : Pgoff) (p : PageId) : Prop where
  outside_eq : s'.outside = s.outside
  not_valid : (s'.pages p).pageValid = false
  lookup_eq : s'.fmapRadixLookup e v off = some p

lemma missed_findPage {as : List Attempt} (hs : findPage e v off as s = .ok (p, false, s')) :
    Missed e s s' v off p := by
  induction as generalizing s with
  | nil => exact absurd hs (by simp [findPage])
  | cons a as ih =>
    have hretry : ∀ t : State C, t.outside = s.outside →
        findPage e v off as t = .ok (p, false, s') →
        Missed e s s' v off p := by
      intro t ht hs
      obtain ⟨ho, hv, hl⟩ := ih hs
      exact ⟨ho.trans ht, hv, hl⟩
    have halloc := outside_allocPageLock e s a.node off v
    simp only [findPage] at hs
    split at hs
    · split at hs
      · rename_i t ht
        rw [ht] at halloc
        exact hretry _ ((outside_tryPurgePagesFast e t _).trans halloc) hs
      · rename_i q t ht
        rw [ht] at halloc
        set t' := (t.trylockTp q ulongMax).2 with ht'
        have hlock : t'.outside = s.outside := (outside_trylockTp t q _).trans halloc
        split at hs
        · -- the page is new
          rename_i u hu
          obtain ⟨hnone, rfl⟩ := Prod.mk.inj hu
          obtain ⟨rfl, rfl⟩ : q = p ∧ t'.treeInsert e .rdx v off q = s' := by simpa using hs
          refine ⟨hlock, ?_, ?_⟩
          · have hvalid : (t'.pages q).pageValid = (t.pages q).pageValid := by
              rw [ht']
              simp only [trylockTp]
              split_ifs <;> simp [modifyPage]
            exact hvalid.trans (pageValid_allocPageLock ht)
          · have hno := Option.isNone_iff_eq_none.mp hnone
            simp only [fmapRadixLookup, treeLookup, treeInsert, Function.update_self,
              KeyMap.lookup_insertNew, if_true] at hno ⊢
            rw [hno]
            rfl
        · rename_i u hu
          obtain ⟨-, rfl⟩ := Prod.mk.inj hu
          refine hretry _ ?_ hs
          exact (outside_freePageLock _ q).trans hlock
    · split at hs
      · simp at hs
      · rename_i q _ _ _ t _ ht
        have hlock := outside_trylockTp s q ulongMax
        rw [ht] at hlock
        exact hretry _ hlock hs

end State

namespace Mount

open State

/-! ### The outcome of a read -/

/-- How the lower read of a page ends: it fails, with something left in the frame, or it reads a
number of bytes. -/
inductive LowerRead where
  | failed (mix : PageBytes → PageBytes → PageBytes)
  | read (n : ℕ)

/-- The frame after the read of a page. -/
def LowerRead.result : LowerRead → ReadResult PageBytes
  | .failed mix => .short mix
  | .read n => .short fun back frame o => if (o : ℕ) < n then back o else frame o

/-- `read_pages_bio` returns 0 for success and 1 for failure. -/
def readPagesBio (s : State PageBytes) (d : DevId) (off : Pgoff) (p : PageId) (r : LowerRead) :
    ℤ × State PageBytes :=
  match r with
  | .failed _ => (1, s.readPage d off p r.result)
  | .read _ => (0, s.readPage d off p r.result)

/-- `read_or_fake_page_bio` -/
def readOrFakePageBio (s : State PageBytes) (v : PvdId) (off : Pgoff) (p : PageId) (r : LowerRead) :
    ℤ × State PageBytes :=
  let d := (s.pvds v).bk
  if s.bitmap (d, off) then
    match readPagesBio s d off p r with
    | (0, s) => (0, s)
    | (_, s) => (1, s)
  else (0, { s with bitmap := Function.update s.bitmap (d, off) true })

/-- `read_pages_file` returns -1 for failure and the number of whole pages read otherwise. -/
def readPagesFile (s : State PageBytes) (v : PvdId) (off : Pgoff) (p : PageId) (r : LowerRead) :
    ℤ × State PageBytes :=
  match r with
  | .failed _ => (-1, s.readPage (s.pvds v).bk off p r.result)
  | .read n => ((n / pageSize : ℕ), s.readPage (s.pvds v).bk off p r.result)

/-- `dmap_do_page_io` with its variable `npages`, which an empty `DMAP_BGON` alone looks at. -/
def dmapDoPageIo (s : State PageBytes) (v : PvdId) (off : Pgoff) (p : PageId) (r : LowerRead) :
    ℤ × State PageBytes :=
  let (npages, s) :=
    if (s.pages p).pageValid then (0, s)
    else
      match (s.pvds v).type with
      | .blkd => readOrFakePageBio s v off p r
      | .file => readPagesFile s v off p r
  (npages, s.modifyPage p fun t => { t with pageValid := true })

/-- What is left of the outcome is what the frame holds. -/
lemma dmapDoPageIo_snd (s : State PageBytes) (v : PvdId) (off : Pgoff) (p : PageId)
    (r : LowerRead) :
    (dmapDoPageIo s v off p r).2 = s.dmapDoPageIo v off p r.result := by
  simp only [dmapDoPageIo, State.dmapDoPageIo]
  by_cases hv : (s.pages p).pageValid = true
  · simp only [if_pos hv]
  · simp only [if_neg hv, readOrFake]
    cases (s.pvds v).type with
    | blkd =>
      simp only [readOrFakePageBio]
      by_cases hb : s.bitmap ((s.pvds v).bk, off) = true
      · simp only [if_pos hb]
        cases r <;> rfl
      · simp only [if_neg hb]
    | file => cases r <;> rfl

/-- The bytes of a page; those past the end of a file count as zero. -/
def pageOf (m : Mount) (v : PvdId) (off : Pgoff) : PageBytes := fun o =>
  if (m.st.pvds v).type = .file ∧ m.iSize (m.st.pvds v).bk ≤ off * pageSize + o then 0
  else m.st.disk ((m.st.pvds v).bk, off) o

/-- The fake read of a page of a device that has not been written. -/
def Fake (s : State PageBytes) (v : PvdId) (off : Pgoff) : Prop :=
  (s.pvds v).type = .blkd ∧ s.bitmap ((s.pvds v).bk, off) = false

variable {e : Env PageBytes} {m : Mount} {v : PvdId} {vmf : VmFault} {p : PageId}

/-- A page that is not filled is not left valid and cached, and is not returned. -/
def ValidOnlyIfFilled (e : Env PageBytes) (m : Mount) (v : PvdId) (vmf : VmFault)
    (r : Except Halt (PageId × State PageBytes)) : Prop :=
  ∀ p s', r = .ok (p, s') → ¬ Fake m.st v vmf.pgoff →
    (s'.pages p).content ≠ m.pageOf v vmf.pgoff →
      ¬ ((s'.pages p).pageValid = true ∧ s'.fmapRadixLookup e v vmf.pgoff = some p)

/-- What a fault that misses leaves. -/
lemma permaGetpage_miss {f : FaultEnv PageBytes} {r : LowerRead} {s₁ s' : State PageBytes}
    (hv : m.st.vmaPvd vmf.vma = some v) (hr : f.read = r.result)
    (hfind : findPage e v vmf.pgoff f.attempts m.st = .ok (p, false, s₁)) {q : PageId}
    (hs : m.st.permaGetpage e vmf f = .ok (q, s')) :
    q = p ∧ (s'.pages p).pageValid = true ∧ s'.fmapRadixLookup e v vmf.pgoff = some p ∧
      (s'.pages p).content = m.st.loaded v vmf.pgoff r.result (s₁.pages p).content := by
  obtain ⟨hout, hnew, hlook⟩ := missed_findPage hfind
  simp only [permaGetpage, hv, hfind, hr] at hs
  split_ifs at hs with h₁ h₂
  obtain ⟨t, ht, rfl, rfl⟩ : ∃ t, ((s₁.insertPage p false).dmapDoPageIo v vmf.pgoff p
      r.result).dmapAddOrUpdateRmap vmf p f.cpu = .ok t ∧ p = q ∧ t = s' := by
    obtain ⟨t, ht, heq⟩ := Except.map_eq_ok.mp hs
    exact ⟨t, ht, Prod.mk.inj heq⟩
  obtain ⟨hc₁, hv₁, ht₁⟩ := s₁.pages_insertPage p
  have hout₁ : (s₁.insertPage p false).outside = m.st.outside :=
    (outside_insertPage s₁ p false).trans hout
  obtain ⟨hc₂, hv₂, ht₂⟩ := pages_dmapDoPageIo (v := v) vmf.pgoff r.result (hv₁.trans hnew)
  obtain ⟨hc₃, hv₃, ht₃⟩ := pages_dmapAddOrUpdateRmap ht
  refine ⟨rfl, hv₃.trans hv₂, ?_, ?_⟩
  · rw [fmapRadixLookup, treeLookup, ht₃, ht₂, ht₁]
    exact hlook
  · rw [hc₃, hc₂, hc₁, loaded_congr hout₁]

/-- It is so exactly when the read fills the frame: what the lower read and the old content of the
frame make up is the page, or the read is a fake one. -/
theorem validOnlyIfFilled_iff (e : Env PageBytes) (m : Mount) (v : PvdId) (vmf : VmFault)
    (f : FaultEnv PageBytes) (r : LowerRead) (p : PageId) (s₁ : State PageBytes)
    (hv : m.st.vmaPvd vmf.vma = some v) (hr : f.read = r.result)
    (hfind : findPage e v vmf.pgoff f.attempts m.st = .ok (p, false, s₁))
    (hok : (m.st.permaGetpage e vmf f).isOk = true) :
    ValidOnlyIfFilled e m v vmf (m.st.permaGetpage e vmf f) ↔
      Fake m.st v vmf.pgoff ∨
      r.result.content (m.st.disk ((m.st.pvds v).bk, vmf.pgoff)) (s₁.pages p).content =
        m.pageOf v vmf.pgoff := by
  cases hs : m.st.permaGetpage e vmf f with
  | error x => simp [hs, Except.isOk, Except.toBool] at hok
  | ok x =>
    obtain ⟨q, s'⟩ := x
    obtain ⟨rfl, hvalid, hlook, hc⟩ := permaGetpage_miss hv hr hfind hs
    by_cases hfake : Fake m.st v vmf.pgoff
    · refine iff_of_true (fun p' t _ hno => absurd hfake hno) (Or.inl hfake)
    · have hread : ¬ ((m.st.pvds v).type = .blkd ∧
          m.st.bitmap ((m.st.pvds v).bk, vmf.pgoff) = false) := hfake
      rw [loaded, readAs, if_neg hread] at hc
      simp only [hfake, false_or]
      constructor
      · intro h
        by_contra hne
        exact h q s' rfl hfake (by rwa [hc]) ⟨hvalid, hlook⟩
      · rintro heq p' t ht - hne
        obtain ⟨rfl, rfl⟩ := Prod.mk.inj (Except.ok.inj ht)
        exact absurd (hc.trans heq) hne

/-- Files of eight pages that are full of ones. -/
def filledFiles : Mount :=
  ⟨initParams byteEnv { byteWorld with disk := fun _ _ => 1 }, byteSize⟩

/-- A fault on page 0 of file 0, and how its read ends. -/
def filledFault (r : LowerRead) : FaultEnv PageBytes := ⟨[⟨false, 0, 0⟩], 0, r.result⟩

lemma exists_findPage_filledFiles (r : LowerRead) :
    ∃ s₁, findPage byteEnv 0 0 (filledFault r).attempts filledFiles.st = .ok (0, false, s₁) := by
  have h : (findPage byteEnv 0 0 (filledFault r).attempts filledFiles.st).map
      (fun x => (x.1, x.2.1)) = .ok (0, false) := by
    simp only [filledFault]
    decide +kernel
  cases hs : findPage byteEnv 0 0 (filledFault r).attempts filledFiles.st with
  | error x => simp [hs, Except.map] at h
  | ok x =>
    obtain ⟨p, hit, s₁⟩ := x
    obtain ⟨rfl, rfl⟩ := Prod.mk.inj (Except.ok.inj (hs ▸ h))
    exact ⟨s₁, rfl⟩

lemma isOk_filledFiles (r : LowerRead) : (filledFiles.st.permaGetpage byteEnv
    (filledFiles.st.vmFault 0 0) (filledFault r)).isOk = true :=
  rfl

lemma pageOf_filledFiles (o : Fin pageSize) : filledFiles.pageOf 0 0 o = 1 := by
  have ho : ¬ byteSize 0 ≤ 0 * pageSize + o := by
    have := o.2
    simp only [byteSize, pageSize] at this ⊢
    omega
  rw [pageOf, if_neg fun h => ho h.2]
  rfl

/-- A read of a whole page. -/
theorem validOnlyIfFilled_full :
    ValidOnlyIfFilled byteEnv filledFiles 0 (filledFiles.st.vmFault 0 0)
      (filledFiles.st.permaGetpage byteEnv (filledFiles.st.vmFault 0 0)
        (filledFault (.read pageSize))) := by
  obtain ⟨s₁, hs₁⟩ := exists_findPage_filledFiles (.read pageSize)
  refine (validOnlyIfFilled_iff byteEnv filledFiles 0 _ _ (.read pageSize) 0 s₁ rfl rfl hs₁
    (isOk_filledFiles _)).mpr (Or.inr ?_)
  funext o
  rw [show (filledFiles.st.vmFault 0 0).pgoff = 0 from rfl, pageOf_filledFiles]
  exact if_pos o.2

/-- A read that fails leaves the page valid, cached and mapped, with what the frame held. -/
theorem failed_read_becomes_valid :
    ¬ ∀ (e : Env PageBytes) (m : Mount) (v : PvdId) (vmf : VmFault) (f : FaultEnv PageBytes)
      (r : LowerRead) (p : PageId) (s₁ : State PageBytes), m.st.vmaPvd vmf.vma = some v →
      f.read = r.result → findPage e v vmf.pgoff f.attempts m.st = .ok (p, false, s₁) →
        ValidOnlyIfFilled e m v vmf (m.st.permaGetpage e vmf f) := by
  intro hall
  -- the frame holds zeros after the failed read
  set r : LowerRead := .failed fun _ _ _ => 0 with hr
  obtain ⟨s₁, hs₁⟩ := exists_findPage_filledFiles r
  have hok := isOk_filledFiles r
  have h := hall byteEnv filledFiles 0 (filledFiles.st.vmFault 0 0) (filledFault r) r 0 s₁
    rfl rfl hs₁
  cases hs : filledFiles.st.permaGetpage byteEnv (filledFiles.st.vmFault 0 0) (filledFault r) with
  | error x =>
    rw [hs] at hok
    exact absurd hok (by simp [Except.isOk, Except.toBool])
  | ok x =>
    obtain ⟨q, s'⟩ := x
    obtain ⟨rfl, hvalid, hlook, hc⟩ := permaGetpage_miss (r := r) rfl rfl hs₁ hs
    refine h 0 s' hs (fun hfake => absurd hfake.1 (by decide)) (fun heq => ?_) ⟨hvalid, hlook⟩
    have hone := (congrFun heq (inPage 0)).trans (pageOf_filledFiles (inPage 0))
    have hzero : (s'.pages 0).content (inPage 0) = 0 := congrFun hc (inPage 0)
    exact absurd (hzero.symm.trans hone) (by decide)

end Mount

end FastMap
