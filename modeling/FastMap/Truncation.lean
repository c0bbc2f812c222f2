import FastMap.MergedWrites

/-!
# Truncation

`wrapfs_setattr` with a new size of a regular file. It truncates the upper inode "to cancel writing
dirty pages beyond the new eof", and then the lower file. The pages of the driver are not pages of
the upper inode, so that the first of the two removes page table entries only: a dirty page beyond
the new end stays dirty, and the next `fsync` or evictor round writes it and makes the lower file
longer again. Write-back ends at the new end exactly if no page beyond it was cached.
-/

namespace FastMap

namespace Mount

open State

/-! ### `wrapfs_setattr` -/

/-- What the functions of the kernel that `wrapfs_setattr` calls return. -/
structure SetattrEnv where
  setattrPrepare : ℤ
  inodeNewsizeOk : ℤ
  notifyChange : ℤ

/-- The number of pages that a file of `size` bytes has. -/
def pagesOf (size : ℕ) : ℕ := (size + (pageSize - 1)) / pageSize

/-- Whether an address lies in a page of a file that begins at page `n` or later. -/
def beyondPage (s : State PageBytes) (v : PvdId) (n : ℕ) (a : VmaId × ℕ) : Prop :=
  s.vmaPvd a.1 = some v ∧
    n ≤ (s.vmas a.1).vmPgoff + (a.2 - (s.vmas a.1).vmStart) / pageSize

instance (s : State PageBytes) (v : PvdId) (n : ℕ) (a : VmaId × ℕ) :
    Decidable (beyondPage s v n a) :=
  inferInstanceAs (Decidable (_ ∧ _))

/-- `truncate_setsize` on the upper inode. Its page cache holds no page of the driver; the pages
beyond the end are removed from the page tables of the areas that map the file. -/
def truncateSetsize (m : Mount) (v : PvdId) (size : ℕ) : Mount :=
  let pte := fun a => if beyondPage m.st v (pagesOf size) a then Pte.none else m.st.pte a
  { m with st := { m.st with pte := pte } }

/-- `notify_change` on a lower inode, with a new size; bytes that the file did not have or does not
have any more are zero. -/
def notifyChange (m : Mount) (d : DevId) (size : ℕ) : Mount :=
  let disk := fun (a : DevId × Pgoff) (o : Fin pageSize) =>
    if a.1 = d ∧ min (m.iSize d) size ≤ a.2 * pageSize + o then 0 else m.st.disk a o
  resize { m with st := { m.st with disk := disk } } (Function.update m.iSize d size)

/-- `wrapfs_setattr` on a regular file with its pvd; `size` is `ia_size`, if `ATTR_SIZE` is set. -/
def wrapfsSetattr (m : Mount) (r : SetattrEnv) (v : PvdId) (size : Option ℕ) : ℤ × Mount :=
  if r.setattrPrepare ≠ 0 then (r.setattrPrepare, m)
  else
    match size with
    | none => (r.notifyChange, m)
    | some n =>
      if r.inodeNewsizeOk ≠ 0 then (r.inodeNewsizeOk, m)
      else
        let m := m.truncateSetsize v n
        if r.notifyChange ≠ 0 then (r.notifyChange, m)
        else (0, m.notifyChange (m.st.pvds v).bk n)

/-! ### Runs -/

/-- What happens to a file, and changes of its attributes. -/
inductive FileOp where
  | access (a : Access)
  | setattr (r : SetattrEnv) (v : PvdId) (size : Option ℕ)

def execFile (e : Env PageBytes) (m : Mount) : FileOp → Except Halt Mount
  | .access a => m.exec e a
  | .setattr r v size => .ok (m.wrapfsSetattr r v size).2

def issuedFile (e : Env PageBytes) (m : Mount) : FileOp → Bool
  | .access (.call op) => m.st.issued e op
  | _ => true

/-- A completed call. -/
def FileSteps (e : Env PageBytes) (m : Mount) (op : FileOp) (m' : Mount) : Prop :=
  m.issuedFile e op = true ∧ m.execFile e op = .ok m'

/-- The calls that write pages back: rounds of an evictor, `fsync` and release. -/
def IsWriteBack : Op PageBytes → Prop
  | .evictor _ _ => True
  | .writeDirty _ _ => True
  | .rawRelease _ => True
  | _ => False

/-- A completed call that writes pages back. -/
def WritesBack (e : Env PageBytes) (m : Mount) (op : Op PageBytes) (m' : Mount) : Prop :=
  IsWriteBack op ∧ m.exec e (.call op) = .ok m'

/-- Write-back of file `v` is cancelled beyond its first `n` pages. None of its later pages is left
in the trees or in a dirty queue, and whatever is written back from now on, no request reaches
beyond byte `limit`, and the lower file does not become longer than that. -/
structure Cancelled (e : Env PageBytes) (v : PvdId) (n limit : ℕ) (m : Mount) : Prop where
  tree (k : TreeKind) (cpu : ℕ) {off : Pgoff} : n ≤ off → (m.st.trees ⟨k, v, cpu⟩).lookup off = none
  queue {i : ℕ} {p : PageId} : p ∈ (m.st.queues (.dirty i)).buffer → (m.st.pages p).pvd = some v →
    (m.st.pages p).index < n
  written {ops : List (Op PageBytes)} {m₁ m₂ : Mount} {op : Op PageBytes} {b r : List PageId}
    {p : PageId} : Run (WritesBack e) m ops m₁ → WritesBack e m₁ op m₂ → b ∈ m₁.st.opBatches e op →
    r ∈ m₁.st.requests b → p ∈ r → (m₁.st.pages p).pvd = some v →
      ((m₁.st.pages p).index + 1) * pageSize ≤ limit
  length {ops : List (Op PageBytes)} {m' : Mount} : Run (WritesBack e) m ops m' →
    m'.iSize (m.st.pvds v).bk ≤ limit

variable {e : Env PageBytes} {w : World PageBytes} {v : PvdId} {m m' : Mount} {n limit : ℕ}
  {p : PageId}

/-! ### Calls between which the buffer is quiet -/

/-- The buffer is quiet, and the files are those of the start. -/
structure AtRest (e : Env PageBytes) (w : World PageBytes) (m : Mount) : Prop where
  quiet : m.st.Quiet e
  pvds : m.st.pvds = w.pvds

lemma atRest_init (e : Env PageBytes) (w : World PageBytes) (size : DevId → ℕ) :
    AtRest e w ⟨initParams e w, size⟩ :=
  ⟨quiet_initParams e w, rfl⟩

/-- Nothing but page tables, devices and sizes has changed. -/
lemma AtRest.of_fields (h : AtRest e w m) {pte : VmaId × ℕ → Pte}
    {disk : DevId × Pgoff → PageBytes} {devPages size : DevId → ℕ} :
    AtRest e w ⟨{ m.st with pte := pte, disk := disk, devPages := devPages }, size⟩ where
  quiet := by
    refine ⟨{ h.quiet.placed with }, fun p => ?_⟩
    have hp := h.quiet.page p
    refine ⟨?_, hp.unlocked, hp.free⟩
    rcases hp.phase with hx | hx
    · exact Or.inl { hx with unlinked := { hx.unlinked with } }
    · exact Or.inr { hx with }
  pvds := h.pvds

lemma AtRest.call (h : AtRest e w m) {op : Op PageBytes} (hi : m.st.issued e op = true)
    (hs : m.exec e (.call op) = .ok m') : AtRest e w m' := by
  obtain ⟨st, hst, rfl⟩ := Except.map_eq_ok.mp hs
  have hpvds : st.pvds = m.st.pvds :=
    congrArg Outside.pvds (h.quiet.outside_of_exec op hi hst)
  have hrest : AtRest e w ⟨st, m.iSize⟩ := ⟨h.quiet.step ⟨hi, hst⟩, hpvds.trans h.pvds⟩
  exact hrest.of_fields

lemma AtRest.setattr (h : AtRest e w m) (r : SetattrEnv) (v : PvdId) (size : Option ℕ) :
    AtRest e w (m.wrapfsSetattr r v size).2 := by
  cases size with
  | none =>
    unfold wrapfsSetattr
    dsimp only
    split_ifs
    · exact h
    · exact h
  | some n =>
    unfold wrapfsSetattr
    dsimp only
    split_ifs
    · exact h
    · exact h
    · exact h.of_fields
    · exact h.of_fields

lemma AtRest.step (h : AtRest e w m) {op : FileOp} (hs : FileSteps e m op m') : AtRest e w m' := by
  obtain ⟨hi, hs⟩ := hs
  cases op with
  | setattr r v size =>
    obtain rfl : (m.wrapfsSetattr r v size).2 = m' := by simpa [execFile] using hs
    exact h.setattr r v size
  | access a =>
    cases a with
    | call op => exact h.call hi hs
    | read v pos count =>
      obtain rfl : m = m' := by simpa [execFile, exec] using hs
      exact h
    | write v pos buf =>
      obtain rfl : m.vfsWrite (m.st.pvds v).bk pos buf = m' := by
        simpa [execFile, exec, wrapfsWrite] using hs
      unfold vfsWrite
      split_ifs
      · exact h
      · exact h.of_fields
    | store vma i o b =>
      obtain ⟨st, hst, rfl⟩ := Except.map_eq_ok.mp hs
      obtain ⟨-, -, ho, -⟩ := h.quiet.placed.store hst
      exact ⟨h.quiet.store hst, (congrArg Outside.pvds ho).trans h.pvds⟩

lemma AtRest.run {ops : List FileOp} {m₀ : Mount} (h : AtRest e w m₀)
    (hr : Run (FileSteps e) m₀ ops m) : AtRest e w m :=
  hr.invariant (fun _ _ _ h hs => h.step hs) h

/-! ### What is written back -/

/-- A call that writes back hands dirty pages to the writer, and makes no page dirty. -/
lemma AtRest.writeBack (h : AtRest e w m) {op : Op PageBytes} (hw : IsWriteBack op)
    {st : State PageBytes} (hs : m.st.exec e op = .ok st) :
    (∀ b ∈ m.st.opBatches e op, ∀ p ∈ b, (m.st.pages p).isDirty = true) ∧
      ∀ p, (st.pages p).isDirty = true → st.pages p = m.st.pages p := by
  have hinv := h.quiet.inv
  -- the pages of a batch are clean afterwards
  have hsync : ∀ {s' : State PageBytes} {v : PvdId} (cb : Cleanup) {pgs : List PageId},
      Batch e (m.st.view e) (Evictable e v) (PageView.synced cb) s' pgs →
        (∀ p ∈ pgs, (m.st.pages p).isDirty = true) ∧
          ∀ p, (s'.pages p).isDirty = true → s'.pages p = m.st.pages p := by
    intro s' v cb pgs hb
    refine ⟨fun p hp => (hb.all hp).2.1, fun p hd => hb.pages_of_not_mem fun hp => ?_⟩
    have hclean : (s'.pages p).isDirty = false := by
      rw [hb.pages_of_mem hp]
      rfl
    exact Bool.false_ne_true (hclean.symm.trans hd)
  cases op with
  | evictor id held =>
    obtain rfl : m.st.evictorRoundHeld e id held = st := by simpa [State.exec] using hs
    obtain ⟨v, hb, -⟩ := h.quiet.evictorRoundHeld id held
    obtain ⟨hdirty, hkept⟩ := hsync .fsync hb
    refine ⟨fun b hb => ?_, hkept⟩
    obtain rfl := List.mem_singleton.mp hb
    exact hdirty
  | writeDirty cb v =>
    obtain ⟨hdirty, hkept⟩ := hsync cb (hinv.writeDirtyPages hs).batch
    exact ⟨fun b hb p hp => hdirty p (List.mem_flatten_of_mem hb hp), hkept⟩
  | rawRelease v =>
    obtain ⟨s₁, pgs, hw₁, hl, hc⟩ := hinv.rawRelease hs
    obtain ⟨hdirty, hkept⟩ := hsync .release hl.batch
    refine ⟨fun b hb p hp => hdirty p (List.mem_flatten_of_mem hb hp), fun p hd => ?_⟩
    by_cases hp : p ∈ pgs
    · -- the pages of the file have been freed
      have hidle := (h.quiet.rawRelease hs).inv.page p
      have hx := hc.batch.view_of_mem hp
      rcases hidle with hidle | hres
      · exact absurd (hidle.isDirty.symm.trans hd) Bool.false_ne_true
      · have hu := hres.inUse
        rw [hx] at hu
        exact absurd hu (by simp [PageView.dropped, PageView.freed])
    · have heq : st.pages p = s₁.pages p := hc.batch.pages_of_not_mem hp
      rw [heq] at hd ⊢
      exact hkept p hd
  | fault vma i f => exact absurd hw not_false
  | mkwrite vma i => exact absurd hw not_false
  | store vma i f => exact absurd hw not_false
  | purge qid => exact absurd hw not_false

/-- The dirty pages of a file and the file itself end within the first `limit` bytes. -/
structure Confined (e : Env PageBytes) (w : World PageBytes) (v : PvdId) (limit : ℕ) (m : Mount) :
    Prop extends AtRest e w m where
  dirty {p : PageId} : (m.st.pages p).isDirty = true → (m.st.pages p).pvd = some v →
    ((m.st.pages p).index + 1) * pageSize ≤ limit
  length : m.iSize (w.pvds v).bk ≤ limit

/-- A page that is written back. -/
lemma Confined.request_le (h : Confined e w v limit m) {op : Op PageBytes}
    (hs : WritesBack e m op m') {b r : List PageId} (hb : b ∈ m.st.opBatches e op)
    (hr : r ∈ m.st.requests b) (hp : p ∈ r) (hv : (m.st.pages p).pvd = some v) :
    ((m.st.pages p).index + 1) * pageSize ≤ limit := by
  obtain ⟨hw, hs⟩ := hs
  obtain ⟨st, hst, hs⟩ := Except.map_eq_ok.mp hs
  have hdirty := (h.toAtRest.writeBack hw hst).1 b hb p (mem_of_mem_request hr hp)
  exact h.dirty hdirty hv

lemma Confined.step (ha : ∀ v', (w.pvds v').bk = (w.pvds v).bk → v' = v)
    (h : Confined e w v limit m) {op : Op PageBytes} (hs : WritesBack e m op m') :
    Confined e w v limit m' := by
  have hissued : m.st.issued e op = true := by
    cases op with
    | mkwrite vma i => exact absurd hs.1 not_false
    | _ => rfl
  have hrest := h.toAtRest.call hissued hs.2
  obtain ⟨hw, hx⟩ := id hs
  cases hst : m.st.exec e op with
  | error x => simp [exec, hst, Except.map] at hx
  | ok st =>
    obtain rfl : resize ⟨st, m.iSize⟩ (m.grown (m.st.opBatches e op)) = m' := by
      simpa [exec, hst, Except.map] using hx
    obtain ⟨-, hkept⟩ := h.toAtRest.writeBack hw hst
    refine ⟨hrest, fun {p} hd hv => ?_, ?_⟩
    · change (st.pages p).isDirty = true at hd
      change (st.pages p).pvd = some v at hv
      change ((st.pages p).index + 1) * pageSize ≤ limit
      have heq := hkept p hd
      rw [heq] at hd hv ⊢
      exact h.dirty hd hv
    · change m.grown _ _ ≤ limit
      rw [grown, max_le_iff, Finset.sup_le_iff]
      refine ⟨h.length, fun p hp => ?_⟩
      obtain ⟨r, hr, hpr⟩ := List.mem_flatten.mp (List.mem_toFinset.mp hp)
      obtain ⟨b, hb, hr⟩ := List.mem_flatMap.mp hr
      unfold pageEnd
      cases hv : (m.st.pages p).pvd with
      | none => exact Nat.zero_le _
      | some v' =>
        dsimp only
        split_ifs with hfile
        · -- a page of another file is written elsewhere
          rw [h.pvds] at hfile
          obtain rfl := ha v' hfile.2
          exact h.request_le hs hb hr hpr hv
        · exact Nat.zero_le _

lemma Confined.run (ha : ∀ v', (w.pvds v').bk = (w.pvds v).bk → v' = v)
    (h : Confined e w v limit m) {ops : List (Op PageBytes)} (hr : Run (WritesBack e) m ops m') :
    Confined e w v limit m' :=
  hr.invariant (fun _ _ _ h hs => h.step ha hs) h

/-! ### The cached pages -/

/-- No page of the file beyond its first `n` pages is cached. -/
def NoneCached (s : State PageBytes) (v : PvdId) (n : ℕ) : Prop :=
  ∀ p off, (s.pages p).Caches v off → off < n

lemma AtRest.caches_of_tree (h : AtRest e w m) {t : TreeId} {off : Pgoff}
    (hl : (m.st.trees t).lookup off = some p) : (m.st.pages p).Caches t.pvd off := by
  obtain ⟨-, hv, hi⟩ := h.quiet.placed.tree_own hl
  have ht := h.quiet.placed.tree_of_lookup hl
  rcases h.quiet.inv.page p with hidle | hres
  · exact absurd ((hidle.unlinked.tree _).symm.trans ht) Bool.false_ne_true
  · exact ⟨hres.inUse, hv, hi⟩

lemma AtRest.caches_of_queue (h : AtRest e w m) {i : ℕ}
    (hq : p ∈ (m.st.queues (.dirty i)).buffer) (hv : (m.st.pages p).pvd = some v) :
    (m.st.pages p).Caches v (m.st.pages p).index := by
  rcases h.quiet.placed.queue_own hq with hclean | hdirty
  · cases hclean
  · rw [hdirty] at hq
    have hd := (view_dirty e m.st p).mpr hq
    rcases h.quiet.inv.page p with hidle | hres
    · exact absurd (hidle.unlinked.dirty.symm.trans hd) Bool.false_ne_true
    · exact ⟨hres.inUse, hv, rfl⟩

/-- Nothing is left in the trees and dirty queues exactly if nothing is cached. -/
lemma AtRest.noneCached_iff (h : AtRest e w m) :
    NoneCached m.st v n ↔
      (∀ k cpu off, n ≤ off → (m.st.trees ⟨k, v, cpu⟩).lookup off = none) ∧
      ∀ i, ∀ p ∈ (m.st.queues (.dirty i)).buffer, (m.st.pages p).pvd = some v →
        (m.st.pages p).index < n := by
  constructor
  · intro hn
    constructor
    · intro k cpu off hoff
      cases hl : (m.st.trees ⟨k, v, cpu⟩).lookup off with
      | none => rfl
      | some p => exact absurd (hn p off (h.caches_of_tree hl)) (not_lt.mpr hoff)
    · intro i p hp hv
      exact hn p _ (h.caches_of_queue hp hv)
  · intro hn p off hc
    by_contra hoff
    have hl := h.quiet.inv.lookup_iff.mpr hc
    have hnone := hn.1 .rdx (off % e.ncpus) off (not_lt.mp hoff)
    rw [fmapRadixLookup, treeLookup, hnone] at hl
    exact absurd hl (by simp)

/-- A file whose dirty pages end within `limit`. -/
lemma Confined.cancelled (ha : ∀ v', (w.pvds v').bk = (w.pvds v).bk → v' = v)
    (h : Confined e w v limit m) (hn : NoneCached m.st v n) : Cancelled e v n limit m where
  tree k cpu _ hoff := (h.noneCached_iff.mp hn).1 k cpu _ hoff
  queue hp hv := (h.noneCached_iff.mp hn).2 _ _ hp hv
  written hr hs hb hreq hp hv := (h.run ha hr).request_le hs hb hreq hp hv
  length hr := by
    rw [h.pvds]
    exact (h.run ha hr).length

/-! ### The new end -/

lemma pagesOf_mul_le (size : ℕ) : size ≤ pagesOf size * pageSize := by
  unfold pagesOf pageSize
  omega

/-- What a call that succeeds does. -/
lemma eq_of_wrapfsSetattr {r : SetattrEnv} {size : ℕ}
    (hs : m.wrapfsSetattr r v (some size) = (0, m')) :
    m' = (m.truncateSetsize v size).notifyChange (m.st.pvds v).bk size := by
  unfold wrapfsSetattr at hs
  dsimp only at hs
  split_ifs at hs with h₁ h₂ h₃
  · exact absurd (Prod.mk.inj hs).1 h₁
  · exact absurd (Prod.mk.inj hs).1 h₂
  · exact absurd (Prod.mk.inj hs).1 h₃
  · exact (Prod.mk.inj hs).2.symm

/-- All functions of the kernel succeed. -/
def setattrOk : SetattrEnv := ⟨0, 0, 0⟩

/-- The state after a sequence of calls, if all of them are issued and complete. -/
def execFileAll (e : Env PageBytes) (m : Mount) (ops : List FileOp) : Option Mount :=
  ops.foldlM (fun m op => if m.issuedFile e op then (m.execFile e op).toOption else none) m

lemma run_execFileAll {ops : List FileOp} (h : execFileAll e m ops = some m') :
    Run (FileSteps e) m ops m' := by
  refine Run.of_foldlM (fun m op m' hs => ?_) h
  split_ifs at hs with hi
  exact ⟨hi, Except.toOption_eq_some.mp hs⟩

/-- A page in use is a page of the buffer. -/
lemma AtRest.lt_of_caches (h : AtRest e w m) {off : Pgoff} (hc : (m.st.pages p).Caches v off) :
    p < e.numPages := by
  rcases h.quiet.inv.page p with hidle | hres
  · exact absurd (hidle.inUse.symm.trans hc.1) Bool.false_ne_true
  · exact hres.lt

/-- Page 1 of a file is written through the mapping. -/
def dirtyPage : List FileOp :=
  [.access (.call (.fault 0 1 byteFault)), .access (.call (.mkwrite 0 1))]

end Mount

end FastMap
